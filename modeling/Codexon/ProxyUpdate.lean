import Codexon.Faults
import Codexon.Json

/-!
# Codexon.ProxyUpdate

`ProxyUpdate.replace` of `cachemonitor/proxy_update.py`, with `ProxyDrain.run` of
`cachemonitor/proxy_drain.py`: a relay is drained and another one takes its address, or the
first one is started again.

What a run asks (health, processes, the user) is answered by the environment.  What a claim
about runs speaks of is noted in `World.trace`, the newest event first.
-/

namespace Codexon.ProxyUpdate

open Attempt

/-! ## the journal and the relays -/

inductive Phase where
  | queued
  | waiting
  | switching
  | stopping
  | starting
  | verifying
  | rollback
  | complete
  | off
  | cancelled
  | failed
deriving DecidableEq

def Phase.isTerminal : Phase → Bool
  | .complete | .off | .cancelled | .failed => true
  | _ => false

abbrev Command := List PyStr

/-- What `capture` finds out about a relay. -/
structure Source where
  inst : PyStr
  controlId : Option PyStr := none
  command : Command := []
  /-- The length of `processes`. -/
  processes : Nat := 1
  statePhase : Option PyStr := none
  sha256 : Option PyStr := none
deriving DecidableEq

structure WebsocketStates where
  responding : Nat := 0
  unknown : Nat := 0
  connecting : Nat := 0
  reserved : Nat := 0
deriving DecidableEq

structure Health where
  inst : PyStr
  controlId : Option PyStr := none
  supportsForceShutdown : Bool := false
  websocketStates : Option WebsocketStates := none
  activeConnections : Nat := 0
  httpConnections : Nat := 0
  draining : Bool := false
deriving DecidableEq

/-- `proxy-update.json`; an item that is not there has its default. -/
structure Journal where
  phase : Option Phase := none
  scope : Option PyStr := none
  source : Option Source := none
  command : Option Command := none
  sourceInstance : Option PyStr := none
  /-- Whether there is an `operation_id` and an `update_root`. -/
  operation : Bool := false
  cutoverStarted : Bool := false
  rollbackStarted : Bool := false
deriving DecidableEq

/-- A relay is checked or started with the command of the update, or with its former one. -/
inductive Role where
  | target
  | former
deriving DecidableEq

inductive Event where
  | health (answer : Option Health)
  /-- `target.stopped` said so. -/
  | stopped (source : Source)
  /-- What `target.ready` said of an instance. -/
  | checked (role : Role) (inst : Option PyStr) (valid : Bool)
  | drain (source : Source) (id : PyStr)
  | force (source : Source) (id : PyStr)
  /-- In place of `source`; `owned` is the relay that was drained for it in a rollback. -/
  | started (role : Role) (source : Source) (owned : Option Source)
  | published (phase : Phase) (cutoverStarted : Bool)
deriving DecidableEq

/-- `unread` is which reads of the journal fail, one after the other. -/
structure World where
  journal : Journal
  unread : List Bool := []
  healths : List (Option Health) := []
  captures : List Source := []
  trace : List Event := []

inductive Exc where
  /-- `UpdateCancelled` -/
  | cancelled
  | runtimeError (busy : Bool)
  | osError
  | other
deriving DecidableEq

abbrev Act (α : Type) := Attempt World Exc α

/-! ## steps -/

/-- A step outside of the update does not raise its exception. -/
def Exc.foreign : Exc → Exc
  | .cancelled => .other
  | e => e

def act {α : Type} (effect : World → α × World) : Act α :=
  catching (step effect) fun e => raise e.foreign

def external : Act Unit := act fun w => ((), w)

def ask : Act Bool := catching answer fun e => raise e.foreign

def note (event : Event) : Act Unit := act fun w => ((), { w with trace := event :: w.trace })

/-- `read_json`: a journal that cannot be read is an empty one. -/
def readJournal : Act Journal := act fun w =>
  (if w.unread.headD false then {} else w.journal, { w with unread := w.unread.tail })

def health : Act (Option Health) := act fun w =>
  let current := w.healths.headD none
  (current, { w with healths := w.healths.tail, trace := .health current :: w.trace })

def capture (current : Health) : Act Source := act fun w =>
  ({ w.captures.headD { inst := current.inst } with
      inst := current.inst, controlId := current.controlId },
    { w with captures := w.captures.tail })

def stopped (source : Source) : Act Bool := do
  if ← ask then
    note (.stopped source)
    return true
  else return false

/-- What `publish` makes of the journal. -/
def Journal.published (data : Journal) (phase : Phase) : Journal :=
  { data with
    phase := some phase
    rollbackStarted :=
      if phase = .rollback then true else if phase.isTerminal then false
      else data.rollbackStarted }

def publish (phase : Phase) (extra : Journal → Journal := id) : Act Unit := do
  external
  let data ← readJournal
  act fun w => ((), { w with
    journal := (extra data).published phase
    trace := .published phase (extra data).cutoverStarted :: w.trace })
  provided data.operation external

def allowed : Act Unit := do
  let data ← readJournal
  if data.cutoverStarted then return ()
  else if ← (if data.operation then ask else pure false) then raise .cancelled
  else if ← ask then raise .cancelled
  else if ← ask then return ()
  else raise .cancelled

def beginSwitch : Act Unit := do
  external
  allowed
  let data ← readJournal
  if ← (if data.operation && !data.cutoverStarted then do external; ask else pure false) then
    raise .cancelled
  else publish .switching fun data => { data with cutoverStarted := true }

/-- `ProxyTarget.ready` -/
def isReady (current : Option Health) (source : Source) : Act Bool :=
  match current with
  | none => return false
  | some h => if h.draining || h.inst = source.inst then return false else ask

def targetReady (role : Role) (current : Option Health) (source : Source) : Act Bool := do
  let valid ← isReady current source
  note (.checked role (current.map Health.inst) valid)
  return valid

/-- The loop of `ready`, of at most so many rounds before the process is no more. -/
def readyLoop (role : Role) (source : Source) : Nat → Nat → Option PyStr → Act Unit
  | 0, _, _ => halt
  | n + 1, consecutive, last => do
    if ← ask then raise (.runtimeError false)
    else
      allowed
      let current ← health
      let valid ← targetReady role current source
      let inst := current.map Health.inst
      let consecutive := if valid && inst = last then consecutive + 1 else if valid then 1 else 0
      if 3 ≤ consecutive then return ()
      else
        external
        readyLoop role source n consecutive inst

def ready (fuel : Nat) (role : Role) (source : Source) : Act Unit :=
  readyLoop role source fuel 0 none

/-! ## draining -/

/-- `[0-9a-f]{32}` -/
def isControlId (id : PyStr) : Bool :=
  id.length = 32 && id.all fun c => (48 ≤ c.val && c.val ≤ 57) || (97 ≤ c.val && c.val ≤ 102)

/-- The connections of which it is not known what they do. -/
def Health.unknown (h : Health) : Nat :=
  match h.websocketStates with
  | none => h.activeConnections
  | some states => states.unknown

def Health.responding (h : Health) : Nat :=
  (h.websocketStates.getD {}).responding + h.httpConnections

/-- Nothing is left to deliver. -/
def Health.isDrained (h : Health) : Bool :=
  h.draining && h.httpConnections = 0 &&
    h.websocketStates.any fun states =>
      states.responding = 0 && states.unknown = 0 && states.connecting = 0 && states.reserved = 0

def canForce (current : Health) (source : Source) : Bool :=
  current.supportsForceShutdown && isControlId (current.controlId.getD []) &&
    current.controlId = source.controlId

def confirmForce (current : Health) (source : Source) : Act Unit :=
  if !canForce current source then raise (.runtimeError false)
  else do
    let captured ← capture current
    if captured.inst ≠ source.inst || captured.controlId ≠ source.controlId then
      raise (.runtimeError false)
    else return ()

/-- The relay is told to drain, unless something may still be cut. -/
def orderDrain (force : Bool) (current : Health) (source : Source) : Act Bool :=
  if current.unknown ≠ 0 && !force then do
    publish .waiting
    external
    return false
  else if current.responding ≠ 0 && !force then do
    publish .waiting
    external
    return false
  else if !isControlId (current.controlId.getD []) then raise (.runtimeError false)
  else if current.controlId ≠ source.controlId then raise (.runtimeError false)
  else do
    beginSwitch
    publish .switching
    provided (1 < source.processes) do
      external
      allowed
      external
    note (.drain source (current.controlId.getD []))
    return true

/-- Whether the relay has nothing left to do. -/
def settled (current : Option Health) : Act Bool := do
  if ← ask then return true
  else
    match current with
    | none => ask
    | some h => return h.isDrained

/-- The end of a round of `ProxyDrain.run`, and the next one. -/
def finishRound (again : Bool → Bool → Bool → Act Bool) (current : Option Health)
    (drainSent forceSent deadline : Bool) : Act Bool := do
  let done ← settled current
  if deadline || done then
    publish .stopping
    if ← ask then raise (.runtimeError false)
    else
      external
      again drainSent forceSent true
  else
    publish (if (current.bind Health.websocketStates).any fun states => states.unknown ≠ 0
      then .waiting else .switching)
    external
    again drainSent forceSent deadline

/-- The loop of `ProxyDrain.run`. -/
def drainLoop (forceRequested : Act Bool) (allowMissingFlush : Bool) (source : Source) :
    Nat → Bool → Bool → Bool → Act Bool
  | 0, _, _, _ => halt
  | n + 1, drainSent, forceSent, deadline => do
    let again := drainLoop forceRequested allowMissingFlush source n
    allowed
    if ← stopped source then return true
    else if ← (if allowMissingFlush then ask else pure false) then return false
    else
      let current ← health
      if current.any fun h => h.inst ≠ source.inst then raise (.runtimeError false)
      else
        let force ← forceRequested
        match current with
        | none => finishRound again none drainSent forceSent deadline
        | some h => do
          provided (force && !forceSent) (confirmForce h source)
          if ← (if drainSent then pure true else orderDrain force h source) then
            if force && !forceSent then
              note (.force source (h.controlId.getD []))
              finishRound again (some h) true true true
            else finishRound again (some h) true forceSent deadline
          else again false forceSent deadline

/-- `drain`: an update is never forced. -/
def drain (fuel : Nat) (source : Source) : Act Unit := do
  let _ ← drainLoop (pure false) false source fuel false false false

/-! ## starting -/

def start (role : Role) (command : Command) (source : Source) (owned : Option Source) :
    Act Unit := do
  allowed
  if ← stopped source then
    external
    allowed
    provided (source.statePhase.any (· ≠ [])) external
    provided (py "--control-file" ∈ command) external
    note (.started role source owned)
  else raise (.runtimeError false)

/-- The end of `rollback`. -/
def restore (fuel : Nat) (source : Source) (owned : Option Source) : Act Unit := do
  publish .rollback
  start .former source.command source owned
  ready fuel .former source
  publish .failed

def checkFormer (fuel : Nat) (current : Health) (source : Source) : Act Bool := do
  if ← targetReady .former (some current) source then
    ready fuel .former source
    publish .failed
    return true
  else return false

def alreadyRestored (fuel : Nat) (current : Health) (source : Source) : Act Bool :=
  if current.inst = source.inst then return false
  else
    catching (checkFormer fuel current source) fun e =>
      match e with
      | .runtimeError _ | .osError => return false
      | e => raise e

def rollback (fuel : Nat) (data : Journal) : Act Unit := do
  allowed
  match data.source with
  | none => raise .other
  | some source =>
    if ← (if source.sha256.any (· ≠ []) then ask else pure false) then
      raise (.runtimeError false)
    else
      publish .rollback
      match ← health with
      | none => restore fuel source none
      | some h =>
        if ← alreadyRestored fuel h source then return ()
        else
          let owned ← capture h
          match data.command with
          | none => raise .other
          | some command =>
            if owned.command.head? ≠ command.head? then raise (.runtimeError false)
            else
              drain fuel owned
              if ← stopped owned then restore fuel source (some owned)
              else raise (.runtimeError false)

/-! ## replacing -/

/-- The former relay is gone, and the new one is started. -/
def switch (fuel : Nat) (command : Command) (source : Source) : Act Unit := do
  allowed
  beginSwitch
  publish .starting
  catching (do
      start .target command source none
      publish .verifying
      ready fuel .target source
      publish .complete)
    fun e =>
      match e with
      | .cancelled => raise .cancelled
      | _ => do
        publish .rollback
        rollback fuel (← readJournal)

/-- What is left to do for a relay that is known. -/
def resume (fuel : Nat) (command : Command) (source : Source) : Act Unit := do
  let data ← readJournal
  if data.phase = some .rollback || data.rollbackStarted then rollback fuel data
  else
    match ← health with
    | some h =>
      if h.inst ≠ source.inst then
        catching (do
            ready fuel .target source
            publish .complete)
          fun e =>
            match e with
            | .cancelled => raise .cancelled
            | _ => rollback fuel data
      else
        drain fuel source
        switch fuel command source
    | none =>
      if ← stopped source then switch fuel command source
      else
        drain fuel source
        switch fuel command source

variable (scope : PyStr) (replacement : Source → Command)

/-- The relay that is there is captured, unless it is the one that is wanted. -/
def begin (fuel : Nat) (data : Journal) : Act Unit := do
  match ← health with
  | none => raise (.runtimeError false)
  | some h =>
    if data.sourceInstance.any (· ≠ h.inst) then raise (.runtimeError false)
    else
      let source ← capture h
      let command := replacement source
      external
      let probe := { source with inst := [] }
      if ← targetReady .target (some h) probe then
        ready fuel .target probe
        publish .complete
      else if source.controlId.getD [] = [] then raise (.runtimeError false)
      else
        publish .waiting fun data =>
          { data with source := some source, command := some command, scope := some scope }
        resume fuel command source

/-- The inner `try` of `replace`. -/
def attempt (fuel : Nat) (data : Journal) : Act Unit := do
  allowed
  if data.scope.any (· ≠ scope) then raise (.runtimeError false)
  else
    external
    publish (data.phase.getD .queued) fun data => { data with scope := some scope }
    allowed
    match data.source with
    | some source => resume fuel (data.command.getD []) source
    | none => begin scope replacement fuel data

/-- What follows an exception, when the former relay is stopped: whether it was settled. -/
def recovers (fuel : Nat) (saved : Journal) : Act Bool :=
  match saved.source with
  | none => return false
  | some source =>
    if saved.phase = some .rollback then return false
    else
      catching (do
          if ← stopped source then
            rollback fuel saved
            return true
          else return false)
        fun e =>
          match e with
          | .cancelled => do
            publish .cancelled
            return true
          | e => do
            publish .rollback
            raise e

/-- The exceptions of the inner `try`. -/
def handle (fuel : Nat) (e : Exc) : Act Unit :=
  match e with
  | .cancelled => publish .cancelled
  | e => do
    let saved ← readJournal
    if ← recovers fuel saved then return ()
    else
      let now ← readJournal
      if now.phase = some .rollback then
        publish .rollback
        raise e
      else publish .failed

def replace (fuel : Nat) : Act Unit :=
  catching (do
      external
      let data ← readJournal
      if data.phase.any Phase.isTerminal then external
      else
        publish (data.phase.getD .queued)
        catching (attempt scope replacement fuel data) (handle fuel))
    fun e =>
      match e with
      | .runtimeError true => return ()
      | e => raise e

end Codexon.ProxyUpdate
