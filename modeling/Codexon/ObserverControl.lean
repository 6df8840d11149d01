import Codexon.Faults
import Codexon.Json
import Mathlib.Data.List.Infix

/-!
# Codexon.ObserverControl

`ObserverManager` of `cachemonitor/observer_control.py`: the proxy's address is written to the
configuration of Codex, and taken back from the record of what was there before.

Requests, tasks, locks and copies of files are steps without an effect on what is modelled;
what they answer is the environment's.
-/

namespace Codexon.ObserverControl

/-! ## files -/

/-- `openai_base_url`; `proxy` is the address of the manager. -/
inductive Url where
  | proxy
  /-- `https://api.openai.com/v1`. -/
  | openai
  /-- `https://chatgpt.com/backend-api/codex`. -/
  | chatgpt
  | custom (text : PyStr)
deriving DecidableEq

/-- `config.toml`. -/
structure Config (σ : Type) where
  baseUrl : Option Url
  modelProvider : Option PyStr := none
  settings : σ
deriving DecidableEq

inductive Phase where
  | starting
  | prepared
  | validated
  | active
  | off
  | failed
  | recoveryFailed
  | other (text : PyStr)
deriving DecidableEq

/-- `model-observer.json`; an item that is not there has its default. -/
structure Record where
  enabled : Bool := false
  pending : Bool := false
  phase : Phase := .off
  proof : Bool := false
  previousUrl : Option Url := none
  previousStartup : Option PyStr := none
  managedStartup : Option PyStr := none
  restartRequired : Bool := false
deriving DecidableEq

inductive StateFile where
  | missing
  /-- No JSON, or the state of another home. -/
  | foreign (bytes : Bytes)
  | state (record : Record)
deriving DecidableEq

/-- `app-services.json`, of this scope. -/
structure Session where
  suspended : Bool
  resume : Bool
deriving DecidableEq

inductive Kind where
  | osError
  | valueError
  | runtimeError
  | other
deriving DecidableEq

/-- An exception; `recovery` when a recovery that failed is its context. -/
structure Exc where
  kind : Kind
  recovery : Bool := false
deriving DecidableEq

/-- The files and the startup registration.  `recoveryReads` is what the reads of the state
file in `recover_direct` raise, one after the other. -/
structure World (σ : Type) where
  config : Config σ
  file : StateFile := .missing
  startup : Option PyStr := none
  session : Option Session := none
  recoveryReads : List (Option Exc) := []

variable {σ : Type}

abbrev Act (σ α : Type) := Attempt (World σ) Exc α

open Attempt

/-- A step outside of what is modelled. -/
def external : Act σ Unit := change id

def raiseKind {α : Type} (kind : Kind) : Act σ α := raise { kind }

/-- `self.cancelled.is_set()`. -/
def cancelled : Act σ Bool := answer

def StateFile.read : StateFile → Except Kind Record
  | .missing => .ok {}
  | .foreign _ => .error .valueError
  | .state record => .ok record

def readState : Act σ Record := do
  match (← look World.file).read with
  | .ok record => return record
  | .error kind => raiseKind kind

def writeState (record : Record) : Act σ Unit := change fun w => { w with file := .state record }

/-- `status`, of which only that it reads is modelled. -/
def status : Act σ Unit := do
  let _ ← look World.config
  external

/-- `set_url`, where nobody else edits the file. -/
def setUrl [DecidableEq σ] (value : Option Url) : Act σ Unit := do
  let config ← look World.config
  if config.baseUrl = value then return ()
  else
    external
    if (← look World.config) ≠ config then raiseKind .runtimeError
    else change fun w => { w with config := { w.config with baseUrl := value } }

def upstream : Act σ Unit := do
  let config ← look World.config
  if config.modelProvider.any (· ≠ py "openai") then raiseKind .valueError
  else
    match config.baseUrl with
    | some (.custom (_ :: _)) => raiseKind .valueError
    | _ => external

def requireRunning : Act σ Unit := do
  if (← look World.session).any Session.suspended then raiseKind .runtimeError

def disableResume : Act σ Unit :=
  change fun w =>
    { w with session := w.session.map fun session => { session with resume := false } }

/-! ## turning on -/

/-- The wait of `start` for the relay. -/
def awaitReady : Nat → Act σ Unit
  | 0 => raiseKind .runtimeError
  | n + 1 => do
    if ← cancelled then raiseKind .runtimeError
    else if ← answer then return ()
    else awaitReady n

/-- `start`: where no other relay is in the way, it is started and waited for. -/
def start : Act σ Unit := do
  if ← answer then raiseKind .runtimeError
  else
    external
    awaitReady 60

/-- A record that cannot be read is copied, and an empty one stands for it. -/
def salvage (e : Exc) : Act σ Record :=
  if e.kind = .valueError ∨ e.kind = .osError then do
    external
    return {}
  else raise e

def prepare : Act σ Unit := do
  if (← look World.config).baseUrl = some .proxy then raiseKind .runtimeError
  else
    upstream
    let record ← catching readState salvage
    let before ← look World.file
    let record :=
      { record with enabled := false, pending := true, phase := .starting, proof := false }
    writeState record
    catching start fun e => do
      change fun w => { w with file := before }
      raise e
    writeState { record with pending := false, phase := .prepared }
    status

variable [DecidableEq σ]

def checkReady : Act σ Unit := do
  let before ← look World.config
  prepare
  let ready ← answer
  let unchanged := decide ((← look World.config) = before)
  if ← cancelled then raiseKind .runtimeError
  else if !(unchanged && ready) then raiseKind .runtimeError
  else
    let record ← readState
    writeState { record with phase := .validated, proof := true }
    status

def noteBefore (config : Config σ) (record : Record) : Act σ Record :=
  if record.enabled || record.pending then return record
  else if config.baseUrl = some .proxy then raiseKind .valueError
  else do
    let startup ← look World.startup
    return { record with
      previousUrl := config.baseUrl, previousStartup := startup, enabled := false }

def enable : Act σ Unit := do
  let record ← readState
  let config ← look World.config
  upstream
  if !(← answer) then raiseKind .runtimeError
  else
    let record ← noteBefore config record
    let previousStartup ← look World.startup
    catching (do
        writeState { record with pending := true }
        external
        if ← cancelled then raiseKind .runtimeError
        else
          provided (previousStartup = record.managedStartup) do
            change fun w => { w with startup := none }
          setUrl (some .proxy)
          writeState { record with
            enabled := true, pending := false, phase := .active, restartRequired := true })
      fun e => do
        change fun w => { w with startup := previousStartup }
        provided (config.baseUrl ≠ some .proxy) do
          let current ← look World.config
          provided (current.baseUrl = some .proxy) (setUrl record.previousUrl)
        writeState record
        external
        raise e
    status

/-! ## turning off -/

/-- The read of the state file in `recover_direct`. -/
def readForRecovery : Act σ Record := fun t =>
  let fault := t.world.recoveryReads.head?.join
  let t := { t with world := { t.world with recoveryReads := t.world.recoveryReads.tail } }
  match fault with
  | some e => (.raised e, t)
  | none =>
    match t.world.file.read with
    | .ok record => (.returned record, t)
    | .error kind => (.raised { kind }, t)

def official (url : Option Url) : Option Url :=
  if url = some .openai ∨ url = some .chatgpt then url else none

def mentionsProxy (home text : PyStr) : Bool := py "--model-proxy" <:+: text && home <:+: text

/-- The manager's own registration, of before there was a task for it. -/
def isManaged (home : PyStr) (record : Record) (text : PyStr) : Bool :=
  text ≠ [] && (record.managedStartup = some text || mentionsProxy home text)

/-- A step whose `RuntimeError` is only a warning. -/
def warned : Act σ Unit :=
  catching external fun e => if e.kind = .runtimeError then return () else raise e

def recoverDirect (home : PyStr) : Act σ Unit := do
  disableResume
  let record ← catching readForRecovery salvage
  let wasConfigured := decide ((← look World.config).baseUrl = some .proxy)
  provided wasConfigured (setUrl (official record.previousUrl))
  let current ← look World.startup
  provided (current.any (isManaged home record)) do
    change fun w => { w with startup := record.previousStartup }
  warned
  warned
  warned
  writeState { record with
    enabled := false
    pending := false
    phase := .off
    proof := false
    restartRequired := wasConfigured || record.restartRequired }
  status

/-! ## calls -/

/-- `attach_supervisor`, where an update is not under way: nothing that is modelled changes. -/
def attachSupervisor : Act σ Unit := do
  requireRunning
  if ← answer then status
  else
    let record ← readState
    if !record.enabled || (← look World.config).baseUrl ≠ some .proxy then status
    else if ← answer then
      external
      status
    else
      external
      awaitReady 80
      external
      status

/-- What `turn_on` does when it failed. -/
def afterFailure (home : PyStr) (e : Exc) : Act σ Unit := do
  catching (recoverDirect home) fun _ =>
    catching (do
        let record ← readState
        writeState { record with phase := .recoveryFailed, restartRequired := true }
        raiseKind .runtimeError)
      fun e => raise { e with recovery := true }
  let off ← cancelled
  let record ← readState
  writeState { record with phase := if off then .off else .failed }
  raise e

def turnOn (home : PyStr) : Act σ Unit := do
  external
  requireRunning
  if (← look World.config).baseUrl = some .proxy then attachSupervisor
  else
    catching (do
        checkReady
        if ← cancelled then raiseKind .runtimeError
        else
          enable
          if ← cancelled then raiseKind .runtimeError)
      (afterFailure home)

def turnOff (home : PyStr) : Act σ Unit := do
  external
  if ← answer then raiseKind .runtimeError
  else
    disableResume
    recoverDirect home

end Codexon.ObserverControl
