import Mathlib.Order.Defs.LinearOrder
import Codexon.Run
import Mathlib.Algebra.GroupWithZero.Nat

/-!
# Codexon.UpdateState

`UpdateState` of `cachemonitor/update_state.py`: the journal of one update, a record
that the installer, the proxy worker and the GUI change under a lock.  The phase
that is shown is derived from the phase of the component and the states of the
app, its startup and the client (`overall_phase`).

Every call is one atomic step.  `installed` without an operation id is `begin_`
with `replace`, and then `installed` with the new id.  Of the record, the items
that none of the calls reads are left out.
-/

namespace Codexon.UpdateState

/-! ## the record -/

/-- `phase` and `component_phase`.  A result of the proxy may carry any text. -/
inductive Phase where
  | preparing
  | downloading
  | installing
  | waiting
  | needsExit
  | switching
  | stopping
  | starting
  | verifying
  | rollback
  | closingClient
  | restartingClient
  | restartRequired
  | complete
  | partially
  | failed
  | cancelled
  | deferred
  | queued
  | off
  | recoveryRequired
  | other (text : String)
deriving DecidableEq

instance lawfulPhase : LawfulBEq (Option Phase) := inferInstance

def ACTIVE : List Phase :=
  [.preparing, .downloading, .installing, .waiting, .needsExit, .switching, .stopping, .starting,
    .verifying, .rollback, .closingClient, .restartingClient]

inductive ClientPhase where
  | awaitingConsent
  | blocked
  | closing
  | closed
  | reopening
  | restarted
  | notRunning
  | notApplicable
  | other (text : String)
deriving DecidableEq

instance lawfulClientPhase : LawfulBEq (Option ClientPhase) := inferInstance

inductive AppState where
  | pending
  | current
  | verified
deriving DecidableEq

inductive StartupState where
  | waiting
  | starting
  | ready
  | blocked
  | other (text : String)
deriving DecidableEq

inductive Policy where
  | requested
  | noLaunch
  | other (text : String)
deriving DecidableEq

inductive Kind where
  | app
  | proxy
  | other (text : String)
deriving DecidableEq

/-- `client`; of `targets` there is whether it is truthy. -/
structure Client where
  phase : Option ClientPhase := none
  reopenRequired : Option Bool := none
  targets : Option Bool := none
deriving DecidableEq

/-- `app['startup']` -/
structure Startup where
  state : Option StartupState := none
  policy : Option Policy := none
deriving DecidableEq

structure App where
  state : AppState
  version : Option String := none
  executable : Option String := none
  sha256 : Option String := none
  commit : Option String := none
  startup : Option Startup := none
deriving DecidableEq

structure Distribution where
  executable : Option String := none
  sha256 : Option String := none
  commit : Option String := none
deriving DecidableEq

/-- `proxy`, which is the last result of the proxy.  Texts that are empty count as
missing; `rest` is the other items and how the empty ones are written. -/
structure Proxy (κ τ : Type) where
  state : Option String := none
  operationId : Option (Option κ) := none
  phase : Option Phase := none
  cutoverStarted : Option Bool := none
  updatedAt : Option τ := none
  scope : Option String := none
  targetAppVersion : Option String := none
  targetVersion : Option String := none
  distribution : Option Distribution := none
  requiredAction : Option String := none
  rest : List (String × String) := []
deriving DecidableEq

structure Record (κ τ : Type) where
  operationId : κ
  kind : Kind
  targetVersion : String
  phase : Phase
  componentPhase : Option Phase := none
  scope : Option String
  app : App
  proxy : Proxy κ τ
  client : Client
  cancelRequested : Bool := false
  deferRequested : Bool := false
  activationStarted : Bool := false

/-- What a call answers: `True` or an id, `False` or `None`, or an exception. -/
inductive Reply where
  | yes
  | no
  | raises
deriving DecidableEq

section

variable {κ τ : Type}

/-! ## phases -/

def installedGuiRequired (record : Record κ τ) : Bool :=
  record.kind = .app && record.app.state = .verified &&
    ((record.app.startup.bind (·.policy)).getD .requested) ≠ .noLaunch

def overallPhase (record : Record κ τ) (componentPhase : Phase) : Phase :=
  let phase := record.client.phase
  let startup := record.app.startup.bind (·.state)
  if phase = some .blocked then .restartRequired
  else if phase = some .closing then .closingClient
  else if installedGuiRequired record = true ∧ startup ≠ some .ready ∧ startup = some .blocked then
    if record.client.reopenRequired = some true then .restartRequired else .partially
  else if installedGuiRequired record = true ∧ startup ≠ some .ready ∧
      componentPhase = .complete then .waiting
  else if (phase = some .closed ∨ phase = some .reopening) ∧
      componentPhase ∈ [Phase.complete, .partially, .failed, .cancelled, .deferred] then
    .restartingClient
  else if componentPhase = .complete ∧
      phase ∉ [some ClientPhase.restarted, some .notRunning, some .notApplicable] then
    .restartRequired
  else componentPhase

/-- `value.get('component_phase', value['phase'])` -/
def Record.component (record : Record κ τ) : Phase := record.componentPhase.getD record.phase

/-- `{**old, **new}` -/
def Client.update (old new : Client) : Client :=
  ⟨new.phase.or old.phase, new.reopenRequired.or old.reopenRequired, new.targets.or old.targets⟩

/-! ## calls -/

variable [DecidableEq κ]

/-- `begin`; `client` is `none` where the argument is falsy. -/
def begin_ (operation : κ) (kind : Kind) (version : String) (scope : Option String)
    (replace : Bool) (client : Option Client) (s : Option (Record κ τ)) :
    Reply × Option (Record κ τ) :=
  if (∃ previous ∈ s, previous.phase ∈ ACTIVE) ∧ replace = false then (.raises, s)
  else
    let client := client.getD { phase := some .awaitingConsent }
    let reopen := client.reopenRequired.getD (client.targets.getD false)
    let before := match s with
      | none => false
      | some previous =>
        previous.kind = kind && previous.targetVersion = version && previous.scope = scope &&
          previous.phase ≠ .complete && previous.phase ≠ .cancelled &&
          previous.client.reopenRequired.getD false
    (.yes, some {
      operationId := operation
      kind := kind
      targetVersion := version
      phase := .preparing
      scope := scope
      app := { state := if kind = .proxy then .current else .pending }
      proxy := { state := some "pending" }
      client := { client with reopenRequired := some (reopen || before) } })

def under (operation : κ) (s : Option (Record κ τ))
    (call : Record κ τ → Reply × Record κ τ) : Reply × Option (Record κ τ) :=
  match s with
  | none => (.no, none)
  | some value =>
    if value.operationId ≠ operation then (.no, some value)
    else ((call value).1, some (call value).2)

def installReady (operation : κ) (s : Option (Record κ τ)) : Reply × Option (Record κ τ) :=
  under operation s fun value =>
    if value.cancelRequested then (.no, value) else (.yes, { value with phase := .installing })

def beginSwitch (operation : κ) (s : Option (Record κ τ)) : Reply × Option (Record κ τ) :=
  under operation s fun value =>
    if value.cancelRequested then (.no, value)
    else (.yes, { value with
      phase := .switching, proxy := { value.proxy with cutoverStarted := some true } })

def clientResult (operation : κ) (changes : Client) (s : Option (Record κ τ)) :
    Reply × Option (Record κ τ) :=
  under operation s fun value =>
    let changes := { changes with
      reopenRequired := changes.reopenRequired.map fun reopen =>
        reopen || value.client.reopenRequired.getD false }
    let value := { value with
      componentPhase := some value.component, client := value.client.update changes }
    (.yes, { value with phase := overallPhase value value.component })

def beginActivation (operation : κ) (s : Option (Record κ τ)) : Reply × Option (Record κ τ) :=
  under operation s fun value =>
    if value.cancelRequested then (.no, value)
    else (.yes, { value with
      phase := .installing, componentPhase := some .installing, activationStarted := true })

def prepareProxyRetry (operation : κ) (consent : Option Client) (now : τ)
    (s : Option (Record κ τ)) : Reply × Option (Record κ τ) :=
  under operation s fun value =>
    match value.client.reopenRequired with
    | none => (.raises, value)
    | some reopen =>
      let client := consent.getD value.client
      (.yes, { value with
        phase := .waiting
        componentPhase := some .waiting
        client := { client with
          reopenRequired := some (reopen || client.reopenRequired.getD false) }
        proxy := { state := some "pending", updatedAt := some now }
        cancelRequested := false
        deferRequested := false
        activationStarted := false })

def cancel (later : Bool) (s : Option (Record κ τ)) : Reply × Option (Record κ τ) :=
  match s with
  | none => (.no, none)
  | some value =>
    if value.activationStarted = true ∨ value.proxy.cutoverStarted = some true ∨
        value.phase ∉ [Phase.preparing, .downloading, .installing, .waiting, .needsExit,
          .closingClient, .restartRequired] then (.no, some value)
    else (.yes, some { value with cancelRequested := true, deferRequested := later })

/-- The arguments of `installed`; `inside` says that the product lies under `versions`. -/
structure Product where
  inside : Bool
  version : String
  executable : String
  sha256 : String
  commit : String
  scope : Option String
  recovered : Bool
  startup : Option Startup

def installed (operation : κ) (product : Product) (s : Option (Record κ τ)) :
    Reply × Option (Record κ τ) :=
  if product.inside = false then (.raises, s)
  else under operation s fun value =>
    let app : App := {
      state := .verified, version := some product.version, executable := some product.executable
      sha256 := some product.sha256, commit := some product.commit, startup := product.startup }
    let written := { value with
      phase := .waiting, componentPhase := some .waiting, activationStarted := false
      scope := product.scope.or value.scope, cancelRequested := false, app := app }
    if value.targetVersion ≠ product.version then (.raises, value)
    else if product.recovered then
      if product.scope ≠ value.scope then (.no, value)
      else if { value.app with startup := none } = { app with startup := none } then (.yes, value)
      else if value.phase ≠ .installing ∨ value.app.state = .verified then (.no, value)
      else (.yes, written)
    else (.yes, written)

/-- The argument of `startup_result`, with the executable of its owner. -/
structure StartupResult where
  state : Option StartupState := none
  policy : Option Policy := none
  owner : Option String := none

/-- A component that had ended waits again where the GUI starts again. -/
def restarted (value : Record κ τ) (result : StartupResult) : Option Phase :=
  if (result.state = some .waiting ∨ result.state = some .starting) ∧
      value.componentPhase ∈ [some Phase.failed, some .partially, some .cancelled, some .deferred]
  then some .waiting else value.componentPhase

def startupResult (operation : κ) (result : StartupResult) (s : Option (Record κ τ)) :
    Reply × Option (Record κ τ) :=
  under operation s fun value =>
    let startup := value.app.startup.getD { state := some .waiting, policy := some .requested }
    if value.app.state ≠ .verified then (.no, value)
    else if result.state = some .ready ∧
        (startup.policy ≠ some .requested ∨ result.owner ≠ value.app.executable) then (.no, value)
    else
      let value := { value with
        app := { value.app with
          startup := some ⟨result.state.or startup.state, result.policy.or startup.policy⟩ }
        componentPhase := restarted value result }
      (.yes, { value with phase := overallPhase value value.component })

def matchesProxyTarget (record : Record κ τ) (result : Proxy κ τ) : Bool :=
  let expected : Option Distribution :=
    if record.app.state = .verified
    then some ⟨record.app.executable, record.app.sha256, record.app.commit⟩
    else record.proxy.distribution
  if record.scope = none ∨ result.scope ≠ record.scope ∨
      result.operationId.join ≠ some record.operationId then false
  else
    let bound := match result.distribution, expected with
      | some actual, some expected =>
        expected.executable.isSome && expected.sha256.isSome && expected.commit.isSome &&
          actual = expected
      | _, _ => result.phase ≠ some .complete
    if bound = false then false
    else if result.targetAppVersion.isSome then result.targetAppVersion = some record.targetVersion
    else result.distribution.isSome && expected.isSome && result.targetVersion.isSome &&
      result.targetVersion = record.proxy.targetVersion

def mappedPhase (record : Record κ τ) (result : Proxy κ τ) : Phase :=
  let phase := result.phase.getD (.other "")
  let appDone : Bool := record.app.state = .verified || record.app.state = .current
  match phase with
  | .queued => .waiting
  | .waiting => if result.requiredAction = some "close_client" then .needsExit else .waiting
  | .complete | .off => if appDone then .complete else .installing
  | .failed => if record.app.state = .verified then .partially else .failed
  | .cancelled => if appDone || record.deferRequested then .deferred else .cancelled
  | .recoveryRequired => if appDone then .partially else .failed
  | phase => phase

variable [DecidableEq τ] [LT τ] [DecidableLT τ] [Zero τ]

def time (at_ : Option τ) : Option τ := at_.filter (· ≠ 0)

/-- `result['updated_at'] < previous['updated_at']`, where both are there. -/
def older (result previous : Proxy κ τ) : Bool :=
  match time result.updatedAt, time previous.updatedAt with
  | some at_, some before => at_ < before
  | _, _ => false

def proxyResult (operation : κ) (result : Proxy κ τ) (replay : Bool) (s : Option (Record κ τ)) :
    Reply × Option (Record κ τ) :=
  under operation s fun value =>
    let mapped := mappedPhase value result
    if result.operationId.getD (some operation) ≠ some operation then (.no, value)
    else if result.targetAppVersion.isSome ∧
        result.targetAppVersion ≠ some value.targetVersion then (.no, value)
    else if result.scope.isSome ∧ value.scope.isSome ∧ result.scope ≠ value.scope then (.no, value)
    else if replay = true ∧ matchesProxyTarget value result = false then (.no, value)
    else if older result value.proxy then (.no, value)
    else if value.proxy.cutoverStarted = some true ∧ result.cutoverStarted ≠ some true ∧
        result.phase ∈ [some Phase.queued, some .waiting, some .cancelled] then (.no, value)
    else if value.component = mapped ∧ value.proxy = result ∧ value.cancelRequested = false then
      (.yes, value)
    else
      let value := { value with componentPhase := some mapped, proxy := result }
      (.yes, { value with
        phase := overallPhase value mapped
        cancelRequested :=
          if result.phase ∈ [some Phase.complete, some .off, some .cancelled, some .failed]
          then false else value.cancelRequested })

/-! ## runs -/

/-- A call, with the new id of `begin_` and the clock. -/
inductive Event (κ τ : Type) where
  | begin_ (operation : κ) (kind : Kind) (version : String) (scope : Option String)
      (replace : Bool) (client : Option Client)
  | installReady (operation : κ)
  | beginActivation (operation : κ)
  | beginSwitch (operation : κ)
  | cancel (later : Bool)
  | installed (operation : κ) (product : Product)
  | clientResult (operation : κ) (changes : Client)
  | startupResult (operation : κ) (result : StartupResult)
  | prepareProxyRetry (operation : κ) (consent : Option Client) (now : τ)
  | proxyResult (operation : κ) (result : Proxy κ τ) (replay : Bool)

def perform (s : Option (Record κ τ)) : Event κ τ → Reply × Option (Record κ τ)
  | .begin_ operation kind version scope replace client =>
    begin_ operation kind version scope replace client s
  | .installReady operation => installReady operation s
  | .beginActivation operation => beginActivation operation s
  | .beginSwitch operation => beginSwitch operation s
  | .cancel later => cancel later s
  | .installed operation product => installed operation product s
  | .clientResult operation changes => clientResult operation changes s
  | .startupResult operation result => startupResult operation result s
  | .prepareProxyRetry operation consent now => prepareProxyRetry operation consent now s
  | .proxyResult operation result replay => proxyResult operation result replay s

def step (s : Option (Record κ τ)) (event : Event κ τ) : Option (Record κ τ) := (perform s event).2

def Event.operation : Event κ τ → Option κ
  | .begin_ .. => none
  | .installReady operation => some operation
  | .beginActivation operation => some operation
  | .beginSwitch operation => some operation
  | .cancel _ => none
  | .installed operation _ => some operation
  | .clientResult operation _ => some operation
  | .startupResult operation _ => some operation
  | .prepareProxyRetry operation _ _ => some operation
  | .proxyResult operation _ _ => some operation

/-- What the calls answer one after the other. -/
def replies : Option (Record κ τ) → List (Event κ τ) → List Reply
  | _, [] => []
  | s, event :: events => (perform s event).1 :: replies (step s event) events

end

end Codexon.UpdateState
