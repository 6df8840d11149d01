import Codexon.UpdateState

/-!
# Codexon.UpdateState.Shown

The shown phase behind the phase of the component.  `install_ready` and `begin_switch`
write `phase` alone, and the results of the client and of the GUI derive it again from
the component of before.  Over the runs whose calls fit (`Fits`) every record shows
what `overall_phase` makes of the last component (`Follows`).
-/

namespace Codexon.UpdateState

/-- The keywords of `change`. -/
structure Changes (κ τ : Type) where
  phase : Option Phase := none
  componentPhase : Option Phase := none
  kind : Option Kind := none
  targetVersion : Option String := none
  scope : Option (Option String) := none
  app : Option App := none
  proxy : Option (Proxy κ τ) := none
  client : Option Client := none
  cancelRequested : Option Bool := none
  deferRequested : Option Bool := none
  activationStarted : Option Bool := none

variable {κ τ : Type}

/-- `value.update(changes)` -/
def Record.update (record : Record κ τ) (changes : Changes κ τ) : Record κ τ :=
  { record with
    phase := changes.phase.getD record.phase
    componentPhase := changes.componentPhase.or record.componentPhase
    kind := changes.kind.getD record.kind
    targetVersion := changes.targetVersion.getD record.targetVersion
    scope := changes.scope.getD record.scope
    app := changes.app.getD record.app
    proxy := changes.proxy.getD record.proxy
    client := changes.client.getD record.client
    cancelRequested := changes.cancelRequested.getD record.cancelRequested
    deferRequested := changes.deferRequested.getD record.deferRequested
    activationStarted := changes.activationStarted.getD record.activationStarted }

/-! ## where the shown phase follows -/

/-- Neither the client nor a GUI that is required hides the phase of the component. -/
def Free (record : Record κ τ) : Prop :=
  record.client.phase ≠ some .blocked ∧ record.client.phase ≠ some .closing ∧
    ¬(installedGuiRequired record = true ∧
      record.app.startup.bind (·.state) = some StartupState.blocked)

instance (record : Record κ τ) : Decidable (Free record) :=
  inferInstanceAs (Decidable (_ ∧ _ ∧ ¬_))

/-- The record shows the last component.  Without a `component_phase` of its own `phase`
is the component. -/
structure Follows (last : Phase) (record : Record κ τ) : Prop where
  shown : record.phase = overallPhase record last
  direct : record.componentPhase = none → record.phase = last ∧ record.app.state ≠ .verified

variable {record : Record κ τ} {last : Phase}

variable [DecidableEq κ]

def change (operation : κ) (changes : Changes κ τ) (s : Option (Record κ τ)) :
    Reply × Option (Record κ τ) :=
  under operation s fun value =>
    let value := value.update changes
    match changes.phase with
    | none => (.yes, value)
    | some phase =>
      let component := changes.componentPhase.getD phase
      (.yes, { value with
        componentPhase := some component, phase := overallPhase value component })

/-- `fail`, which reads the record (`seen`) before it takes the lock. -/
def fail (operation : κ) (seen s : Option (Record κ τ)) : Reply × Option (Record κ τ) :=
  let phase := if (∃ record ∈ seen, record.app.state = .verified) then .partially else .failed
  change operation { phase := some phase, componentPhase := some phase } s

inductive Operation (κ τ : Type) where
  | call (event : Event κ τ)
  | change (operation : κ) (changes : Changes κ τ)
  | fail (operation : κ) (seen : Option (Record κ τ))

/-- The journal, with the component phase that an operation established last. -/
structure Tracked (κ τ : Type) where
  record : Option (Record κ τ) := none
  established : Phase := .preparing

def Product.app (product : Product) : App := {
  state := .verified, version := some product.version, executable := some product.executable
  sha256 := some product.sha256, commit := some product.commit, startup := product.startup }

/-- What an accepted call on `record` establishes; a result of the proxy and an
installation that are there already write nothing. -/
def established [DecidableEq τ] (before : Phase) (record : Record κ τ) : Event κ τ → Phase
  | .begin_ .. => .preparing
  | .installReady _ | .beginActivation _ => .installing
  | .beginSwitch _ => .switching
  | .prepareProxyRetry .. => .waiting
  | .installed _ product =>
    if product.recovered = true ∧
        { record.app with startup := none } = { product.app with startup := none }
    then before else .waiting
  | .proxyResult _ result _ =>
    if record.component = mappedPhase record result ∧ record.proxy = result ∧
        record.cancelRequested = false
    then before else mappedPhase record result
  | .startupResult _ result =>
    if restarted record result = record.componentPhase then before else .waiting
  | .clientResult .. | .cancel _ => before

variable [DecidableEq τ] [LT τ] [DecidableLT τ] [Zero τ]

def act (s : Option (Record κ τ)) : Operation κ τ → Reply × Option (Record κ τ)
  | .call event => perform s event
  | .change operation changes => change operation changes s
  | .fail operation seen => fail operation seen s

def track (w : Tracked κ τ) (operation : Operation κ τ) : Tracked κ τ :=
  let answer := act w.record operation
  { record := answer.2
    established :=
      if answer.1 ≠ .yes then w.established
      else match operation, w.record with
        | .call event, some record => established w.established record event
        | .call _, none => .preparing
        | .change _ changes, _ =>
          match changes.phase with
          | none => changes.componentPhase.getD w.established
          | some phase => changes.componentPhase.getD phase
        | .fail _ seen, _ =>
          if (∃ record ∈ seen, record.app.state = .verified) then .partially else .failed }

/-- The calls after which `phase` is still what the component makes of it: the calls that
write it alone have nothing to hide it, and the results find the last component. -/
def FitsRecord (last : Phase) (record : Record κ τ) : Event κ τ → Prop
  | .begin_ _ _ _ _ replace client =>
    record.phase ∈ ACTIVE ∧ replace = false ∨
      client.bind (·.phase) ∉ [some ClientPhase.blocked, some .closing]
  | .installReady _ | .beginActivation _ | .beginSwitch _ =>
    record.cancelRequested = false → Free record
  | .prepareProxyRetry _ consent _ => Free { record with client := consent.getD record.client }
  | .installed _ product => record.targetVersion = product.version →
    (product.recovered = true → record.phase = .installing) →
      Free { record with app := product.app }
  | .clientResult .. => record.component = last
  | .startupResult _ result =>
    restarted record result = record.componentPhase → record.component = last
  | .proxyResult .. | .cancel _ => True

instance (record : Record κ τ) : DecidablePred (FitsRecord last record) := fun event => by
  cases event <;> unfold FitsRecord <;> infer_instance

def FitsFirst : Event κ τ → Prop
  | .begin_ _ _ _ _ _ client => client.bind (·.phase) ∉ [some ClientPhase.blocked, some .closing]
  | _ => True

instance : DecidablePred (FitsFirst : Event κ τ → Prop) := fun event => by
  cases event <;> unfold FitsFirst <;> infer_instance

def Fits (w : Tracked κ τ) : Operation κ τ → Prop
  | .call event => (w.record = none → FitsFirst event) ∧
    ∀ record ∈ w.record, event.operation.getD record.operationId = record.operationId →
      FitsRecord w.established record event
  | .change operation changes => ∀ record ∈ w.record, record.operationId = operation →
    changes.phase = none → changes.componentPhase = none ∧ changes.kind = none ∧
      changes.app = none ∧ changes.client = none
  | .fail .. => True

instance (w : Tracked κ τ) : DecidablePred (Fits w) := fun operation => by
  cases operation <;> unfold Fits <;> infer_instance

end Codexon.UpdateState
