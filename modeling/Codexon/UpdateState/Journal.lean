import Codexon.UpdateState

/-!
# Codexon.UpdateState.Journal

What every reachable record of the journal satisfies.  `Sound` ties the shown phase
to the phase of the component and to the states of the app and the client; each
call keeps it.  `Watched` runs the journal together with what was accepted before:
a cancel since the last call that lifts it, and an activation.
-/

namespace Codexon.UpdateState

variable {κ τ : Type}

/-! ## the shown phase -/

def Record.appDone (record : Record κ τ) : Prop :=
  record.app.state = .verified ∨ record.app.state = .current

/-- What the client and the started GUI have come to where an update is complete. -/
def Record.shown (record : Record κ τ) : Prop :=
  record.client.phase ∈ [some ClientPhase.restarted, some .notRunning, some .notApplicable] ∧
    (installedGuiRequired record = true →
      record.app.startup.bind (·.state) = some StartupState.ready)

variable {record : Record κ τ}

theorem overallPhase_complete {component : Phase}
    (h : overallPhase record component = .complete) : component = .complete ∧ record.shown := by
  grind [overallPhase, Record.shown]

/-- A complete component has its app, and a complete update has all of it. -/
structure Sound (record : Record κ τ) : Prop where
  component : record.component = .complete → record.appDone
  complete : record.phase = .complete → record.component = .complete ∧ record.shown

theorem sound_of_ne (hphase : record.phase ≠ .complete)
    (hcomponent : record.component = .complete → record.appDone) : Sound record :=
  ⟨hcomponent, fun h => absurd h hphase⟩

theorem sound_overall {component : Phase}
    (hphase : record.phase = overallPhase record component) (hof : record.component = component)
    (hcomponent : component = .complete → record.appDone) : Sound record := by
  constructor
  · rwa [hof]
  · intro h
    obtain ⟨hcomplete, hshown⟩ := overallPhase_complete (hphase ▸ h)
    exact ⟨hof.trans hcomplete, hshown⟩

theorem sound_overallPhase {before : Phase}
    (hphase : record.phase = overallPhase record (record.componentPhase.getD before))
    (happ : record.componentPhase.getD before = .complete → record.appDone) : Sound record := by
  cases hcomponent : record.componentPhase with
  | none =>
    have hof : record.component = record.phase := by simp [Record.component, hcomponent]
    have hdone : record.phase = .complete →
        record.componentPhase.getD before = .complete ∧ record.shown := fun h =>
      overallPhase_complete (hphase ▸ h)
    exact ⟨fun h => happ (hdone (hof ▸ h)).1, fun h => ⟨hof.trans h, (hdone h).2⟩⟩
  | some component =>
    rw [hcomponent, Option.getD_some] at hphase happ
    exact sound_overall hphase (by simp [Record.component, hcomponent]) happ

/-- A result of the proxy completes the component only when the app is done. -/
theorem mappedPhase_complete {result : Proxy κ τ}
    (h : mappedPhase record result = .complete) : record.appDone := by
  unfold mappedPhase at h
  grind [Record.appDone]

/-! ## calls -/

variable [DecidableEq κ]

variable {operation : κ}

variable {call : Record κ τ → Reply × Record κ τ} {s : Option (Record κ τ)}

theorem under_keeps {P : Record κ τ → Prop} (hcall : ∀ value, P value → P (call value).2)
    (hs : ∀ value ∈ s, P value) : ∀ value ∈ (under operation s call).2, P value := by
  cases s with
  | none => simp [under]
  | some value =>
    have hvalue : P value := hs value rfl
    have hnext := hcall value hvalue
    by_cases h : value.operationId = operation <;> simp_all [under]

theorem under_no (h : operation ≠ record.operationId) :
    under operation (some record) call = (.no, some record) := by
  simp [under, h.symm]

theorem under_yes (h : (under operation s call).1 = .yes) : ∃ value ∈ s, (call value).1 = .yes := by
  cases s with
  | none => simp [under] at h
  | some value =>
    by_cases hid : value.operationId = operation <;> simp_all [under]

theorem under_of_ne (hcall : ∀ value, (call value).1 ≠ .yes → (call value).2 = value)
    (h : (under operation s call).1 ≠ .yes) : (under operation s call).2 = s := by
  cases s with
  | none => rfl
  | some value =>
    have hnext := hcall value
    by_cases hid : value.operationId = operation <;> simp_all [under]

theorem under_keeps_of_yes {P : Record κ τ → Prop}
    (hcall : ∀ value, P value → (call value).1 = .yes → P (call value).2)
    (hs : ∀ value ∈ s, P value) (hyes : (under operation s call).1 = .yes) :
    ∀ value ∈ (under operation s call).2, P value := by
  cases s with
  | none => simp [under]
  | some value =>
    have hvalue : P value := hs value rfl
    have hnext := hcall value hvalue
    by_cases h : value.operationId = operation <;> simp_all [under]

variable [DecidableEq τ] [LT τ] [DecidableLT τ] [Zero τ]

theorem perform_sound (hs : ∀ record ∈ s, Sound record)
    (event : Event κ τ) : ∀ record ∈ step s event, Sound record := by
  cases event with
  | begin_ operation kind version scope replace client =>
    simp only [step, perform, begin_]
    split
    · exact hs
    · simp only [Option.mem_def, Option.some.injEq, forall_eq']
      exact sound_of_ne (by simp) (by simp [Record.component])
  | installReady operation =>
    refine under_keeps (fun value hvalue => ?_) hs
    split
    · exact hvalue
    · refine sound_of_ne (by simp) fun h => hvalue.component ?_
      cases hcomponent : value.componentPhase <;> simp_all [Record.component]
  | beginActivation operation =>
    refine under_keeps (fun value hvalue => ?_) hs
    split
    · exact hvalue
    · exact sound_of_ne (by simp) (by simp [Record.component])
  | beginSwitch operation =>
    refine under_keeps (fun value hvalue => ?_) hs
    split
    · exact hvalue
    · refine sound_of_ne (by simp) fun h => hvalue.component ?_
      cases hcomponent : value.componentPhase <;> simp_all [Record.component]
  | cancel later =>
    cases s with
    | none => simp [step, perform, cancel]
    | some value =>
      have hvalue : Sound value := hs value rfl
      simp only [step, perform, cancel]
      split
      · exact hs
      · simp only [Option.mem_def, Option.some.injEq, forall_eq']
        exact ⟨hvalue.component, hvalue.complete⟩
  | installed operation product =>
    simp only [step, perform, installed]
    split
    · exact hs
    · refine under_keeps (fun value hvalue => ?_) hs
      have hwaits : ∀ record : Record κ τ, record.phase = .waiting →
          record.componentPhase = some .waiting → Sound record := fun record hphase hcomponent =>
        sound_of_ne (by simp [hphase]) (by simp [Record.component, hcomponent])
      grind
  | clientResult operation changes =>
    refine under_keeps (fun value hvalue => ?_) hs
    exact sound_overall rfl rfl hvalue.component
  | startupResult operation result =>
    refine under_keeps (fun value hvalue => ?_) hs
    simp only
    split
    · exact hvalue
    · split
      · exact hvalue
      · next hverified _ =>
        have hverified : value.app.state = .verified := by simpa using hverified
        exact sound_overallPhase rfl fun _ => .inl hverified
  | prepareProxyRetry operation consent now =>
    refine under_keeps (fun value hvalue => ?_) hs
    split
    · exact hvalue
    · exact sound_of_ne (by simp) (by simp [Record.component])
  | proxyResult operation result replay =>
    refine under_keeps (fun value hvalue => ?_) hs
    have hwritten : ∀ cancelled, Sound { value with
        componentPhase := some (mappedPhase value result), proxy := result
        phase := overallPhase { value with
          componentPhase := some (mappedPhase value result), proxy := result }
            (mappedPhase value result)
        cancelRequested := cancelled } := fun cancelled =>
      sound_overall rfl rfl fun h => mappedPhase_complete h
    grind

/-! ## what was accepted before -/

/-- The journal, with whether a cancel was accepted since the last `begin`, `installed`,
retry or final result of the proxy, and whether an activation was since the last of the
first three. -/
structure Watched (κ τ : Type) where
  record : Option (Record κ τ) := none
  cancelled : Bool := false
  activated : Bool := false

def final (result : Proxy κ τ) : Bool :=
  result.phase ∈ [some Phase.complete, some .off, some .cancelled, some .failed]

def cancelledAfter (before : Bool) : Event κ τ → Bool
  | .cancel _ => true
  | .begin_ .. => false
  | .installed .. => false
  | .prepareProxyRetry .. => false
  | .proxyResult _ result _ => if final result then false else before
  | _ => before

def activatedAfter (before : Bool) : Event κ τ → Bool
  | .beginActivation _ => true
  | .begin_ .. => false
  | .installed .. => false
  | .prepareProxyRetry .. => false
  | _ => before

def watch (w : Watched κ τ) (event : Event κ τ) : Watched κ τ :=
  let answer := perform w.record event
  { record := answer.2
    cancelled := if answer.1 = .yes then cancelledAfter w.cancelled event else w.cancelled
    activated := if answer.1 = .yes then activatedAfter w.activated event else w.activated }

/-- The journal keeps what was accepted. -/
structure Kept (w : Watched κ τ) : Prop where
  sound : ∀ record ∈ w.record, Sound record
  cancelled : w.cancelled = true → ∀ record ∈ w.record, record.cancelRequested = true
  activated : w.activated = true → ∀ record ∈ w.record, record.activationStarted = true

variable {event : Event κ τ}

theorem step_of_ne (h : (perform s event).1 ≠ .yes) : step s event = s := by
  cases event with
  | begin_ operation kind version scope replace client =>
    simp only [step, perform, begin_] at h ⊢
    split at h
    · next hactive => rw [if_pos hactive]
    · exact absurd rfl h
  | cancel later =>
    cases s <;> grind [step, perform, cancel]
  | installed operation product =>
    simp only [step, perform, installed] at h ⊢
    split at h
    · simp_all
    · next hinside =>
      rw [if_neg hinside]
      exact under_of_ne (by grind) h
  | installReady | beginActivation | beginSwitch | clientResult | startupResult
  | prepareProxyRetry | proxyResult => exact under_of_ne (by grind) h

theorem step_cancelRequested {before : Bool}
    (hs : before = true → ∀ record ∈ s, record.cancelRequested = true)
    (hyes : (perform s event).1 = .yes) (hafter : cancelledAfter before event = true) :
    ∀ record ∈ step s event, record.cancelRequested = true := by
  cases event with
  | begin_ | installed | prepareProxyRetry => simp [cancelledAfter] at hafter
  | cancel later => cases s <;> grind [step, perform, cancel]
  | installReady | beginActivation | beginSwitch | clientResult | startupResult =>
    exact under_keeps_of_yes (by grind) (hs hafter) hyes
  | proxyResult operation result replay =>
    have hbefore : final result = false ∧ before = true := by
      cases hfinal : final result <;> simp_all [cancelledAfter]
    have hresult : result.phase ∉ [some Phase.complete, some .off, some .cancelled,
        some .failed] := by simpa [final] using hbefore.1
    exact under_keeps_of_yes (by grind) (hs hbefore.2) hyes

theorem step_activationStarted {before : Bool}
    (hs : before = true → ∀ record ∈ s, record.activationStarted = true)
    (hyes : (perform s event).1 = .yes) (hafter : activatedAfter before event = true) :
    ∀ record ∈ step s event, record.activationStarted = true := by
  cases event with
  | begin_ | installed | prepareProxyRetry => simp [activatedAfter] at hafter
  | cancel later => cases s <;> grind [step, perform, cancel, activatedAfter]
  | beginActivation operation =>
    cases s <;> grind [step, perform, beginActivation, under]
  | installReady | beginSwitch | clientResult | startupResult | proxyResult =>
    exact under_keeps_of_yes (by grind) (hs hafter) hyes

theorem kept_watch {w : Watched κ τ} (hw : Kept w) (event : Event κ τ) : Kept (watch w event) := by
  refine ⟨perform_sound hw.sound event, fun h => ?_, fun h => ?_⟩
  all_goals
    by_cases hyes : (perform w.record event).1 = .yes
  · exact step_cancelRequested hw.cancelled hyes (by simpa [watch, hyes] using h)
  · have hsame : (watch w event).record = w.record := step_of_ne hyes
    rw [hsame]
    exact hw.cancelled (by simpa [watch, hyes] using h)
  · exact step_activationStarted hw.activated hyes (by simpa [watch, hyes] using h)
  · have hsame : (watch w event).record = w.record := step_of_ne hyes
    rw [hsame]
    exact hw.activated (by simpa [watch, hyes] using h)

theorem kept_run (events : List (Event κ τ)) : Kept (run watch {} events) :=
  run_inv (I := Kept) (fun _ event hw => kept_watch hw event) (by constructor <;> simp) events

/-! ## refusals -/

section

omit [DecidableEq τ] [LT τ] [DecidableLT τ] [Zero τ]

omit [DecidableEq κ] in
theorem cancel_refused (later : Bool)
    (h : ∀ record ∈ s, record.activationStarted = true ∨ record.proxy.cutoverStarted = some true) :
    cancel later s = (.no, s) := by
  cases s <;> grind [cancel]

theorem not_cancelled_of_yes {w : Watched κ τ} (hw : Kept w)
    (h : (installReady operation w.record).1 = .yes ∨
      (beginActivation operation w.record).1 = .yes ∨
      (beginSwitch operation w.record).1 = .yes) : w.cancelled = false := by
  have hgoes : ∃ record ∈ w.record, record.cancelRequested = false := by
    rcases h with h | h | h <;> obtain ⟨value, hvalue, hyes⟩ := under_yes h <;>
      exact ⟨value, hvalue, by grind⟩
  obtain ⟨record, hrecord, hgoes⟩ := hgoes
  by_contra hcancelled
  simp [hw.cancelled (by simpa using hcancelled) record hrecord] at hgoes

end

theorem step_of_operation_ne (hevent : event.operation = some operation)
    (hne : operation ≠ record.operationId) : step (some record) event = some record := by
  cases event with
  | begin_ | cancel => simp [Event.operation] at hevent
  | installed operation' product =>
    simp only [Event.operation, Option.some.injEq] at hevent
    subst hevent
    simp only [step, perform, installed]
    split
    · rfl
    · rw [under_no hne]
  | installReady | beginActivation | beginSwitch | clientResult | startupResult
  | prepareProxyRetry | proxyResult =>
    simp only [Event.operation, Option.some.injEq] at hevent
    subst hevent
    exact congrArg Prod.snd (under_no hne)

theorem proxyResult_of_older {result : Proxy κ τ}
    {replay : Bool} (h : older result record.proxy = true) :
    proxyResult operation result replay (some record) = (.no, some record) := by
  by_cases hid : record.operationId = operation
  · simp only [proxyResult, under, hid, h]
    grind
  · exact under_no (Ne.symm hid)

/-- **The journal in every order of calls**: `complete` is shown only over a done app, a
returned client and a ready GUI; nothing is cancelled once it is activated or switched;
what was cancelled is not installed, activated or switched until the next `begin`,
`installed`, retry or final result of the proxy; and late calls change nothing. -/
theorem journal_safe (events : List (Event κ τ)) :
    (∀ record ∈ (run watch {} events).record, record.phase = .complete →
      (record.app.state = .verified ∨ record.app.state = .current) ∧
      record.client.phase ∈ [some ClientPhase.restarted, some .notRunning, some .notApplicable] ∧
      (installedGuiRequired record = true →
        record.app.startup.bind (·.state) = some StartupState.ready)) ∧
    (∀ later, (∃ record ∈ (run watch {} events).record,
        record.activationStarted = true ∨ record.proxy.cutoverStarted = some true) →
      cancel later (run watch {} events).record = (.no, (run watch {} events).record)) ∧
    ((run watch {} events).activated = true → ∀ later,
      cancel later (run watch {} events).record = (.no, (run watch {} events).record)) ∧
    (∀ operation, (installReady operation (run watch {} events).record).1 = .yes ∨
        (beginActivation operation (run watch {} events).record).1 = .yes ∨
        (beginSwitch operation (run watch {} events).record).1 = .yes →
      (run watch {} events).cancelled = false) ∧
    (∀ record ∈ (run watch {} events).record, ∀ event operation,
      event.operation = some operation → operation ≠ record.operationId →
      step (some record) event = some record) ∧
    ∀ record ∈ (run watch {} events).record, ∀ operation result replay,
      older result record.proxy = true →
      step (some record) (.proxyResult operation result replay) = some record := by
  have hkept := kept_run events
  refine ⟨fun record hrecord h => ?_, fun later h => ?_, fun h later => ?_,
    fun operation => not_cancelled_of_yes hkept, fun record _ event operation =>
    step_of_operation_ne, fun record _ operation result replay h =>
    congrArg Prod.snd (proxyResult_of_older h)⟩
  · have hsound := hkept.sound record hrecord
    exact ⟨hsound.component (hsound.complete h).1, (hsound.complete h).2⟩
  · obtain ⟨record, hrecord, hstarted⟩ := h
    exact cancel_refused later fun other hother => by simp_all
  · exact cancel_refused later fun record hrecord => .inl (hkept.activated h record hrecord)

/-- A final result of the proxy ends the cancel, and the update is installed after it; a
result of the time 0 counts as one without a time and replaces a later one. -/
theorem cancelled_then_installed :
    replies (none : Option (Record Nat Nat))
        [.begin_ 1 .app "2" none false none, .cancel false,
          .proxyResult 1 { phase := some .cancelled } false, .installReady 1] =
      [.yes, .yes, .yes, .yes] ∧
    (run step (none : Option (Record Nat Nat))
        [.begin_ 1 .app "2" none false none,
          .proxyResult 1 { phase := some .queued, updatedAt := some 5 } false,
          .proxyResult 1 { phase := some .failed, updatedAt := some 0 } false]).map (·.phase) =
      some .failed := by
  decide +kernel

end Codexon.UpdateState
