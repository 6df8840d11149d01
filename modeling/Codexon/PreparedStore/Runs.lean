import Codexon.PreparedStore.Publishing

/-!
# Codexon.PreparedStore.Runs

Every call keeps the abstract store, and so does a run of calls in any order: what
readers and staged reads get is what the abstract store has.
-/

namespace Codexon.PreparedStore

open List

variable {ω ι ν : Type} [DecidableEq ω]

/-! ## reading -/

theorem Shows.read [DecidableEq ι] [DecidableEq ν] {s : State ω ι ν} (hsound : Sound s)
    {marker : Option Nat} {facts : Facts ω ι ν} (h : Shows s marker facts) :
    read s marker = facts := by
  funext key kind identity
  unfold PreparedStore.read
  cases howner : s.owners.get? key with
  | none => exact (h.2 key howner kind identity).symm
  | some owner =>
    have hreads := h.1 key owner howner kind identity
    dsimp only
    cases hrow : s.rows.find? fun row => row.key = ⟨kind, owner, identity⟩ ∧
        Version.Latest (Visible s marker) s.rows row with
    | none =>
      rw [List.find?_eq_none] at hrow
      ext value
      rw [← hreads value]
      simp only [Option.bind_none, reduceCtorEq, false_iff]
      rintro ⟨row, hlatest, hkey, -⟩
      exact hrow row hlatest.1 (by simpa using ⟨hkey, hlatest⟩)
    | some row =>
      have hfound := find?_some hrow
      rw [decide_eq_true_eq] at hfound
      have hvalue := hfound.2.readsAs hsound.single
      rw [hfound.1] at hvalue
      rw [Option.bind_some]
      exact hvalue.unique hreads

/-! ## calls -/

section

variable [LinearOrder ι] [DecidableEq ν] {σ : Type} [DecidableEq σ] {sign : ν → σ}

/-- What the callers keep to: an upsert lists an identity at most once, and a page has room. -/
def Event.Proper : Event ω ι ν → Prop
  | .upsert _ _ items => (items.map Prod.fst).Nodup
  | .finishReconcile limit _ _ => 0 < limit
  | _ => True

/-- **A call** does to the tables what it does to the abstract store. -/
theorem refines_perform (hsign : Function.Injective sign) {s s' : State ω ι ν} {spec : Spec ω ι ν}
    (h : Refines s spec) {event : Event ω ι ν} (hproper : event.Proper)
    (hperform : perform sign s event = some s') : Refines s' (spec.step event) := by
  cases event with
  | begin_ => exact refines_begin h hperform
  | declareOwner key replace => exact refines_declareOwner h hperform
  | startReconcile kind key => exact refines_startReconcile h hperform
  | upsert kind key items => exact refines_upsert hsign h hproper hperform
  | delete kind key keys => exact refines_delete h hperform
  | finishReconcile limit kind key => exact refines_finishReconcile hproper h hperform
  | markRemoved key => exact refines_markRemoved h hperform
  | publish => exact refines_publish h hperform
  | abort => exact refines_abort h hperform
  | reopen =>
    cases hperform
    exact refines_reopen h
  | fail =>
    cases hperform
    have hspec : spec.step (.fail : Event ω ι ν) = spec := by simp [Spec.step, StageSpec.step]
    rw [hspec]
    exact refines_fail h
  | acknowledge owners =>
    cases hperform
    have hspec : spec.step (.acknowledge owners) = spec := by simp [Spec.step, StageSpec.step]
    rw [hspec]
    exact refines_acknowledge h owners
  | others batches pins pruned =>
    cases hperform
    have hspec : spec.step (.others batches pins pruned) = spec := by
      simp [Spec.step, StageSpec.step]
    rw [hspec]
    exact refines_prunePublications
      (h.unread s.heads s.ownerRetired s.ledgerPending batches pins) pruned
  | maintain rows plan work =>
    cases hperform
    have hspec : spec.step (.maintain rows plan work) = spec := by
      simp [Spec.step, StageSpec.step]
    rw [hspec]
    exact refines_maintain h rows plan work

/-- The store and what it stands for, call by call. -/
def stepBoth (sign : ν → σ) (both : State ω ι ν × Spec ω ι ν) (event : Event ω ι ν) :
    State ω ι ν × Spec ω ι ν :=
  (step sign both.1 event,
    if (perform sign both.1 event).isSome then both.2.step event else both.2)

theorem refines_step (hsign : Function.Injective sign) {both : State ω ι ν × Spec ω ι ν}
    (h : Refines both.1 both.2) {event : Event ω ι ν} (hproper : event.Proper) :
    Refines (stepBoth sign both event).1 (stepBoth sign both event).2 := by
  simp only [stepBoth, step]
  cases hperform : perform sign both.1 event with
  | none =>
    simp only [Option.getD_none, Option.isSome_none, Bool.false_eq_true, if_false, raised]
    split
    · exact refines_fail h
    · exact h
  | some s' => exact refines_perform hsign h hproper hperform

theorem refines_run (hsign : Function.Injective sign) {events : List (Event ω ι ν)}
    (hproper : ∀ event ∈ events, event.Proper) (both : State ω ι ν × Spec ω ι ν)
    (h : Refines both.1 both.2) :
    Refines (run (stepBoth sign) both events).1 (run (stepBoth sign) both events).2 := by
  induction events generalizing both with
  | nil => exact h
  | cons event events ih =>
    rw [run_cons]
    exact ih (fun other hother => hproper other (mem_cons_of_mem event hother)) _
      (refines_step hsign h (hproper event mem_cons_self))

theorem run_stepBoth_fst (both : State ω ι ν × Spec ω ι ν) (events : List (Event ω ι ν)) :
    (run (stepBoth sign) both events).1 = run (step sign) both.1 events := by
  induction events generalizing both with
  | nil => rfl
  | cons event events ih => exact ih _

end

end Codexon.PreparedStore
