import Mathlib.Data.List.Nodup
import Mathlib.Data.List.Perm.Basic
import Codexon.EvidenceWriter

/-!
# Codexon.EvidenceWriter.Accounting

No observation disappears: along every run whose failures `run` has handlers
for, the records passed to `write` are those in the hands of a `write` call,
the queue, the writer thread, the store or `lost`, each once
(`Accounted.custody`), and a pending or stored gap covers each lost one
(`Accounted.covered`).

The writer's steps are first sorted by what they do to records and gaps
(`Move`), so that each invariant is checked on seven moves.
-/

namespace Codexon.EvidenceWriter

open List

variable {ρ τ : Type}

/-! ## the moves of the writer thread -/

def Place.cleared? : Place ρ τ → Option (τ × τ)
  | .clearing gap _ => some gap
  | _ => none

@[simp] theorem copy?_received (copy : Copy ρ τ) : (Place.received copy).copy? = some copy := rfl

@[simp] theorem copy?_returned (caller : Caller ρ τ) : (returned caller).copy? = caller.copy? := by
  cases caller <;> rfl

@[simp] theorem cleared?_returned (caller : Caller ρ τ) : (returned caller).cleared? = none := by
  cases caller <;> rfl

/-- What a step of the writer thread does to the records and the gaps. -/
inductive Move [LinearOrder τ] (s : State ρ τ) : State ρ τ → Prop
  | walk (place : Place ρ τ) (errors streak preparing : Nat) (store : Bool)
      (hplace : place.copy? = s.writer.copy?) (hgap : place.cleared? = none) :
      Move s { s with
        errors := errors, failureStreak := streak, preparing := preparing, store := store
        writer := place }
  | take (copy : Copy ρ τ) (rest : List (Item ρ τ)) (hwriter : s.writer.copy? = none)
      (hqueue : s.queue = .record copy :: rest) :
      Move s { s with queue := rest, writer := .received copy }
  | skip (item : Item ρ τ) (rest : List (Item ρ τ)) (place : Place ρ τ)
      (hwriter : s.writer.copy? = none) (hqueue : s.queue = item :: rest)
      (hitem : item.copy? = none) (hplace : place.copy? = none) (hgap : place.cleared? = none) :
      Move s { s with queue := rest, writer := place }
  | saveGap (gap : τ × τ) (caller : Caller ρ τ) (hwriter : s.writer = .gapping gap caller) :
      Move s { s with gaps := s.gaps ++ [gap], writer := .clearing gap caller }
  | clearGap (gap : τ × τ) (caller : Caller ρ τ) (hwriter : s.writer = .clearing gap caller) :
      Move s { s with
        pendingGap := if s.pendingGap = some gap then none else s.pendingGap
        writer := returned caller }
  | save (copy : Copy ρ τ) (hwriter : s.writer = .writing copy) :
      Move s { s with
        stored := s.stored ++ [copy], written := s.written + 1, failureStreak := 0
        writer := .head }
  | lose (copy : Copy ρ τ) (now later : τ) (hwriter : s.writer = .losing copy) :
      Move s { lost copy now later s with writer := .head }

variable {s : State ρ τ}

theorem Move.stay [LinearOrder τ] {place : Place ρ τ}
    (hplace : place.copy? = s.writer.copy?) (hgap : place.cleared? = none) :
    Move s { s with writer := place } :=
  .walk place s.errors s.failureStreak s.preparing s.store hplace hgap

theorem move_raised [LinearOrder τ] {error : Error} (caller : Caller ρ τ) (herror : error ≠ .other)
    (hwriter : s.writer.copy? = caller.copy?) : Move s (raised error caller s) := by
  cases caller with
  | idle =>
    apply Move.stay
    · rw [hwriter]
      cases error <;> rfl
    · cases error <;> rfl
  | record copy =>
    have hcaught : error.caught = true := by cases error <;> simp_all [Error.caught]
    simp only [raised, hcaught, if_true]
    exact .walk _ _ _ _ _ hwriter.symm rfl
  | last => exact .walk _ _ _ _ _ hwriter.symm rfl

theorem move_writerStep [LinearOrder τ] {outcome : Outcome} (now later : τ) (s : State ρ τ)
    (houtcome : outcome ≠ .raises .other) : Move s (writerStep outcome now later s) := by
  cases hw : s.writer with
  | head | idle =>
    simp only [writerStep, hw]
    split
    · exact .stay (by rw [hw]; rfl) rfl
    · exact .stay (by rw [hw]; rfl) rfl
  | draining =>
    simp only [writerStep, hw]
    split
    · split
      · exact .stay (by rw [hw]; rfl) rfl
      · exact .stay (by rw [hw]; rfl) rfl
    · exact .stay (by rw [hw]; rfl) rfl
  | timeout =>
    simp only [writerStep, hw]
    exact .stay (by rw [hw]; rfl) rfl
  | waiting timed =>
    have hnone : s.writer.copy? = none := by rw [hw]; rfl
    simp only [writerStep, hw]
    split
    · exact .take _ _ hnone ‹_›
    · exact .skip _ _ _ hnone ‹_› rfl rfl rfl
    · exact .skip _ _ _ hnone ‹_› rfl rfl rfl
    · split
      · exact .stay hnone.symm rfl
      · exact .stay rfl (by rw [hw]; rfl)
  | preparing =>
    have hnone : s.writer.copy? = none := by rw [hw]; rfl
    simp only [writerStep, hw]
    split
    · exact .walk _ _ _ _ _ hnone.symm rfl
    · split
      · exact .walk _ _ _ _ _ hnone.symm rfl
      · split
        · exact .walk _ _ _ _ _ hnone.symm rfl
        · exact .walk _ _ _ _ _ hnone.symm rfl
  | received copy =>
    have hcopy : s.writer.copy? = some copy := by rw [hw]; rfl
    simp only [writerStep, hw]
    split
    · exact .stay hcopy.symm rfl
    · split
      · exact .walk _ _ _ _ _ hcopy.symm rfl
      · exact move_raised _ (by simp_all) hcopy
  | flushing caller =>
    have hcopy : s.writer.copy? = caller.copy? := by rw [hw]; rfl
    simp only [writerStep, hw]
    split
    · exact .stay (by rw [copy?_returned, hcopy]) (cleared?_returned caller)
    · exact .stay hcopy.symm rfl
  | gapping gap caller =>
    simp only [writerStep, hw]
    split
    · exact .saveGap gap caller hw
    · exact move_raised _ (by simp_all) (by rw [hw]; rfl)
  | clearing gap caller =>
    simp only [writerStep, hw]
    exact .clearGap gap caller hw
  | writing copy =>
    simp only [writerStep, hw]
    split
    · exact .save copy hw
    · exact move_raised _ (by simp_all) (by rw [hw]; rfl)
  | losing copy =>
    simp only [writerStep, hw]
    exact .lose copy now later hw
  | finished =>
    simp only [writerStep, hw]
    exact .stay rfl (by rw [hw]; rfl)

/-! ## custody -/

@[simp] theorem copies_record (copy : Copy ρ τ) (rest : List (Item ρ τ)) :
    (Item.record copy :: rest).filterMap Item.copy? = copy :: rest.filterMap Item.copy? := rfl

@[simp] theorem copies_sentinel (rest : List (Item ρ τ)) :
    (Item.sentinel :: rest).filterMap Item.copy? = rest.filterMap Item.copy? := rfl

@[simp] theorem copies_preparation (rest : List (Item ρ τ)) :
    (Item.preparation :: rest).filterMap Item.copy? = rest.filterMap Item.copy? := rfl

theorem State.count_custody [DecidableEq (Copy ρ τ)] (s : State ρ τ) (a : Copy ρ τ) :
    s.custody.count a = s.entered.count a + s.admitted.count a + s.refused.count a
      + (s.queue.filterMap Item.copy?).count a + s.writer.copy?.toList.count a
      + s.stored.count a + (s.lost.map Loss.copy).count a := by
  simp [State.custody, State.offered, State.queued, State.beingWritten, State.missing]
  omega

variable {s' : State ρ τ}

theorem Move.custody [LinearOrder τ] (h : Move s s') : s'.custody.Perm s.custody := by
  classical
  rw [perm_iff_count]
  intro a
  rw [State.count_custody, State.count_custody]
  cases h with
  | walk place errors streak preparing store hplace hgap => simp [hplace]
  | take copy rest hwriter hqueue =>
    simp [hwriter, hqueue, count_cons]
    omega
  | skip item rest place hwriter hqueue hitem hplace hgap => simp [hwriter, hqueue, hitem, hplace]
  | saveGap gap caller hwriter => simp [hwriter, Place.copy?]
  | clearGap gap caller hwriter =>
    simp only [hwriter, copy?_returned]
    rfl
  | save copy hwriter =>
    simp [hwriter, Place.copy?]
    omega
  | lose copy now later hwriter =>
    simp [hwriter, lost, Place.copy?]
    omega

theorem count_eraseIdx [DecidableEq (Copy ρ τ)] {copies : List (Copy ρ τ)} {index : Nat}
    {copy : Copy ρ τ} (h : copies[index]? = some copy) (a : Copy ρ τ) :
    copies.count a = (copies.eraseIdx index).count a + [copy].count a := by
  obtain ⟨hindex, rfl⟩ := List.getElem?_eq_some_iff.mp h
  have hperm := List.getElem_cons_eraseIdx_perm hindex
  rw [← hperm.count_eq a]
  simp [count_cons]

theorem Move.passed [LinearOrder τ] (h : Move s s') : s'.passed = s.passed := by
  cases h <;> rfl

variable {event : Event ρ τ}

theorem custody_step [LinearOrder τ] (capacity : Nat)
    (h : s.custody.Perm s.passed) (hevent : Handled event) :
    (step capacity s event).custody.Perm (step capacity s event).passed := by
  classical
  cases event with
  | writer outcome now later =>
    have houtcome : outcome ≠ .raises .other := by
      rintro rfl
      exact hevent
    have hmove := move_writerStep now later s houtcome
    simp only [step]
    rw [hmove.passed]
    exact hmove.custody.trans h
  | call record =>
    rw [perm_iff_count] at h ⊢
    intro a
    have hcount := h a
    rw [State.count_custody] at hcount ⊢
    simp [step, count_cons]
    omega
  | readClosed index =>
    simp only [step]
    split
    · exact h
    · rename_i copy hcopy
      rw [perm_iff_count] at h ⊢
      intro a
      have hcount := h a
      have herase := count_eraseIdx hcopy a
      rw [State.count_custody] at hcount ⊢
      split
      · simp [count_cons] at herase ⊢
        omega
      · simp [count_cons] at herase ⊢
        omega
  | put index =>
    simp only [step]
    split
    · exact h
    · rename_i copy hcopy
      rw [perm_iff_count] at h ⊢
      intro a
      have hcount := h a
      have herase := count_eraseIdx hcopy a
      rw [State.count_custody] at hcount ⊢
      split
      · simp [count_cons] at herase ⊢
        omega
      · simp [count_cons] at herase ⊢
        omega
  | lose index now later =>
    simp only [step]
    split
    · exact h
    · rename_i copy hcopy
      rw [perm_iff_count] at h ⊢
      intro a
      have hcount := h a
      have herase := count_eraseIdx hcopy a
      rw [State.count_custody] at hcount ⊢
      simp [lost, count_cons] at herase ⊢
      omega
  | prepare =>
    simp only [step]
    split
    · exact h
    · simpa [State.custody, State.offered, State.queued, State.beingWritten, State.missing] using h
  | signal =>
    simp only [step]
    split
    · split
      · exact h
      · simpa [State.custody, State.offered, State.queued, State.beingWritten, State.missing]
          using h
    · exact h
  | close =>
    simp only [step]
    split
    · split <;> exact h
    · split <;> exact h
    · exact h
  | stop | join | answer =>
    simp only [step]
    split <;> exact h

/-! ## gaps -/

variable [LinearOrder τ]

theorem Covered.mono {loss : Loss ρ τ} (h : Covered s loss)
    (hpending : ∀ gap, s.pendingGap = some gap →
      ∃ gap', (s'.pendingGap = some gap' ∨ gap' ∈ s'.gaps) ∧ gap'.1 ≤ gap.1 ∧ gap.2 ≤ gap'.2)
    (hgaps : ∀ gap ∈ s.gaps, gap ∈ s'.gaps) : Covered s' loss := by
  obtain ⟨gap, hgap | hgap, hstart, hstop⟩ := h
  · obtain ⟨gap', hgap', hstart', hstop'⟩ := hpending gap hgap
    exact ⟨gap', hgap', hstart'.trans hstart, hstop.trans hstop'⟩
  · exact ⟨gap, .inr (hgaps gap hgap), hstart, hstop⟩

theorem covered_lost (copy : Copy ρ τ) (now later : τ) (h : ∀ loss ∈ s.lost, Covered s loss) :
    ∀ loss ∈ (lost copy now later s).lost, Covered (lost copy now later s) loss := by
  intro loss hloss
  simp only [lost, mem_append, mem_singleton] at hloss
  cases hpending : s.pendingGap with
  | none =>
    cases hloss with
    | inl hold => exact (h loss hold).mono (by simp [hpending]) (by simp [lost])
    | inr hnew => exact ⟨_, .inl (by simp [lost, hpending]; rfl), by simp [hnew], by simp [hnew]⟩
  | some gap =>
    have hwide : (lost copy now later s).pendingGap =
        some (min (Loss.mk copy now later).start gap.1, max later gap.2) := by
      simp [lost, hpending]
    cases hloss with
    | inl hold =>
      refine (h loss hold).mono (fun gap' hgap' => ?_) (by simp [lost])
      rw [hpending, Option.some.injEq] at hgap'
      subst hgap'
      exact ⟨_, .inl hwide, by simp, by simp⟩
    | inr hnew => exact ⟨_, .inl hwide, by simp [hnew], by simp [hnew]⟩

/-- The gaps of the moves: `flush_gap` clears a gap only when it is stored. -/
theorem Move.covered (h : Move s s') (hcovered : ∀ loss ∈ s.lost, Covered s loss)
    (hsaved : ∀ gap, s.writer.cleared? = some gap → gap ∈ s.gaps) :
    (∀ loss ∈ s'.lost, Covered s' loss) ∧ ∀ gap, s'.writer.cleared? = some gap → gap ∈ s'.gaps := by
  cases h with
  | walk place errors streak preparing store hplace hgap =>
    exact ⟨hcovered, by simp [hgap]⟩
  | take copy rest hwriter hqueue => exact ⟨hcovered, by simp [Place.cleared?]⟩
  | skip item rest place hwriter hqueue hitem hplace hgap => exact ⟨hcovered, by simp [hgap]⟩
  | save copy hwriter => exact ⟨hcovered, by simp [Place.cleared?]⟩
  | lose copy now later hwriter =>
    exact ⟨covered_lost copy now later hcovered, by simp [Place.cleared?]⟩
  | saveGap gap caller hwriter =>
    constructor
    · intro loss hloss
      exact (hcovered loss hloss).mono (fun gap' h => ⟨gap', .inl h, le_rfl, le_rfl⟩)
        (by simp +contextual)
    · simp [Place.cleared?]
  | clearGap gap caller hwriter =>
    have hgap : gap ∈ s.gaps := hsaved gap (by rw [hwriter]; rfl)
    constructor
    · intro loss hloss
      refine (hcovered loss hloss).mono (fun gap' hgap' => ?_) (fun _ h => h)
      -- a gap that was widened since `flush_gap` read it stays pending
      by_cases heq : gap' = gap
      · exact ⟨gap, .inr hgap, by simp [heq], by simp [heq]⟩
      · exact ⟨gap', .inl (by simp [hgap', heq]), le_rfl, le_rfl⟩
    · simp

/-! ## runs -/

/-- What a run keeps of the records and the gaps. -/
structure Accounted (s : State ρ τ) : Prop where
  custody : s.custody.Perm s.passed
  numbered : s.passed.map Copy.call = List.range s.passed.length
  covered : ∀ loss ∈ s.lost, Covered s loss
  saved : ∀ gap, s.writer.cleared? = some gap → gap ∈ s.gaps

theorem accounted_init : Accounted ({} : State ρ τ) where
  custody := .refl _
  numbered := rfl
  covered _ h := nomatch h
  saved _ h := nomatch h

theorem numbered_step (capacity : Nat)
    (h : s.passed.map Copy.call = List.range s.passed.length) (hevent : Handled event) :
    (step capacity s event).passed.map Copy.call =
      List.range (step capacity s event).passed.length := by
  cases event with
  | call record => simp [step, h, range_succ]
  | writer outcome now later =>
    have houtcome : outcome ≠ .raises .other := by
      rintro rfl
      exact hevent
    have hpassed := (move_writerStep now later s houtcome).passed
    simp only [step]
    rw [hpassed]
    exact h
  | lose index now later | prepare | stop | join | answer => simp only [step]; split <;> exact h
  | readClosed index | put index | close | signal =>
    simp only [step]
    split <;> (try split) <;> exact h

/-- The other threads leave the gaps alone, but for `lost`. -/
theorem gaps_step (capacity : Nat) (s : State ρ τ) (event : Event ρ τ)
    (hwriter : ∀ outcome now later, event ≠ .writer outcome now later)
    (hlose : ∀ index now later, event ≠ .lose index now later) :
    (step capacity s event).pendingGap = s.pendingGap ∧
      (step capacity s event).gaps = s.gaps ∧ (step capacity s event).lost = s.lost ∧
      (step capacity s event).writer = s.writer := by
  cases event with
  | writer outcome now later => exact absurd rfl (hwriter outcome now later)
  | lose index now later => exact absurd rfl (hlose index now later)
  | call record => simp [step]
  | prepare | stop | join | answer => simp only [step]; split <;> simp
  | readClosed index | put index | close | signal =>
    simp only [step]
    split <;> (try split) <;> simp

theorem accounted_step (capacity : Nat)
    (h : Accounted s) (hevent : Handled event) : Accounted (step capacity s event) := by
  have hcustody := custody_step capacity h.custody hevent
  have hnumbered := numbered_step capacity h.numbered hevent
  have hquiet := gaps_step capacity s event
  cases event with
  | writer outcome now later =>
    have houtcome : outcome ≠ .raises .other := by
      rintro rfl
      exact hevent
    have hgaps := (move_writerStep now later s houtcome).covered h.covered h.saved
    exact ⟨hcustody, hnumbered, hgaps.1, hgaps.2⟩
  | lose index now later =>
    constructor
    · exact hcustody
    · exact hnumbered
    · simp only [step]
      split
      · exact h.covered
      · exact covered_lost _ now later h.covered
    · simp only [step]
      split
      · exact h.saved
      · exact h.saved
  | call | readClosed | put | prepare | close | stop | signal | join | answer =>
    obtain ⟨hpending, hgaps, hlost, hplace⟩ := hquiet (by simp) (by simp)
    constructor
    · exact hcustody
    · exact hnumbered
    · rw [hlost]
      intro loss hloss
      exact (h.covered loss hloss).mono (fun gap hgap => ⟨gap, by simp [hpending, hgap]⟩)
        (by simp [hgaps])
    · rw [hplace, hgaps]
      exact h.saved

theorem accounted_run (capacity : Nat) (events : List (Event ρ τ))
    (hevents : ∀ event ∈ events, Handled event) : Accounted (run (step capacity) {} events) :=
  run_inv_along (I := Accounted) (fun _ _ h hevent => accounted_step capacity h hevent)
    accounted_init (along_of_forall hevents)

theorem Accounted.once [DecidableEq (Copy ρ τ)] (h : Accounted s)
    {copy : Copy ρ τ} (hcopy : copy ∈ s.passed) : s.custody.count copy = 1 := by
  rw [h.custody.count_eq]
  have hnodup : s.passed.Nodup := by
    have hcalls : (s.passed.map Copy.call).Nodup := by
      rw [h.numbered]
      exact nodup_range
    exact hcalls.of_map
  exact count_eq_one_of_mem hnodup hcopy

end Codexon.EvidenceWriter
