import Codexon.EvidenceWriter.Accounting

/-!
# Codexon.EvidenceWriter.Closing

What `close` answers.  The writer thread leaves its loop only when it has seen
the queue empty after `stopping` was set, and no `write` call is in progress
then; a failure that ends the thread earlier leaves a gap pending.

`Standing` says this at each place of the writer thread, and `Orderly` keeps it
along every run where `close` comes after the last `write`.
-/

namespace Codexon.EvidenceWriter

variable {ρ τ : Type}

/-- `close` has begun and no record is queued. -/
def Drained (s : State ρ τ) : Prop := s.closed = true ∧ s.queued = []

def Standing (s : State ρ τ) : Place ρ τ → Prop
  | .draining => s.stopping = true
  | .flushing .last | .gapping _ .last | .clearing _ .last => Drained s
  | .gapping _ .idle => s.pendingGap ≠ none
  | .finished => Drained s ∨ s.pendingGap ≠ none
  | _ => True

/-- What a run keeps of the flags and the threads. -/
structure Orderly (s : State ρ τ) : Prop where
  stopping : s.stopping = true → s.closed = true
  quiet : s.closed = true → s.offered = []
  begun : s.closing ≠ .idle → s.closed = true
  standing : Standing s s.writer
  joined : s.closing = .joined false → s.writer = .finished
  answered : s.closing = .answered true → s.writer = .finished ∧ s.pendingGap = none

theorem orderly_init : Orderly ({} : State ρ τ) where
  stopping h := nomatch h
  quiet h := nomatch h
  begun h := absurd rfl h
  standing := trivial
  joined h := nomatch h
  answered h := nomatch h

variable {s : State ρ τ}

theorem Standing.mono {s' : State ρ τ} {place : Place ρ τ} (h : Standing s place)
    (hstopping : s.stopping = true → s'.stopping = true) (hdrained : Drained s → Drained s')
    (hpending : s.pendingGap ≠ none → s'.pendingGap ≠ none) : Standing s' place := by
  unfold Standing at h ⊢
  split at h <;> simp_all
  exact h.imp hdrained hpending

theorem standing_returned (caller : Caller ρ τ)
    (hlast : caller = .last → Drained s) : Standing s (returned caller) := by
  cases caller with
  | idle | record copy => trivial
  | last => exact .inl (hlast rfl)

theorem standing_raised {error : Error} (caller : Caller ρ τ)
    (herror : error ≠ .other) (hidle : caller = .idle → s.pendingGap ≠ none)
    (hlast : caller = .last → Drained s) :
    Standing (raised error caller s) (raised error caller s).writer := by
  cases caller with
  | idle =>
    simp only [raised]
    split
    · trivial
    · exact .inr (hidle rfl)
  | record copy =>
    have hcaught : error.caught = true := by cases error <;> simp_all [Error.caught]
    simp [raised, hcaught, Standing]
  | last => exact .inl (hlast rfl)

theorem orderly_open {s' : State ρ τ} (h : Orderly s) (hopen : s.closed = false)
    (hclosed : s'.closed = s.closed) (hstopping : s'.stopping = s.stopping)
    (hclosing : s'.closing = s.closing) (hwriter : s'.writer = s.writer)
    (hpending : s.pendingGap ≠ none → s'.pendingGap ≠ none) : Orderly s' := by
  have hidle : s.closing = .idle := by
    by_contra hbegun
    simp [h.begun hbegun] at hopen
  constructor
  · rw [hclosed, hstopping]
    exact h.stopping
  · simp [hclosed, hopen]
  · simp [hclosing, hidle]
  · rw [hwriter]
    exact h.standing.mono (by simp [hstopping]) (by simp [Drained, hopen]) hpending
  · simp [hclosing, hidle]
  · simp [hclosing, hidle]

theorem Orderly.none_offered (h : Orderly s) (hclosed : s.closed = true) :
    s.entered = [] ∧ s.admitted = [] ∧ s.refused = [] := by
  have hoffered := h.quiet hclosed
  simp only [State.offered, List.append_eq_nil_iff] at hoffered
  exact ⟨hoffered.1.1, hoffered.1.2, hoffered.2⟩

theorem orderly_enqueue (h : Orderly s) (item : Item ρ τ)
    (hitem : item.copy? = none) (preparing : Nat) :
    Orderly { s with queue := s.queue ++ [item], preparing := preparing } := by
  constructor
  · exact h.stopping
  · exact h.quiet
  · exact h.begun
  · apply h.standing.mono
    · exact fun hstopping => hstopping
    · simp [Drained, State.queued, hitem]
    · exact fun hpending => hpending
  · exact h.joined
  · exact h.answered

theorem orderly_closing (h : Orderly s) (closing : Closing)
    (hclosed : s.closed = true) (hjoined : closing = .joined false → s.writer = .finished)
    (hanswered : closing = .answered true → s.writer = .finished ∧ s.pendingGap = none) :
    Orderly { s with closing := closing } where
  stopping := h.stopping
  quiet := h.quiet
  begun _ := hclosed
  standing := h.standing.mono (fun h => h) (fun h => h) (fun h => h)
  joined := hjoined
  answered := hanswered

theorem Orderly.drained (h : Orderly s) (hanswered : s.closing = .answered true) :
    s.offered = [] ∧ s.queued = [] ∧ s.beingWritten = [] ∧ s.pendingGap = none := by
  obtain ⟨hw, hpending⟩ := h.answered hanswered
  have hstanding := h.standing
  rw [hw] at hstanding
  have hdrained := hstanding.resolve_right (by simp [hpending])
  exact ⟨h.quiet hdrained.1, hdrained.2, by simp [State.beingWritten, hw, Place.copy?], hpending⟩

variable [LinearOrder τ]

theorem pendingGap_lost (copy : Copy ρ τ) (now later : τ) (s : State ρ τ) :
    (lost copy now later s).pendingGap ≠ none := by
  simp only [lost]
  split <;> simp

theorem standing_writerStep {outcome : Outcome} (now later : τ)
    (houtcome : outcome ≠ .raises .other) (h : Orderly s) :
    Standing (writerStep outcome now later s) (writerStep outcome now later s).writer := by
  have hstanding := h.standing
  cases hw : s.writer with
  | head =>
    simp only [writerStep, hw]
    split <;> simp_all [Standing]
  | draining =>
    rw [hw] at hstanding
    simp only [writerStep, hw]
    split
    · have hempty : Drained s := by
        constructor
        · exact h.stopping hstanding
        · simp_all [State.queued]
      split
      · exact hempty
      · exact .inl hempty
    · trivial
  | timeout => simp [writerStep, hw, Standing]
  | waiting timed =>
    simp only [writerStep, hw]
    split
    · trivial
    · trivial
    · trivial
    · split
      · trivial
      · simp [hw, Standing]
  | idle =>
    simp only [writerStep, hw]
    split <;> trivial
  | preparing =>
    simp only [writerStep, hw]
    split
    · trivial
    · split
      · trivial
      · split
        · trivial
        · rename_i error hcaught
          cases error <;> simp_all [Error.caught]
  | received copy =>
    simp only [writerStep, hw]
    split
    · trivial
    · split
      · trivial
      · exact standing_raised (.record copy) (by simp_all) (by simp) (by simp)
  | flushing caller =>
    rw [hw] at hstanding
    simp only [writerStep, hw]
    split
    · apply standing_returned
      rintro rfl
      exact hstanding
    · cases caller with
      | idle => simp_all [Standing]
      | record copy => trivial
      | last => exact hstanding
  | gapping gap caller =>
    rw [hw] at hstanding
    simp only [writerStep, hw]
    split
    · cases caller with
      | idle | record copy => trivial
      | last => exact hstanding
    · apply standing_raised caller (by simp_all)
      · rintro rfl
        exact hstanding
      · rintro rfl
        exact hstanding
  | clearing gap caller =>
    rw [hw] at hstanding
    simp only [writerStep, hw]
    apply standing_returned
    rintro rfl
    exact hstanding
  | writing copy =>
    simp only [writerStep, hw]
    split
    · trivial
    · exact standing_raised (.record copy) (by simp_all) (by simp) (by simp)
  | losing copy =>
    simp only [writerStep, hw]
    trivial
  | finished =>
    rw [hw] at hstanding
    simp only [writerStep, hw]
    exact hstanding

theorem Move.flags {s' : State ρ τ} (h : Move s s') :
    s'.stopping = s.stopping ∧ s'.closed = s.closed ∧ s'.closing = s.closing ∧
      s'.offered = s.offered := by
  cases h <;> exact ⟨rfl, rfl, rfl, rfl⟩

theorem orderly_writerStep {outcome : Outcome} (now later : τ)
    (houtcome : outcome ≠ .raises .other) (h : Orderly s) :
    Orderly (writerStep outcome now later s) := by
  obtain ⟨hstopping, hclosed, hclosing, hoffered⟩ := (move_writerStep now later s houtcome).flags
  have hfinished : s.writer = .finished → writerStep outcome now later s = s := by
    intro hw
    simp [writerStep, hw]
  constructor
  · simpa [hstopping, hclosed] using h.stopping
  · simpa [hclosed, hoffered] using h.quiet
  · simpa [hclosing, hclosed] using h.begun
  · exact standing_writerStep now later houtcome h
  · intro hjoined
    have hw := h.joined (hclosing ▸ hjoined)
    rw [hfinished hw]
    exact hw
  · intro hanswered
    have hw := h.answered (hclosing ▸ hanswered)
    rw [hfinished hw.1]
    exact hw

theorem orderly_step (capacity : Nat) {event : Event ρ τ} (h : Orderly s)
    (hevent : Handled event) (hlast : AfterLastWrite s event) :
    Orderly (step capacity s event) := by
  cases event with
  | writer outcome now later =>
    apply orderly_writerStep now later ?_ h
    rintro rfl
    exact hevent
  | call record => exact orderly_open h hlast rfl rfl rfl rfl (fun h => h)
  | readClosed index =>
    simp only [step]
    split
    · exact h
    · rename_i copy hcopy
      have hopen : s.closed = false := by
        by_contra hclosed
        simp [(h.none_offered (by simpa using hclosed)).1] at hcopy
      split
      · exact orderly_open h hopen rfl rfl rfl rfl (fun h => h)
      · exact orderly_open h hopen rfl rfl rfl rfl (fun h => h)
  | put index =>
    simp only [step]
    split
    · exact h
    · rename_i copy hcopy
      have hopen : s.closed = false := by
        by_contra hclosed
        simp [(h.none_offered (by simpa using hclosed)).2.1] at hcopy
      split
      · exact orderly_open h hopen rfl rfl rfl rfl (fun h => h)
      · exact orderly_open h hopen rfl rfl rfl rfl (fun h => h)
  | lose index now later =>
    simp only [step]
    split
    · exact h
    · rename_i copy hcopy
      have hopen : s.closed = false := by
        by_contra hclosed
        simp [(h.none_offered (by simpa using hclosed)).2.2] at hcopy
      exact orderly_open h hopen rfl rfl rfl rfl (fun _ => pendingGap_lost _ _ _ _)
  | prepare =>
    simp only [step]
    split
    · exact h
    · exact orderly_enqueue h .preparation rfl (s.preparing + 1)
  | close =>
    have hbegin : Orderly (if s.closed = true then { s with closing := Closing.signalled }
        else { s with closed := true, closing := .flagged }) := by
      split
      · exact orderly_closing h .signalled ‹_› (by simp) (by simp)
      · rename_i hopen
        constructor
        · exact fun _ => rfl
        · exact fun _ => hlast
        · exact fun _ => rfl
        · change Standing _ s.writer
          exact h.standing.mono (fun h => h) (fun hdrained => absurd hdrained.1 hopen) (fun h => h)
        · simp
        · simp
    simp only [step]
    split
    · exact hbegin
    · exact hbegin
    · exact h
  | stop =>
    simp only [step]
    split
    · rename_i hflagged
      have hclosed := h.begun (by simp [hflagged])
      constructor
      · exact fun _ => hclosed
      · exact h.quiet
      · exact fun _ => hclosed
      · exact h.standing.mono (fun _ => rfl) (fun h => h) (fun h => h)
      · simp
      · simp
    · exact h
  | signal =>
    simp only [step]
    split
    · rename_i hstopped
      have hclosed := h.begun (by simp [hstopped])
      split
      · exact orderly_closing h .signalled hclosed (by simp) (by simp)
      · exact orderly_closing (orderly_enqueue h .sentinel rfl s.preparing) .signalled hclosed
          (by simp) (by simp)
    · exact h
  | join =>
    simp only [step]
    split
    · rename_i hsignalled
      have hclosed := h.begun (by simp [hsignalled])
      apply orderly_closing h _ hclosed
      · cases hw : s.writer <;> simp [Place.alive]
      · simp
    · exact h
  | answer =>
    simp only [step]
    split
    · rename_i alive hjoined
      have hclosed := h.begun (by simp [hjoined])
      apply orderly_closing h _ hclosed
      · simp
      · cases alive with
        | true => simp
        | false =>
          have hw := h.joined hjoined
          simp [hw]
    · exact h

theorem orderly_run (capacity : Nat) (events : List (Event ρ τ))
    (hevents : ∀ event ∈ events, Handled event)
    (hclose : Along (step capacity) AfterLastWrite {} events) :
    Orderly (run (step capacity) ({} : State ρ τ) events) :=
  run_inv_along (I := Orderly) (fun _ _ h hboth => orderly_step capacity h hboth.1 hboth.2)
    orderly_init (along_and (along_of_forall hevents) hclose)

/-! ## what the writer answers for -/

/-- **No observation disappears**: along every run whose failures `run` has handlers for,
every record passed to `write` is in one place and there once, a pending or stored gap
reaches from the `ts` of each lost record to the clock reading at its loss, and where
`close` answers `True` after the last `write`, no record is queued and no gap is
pending. -/
theorem no_observation_disappears [DecidableEq ρ] (capacity : Nat) (events : List (Event ρ τ))
    (hevents : ∀ event ∈ events, Handled event)
    (hclose : Along (step capacity) AfterLastWrite {} events) :
    let s := run (step capacity) ({} : State ρ τ) events
    (∀ copy ∈ s.passed, s.offered.count copy + s.queued.count copy + s.beingWritten.count copy
        + s.stored.count copy + s.missing.count copy = 1) ∧
    (∀ loss ∈ s.lost, ∃ gap, (s.pendingGap = some gap ∨ gap ∈ s.gaps) ∧
      gap.1 ≤ loss.copy.record.ts.getD loss.now ∧ loss.later ≤ gap.2) ∧
    (s.closing = .answered true → s.queued = [] ∧ s.pendingGap = none) := by
  intro s
  have haccounted : Accounted s := accounted_run capacity events hevents
  have horderly : Orderly s := orderly_run capacity events hevents hclose
  refine ⟨fun copy hcopy => ?_, haccounted.covered, fun hanswered => ?_⟩
  · have honce := haccounted.once hcopy
    simpa [State.custody, Nat.add_assoc] using honce
  · obtain ⟨-, hqueued, -, hpending⟩ := horderly.drained hanswered
    exact ⟨hqueued, hpending⟩

/-- One record is stored and one is lost to a full queue; then `close` answers. -/
def storedAndLost : List (Event Unit Nat) :=
  [.call ⟨some 1, ()⟩, .readClosed 0, .put 0, .call ⟨some 2, ()⟩, .readClosed 0, .put 0,
    .lose 0 3 3] ++ List.replicate 8 (.writer .done 4 4) ++
  [.close, .stop, .writer .done 5 5, .writer .done 5 5, .writer .done 5 5, .signal, .join, .answer]

theorem storedAndLost_accounted :
    let s := run (step 1) {} storedAndLost
    s.stored = [⟨0, ⟨some 1, ()⟩⟩] ∧ s.missing = [⟨1, ⟨some 2, ()⟩⟩] ∧ s.gaps = [(2, 3)] ∧
    s.closing = .answered true ∧
    (∀ copy ∈ s.passed, s.offered.count copy + s.queued.count copy + s.beingWritten.count copy
        + s.stored.count copy + s.missing.count copy = 1) ∧
    (∀ loss ∈ s.lost, ∃ gap, (s.pendingGap = some gap ∨ gap ∈ s.gaps) ∧
      gap.1 ≤ loss.copy.record.ts.getD loss.now ∧ loss.later ≤ gap.2) ∧
    (s.closing = .answered true → s.queued = [] ∧ s.pendingGap = none) := by
  have hevents : ∀ event ∈ storedAndLost, Handled event := by
    simp [storedAndLost, Handled]
  have hclose : Along (step 1) AfterLastWrite {} storedAndLost := by
    decide +kernel
  exact ⟨by decide +kernel, by decide +kernel, by decide +kernel, by decide +kernel,
    no_observation_disappears 1 storedAndLost hevents hclose⟩

/-- A record of a later `ts` than the clock at its loss. -/
def clockBehind : List (Event Unit Nat) :=
  [.call ⟨some 1, ()⟩, .readClosed 0, .put 0, .call ⟨some 10, ()⟩, .readClosed 0, .put 0,
    .lose 0 5 5]

/-- The writer thread ends between `stopping.set()` and the sentinel. -/
def lateSentinel : List (Event Unit Nat) :=
  [.close, .stop, .writer .done 0 0, .writer .done 0 0, .signal, .join, .answer]

/-- The store raises what `run` has no handler for. -/
def unhandledFailure : List (Event Unit Nat) :=
  [.call ⟨some 1, ()⟩, .readClosed 0, .put 0, .writer .done 0 0, .writer .done 0 0,
    .writer .done 0 0, .writer (.raises .other) 0 0, .close, .stop, .signal, .join, .answer]

/-- A lost record may lie outside every gap where the clock ran behind its `ts`, the
sentinel may stay in the queue behind a true answer, and an exception without a handler
takes its record with it. -/
theorem gap_queue_and_handler_limits :
    (∃ loss ∈ (run (step 1) {} clockBehind).lost, loss.copy.record.ts = some 10 ∧
      ∀ gap ∈ (run (step 1) {} clockBehind).pendingGap.toList
        ++ (run (step 1) {} clockBehind).gaps, ¬ (gap.1 ≤ 10 ∧ 10 ≤ gap.2)) ∧
    ((run (step 1) {} lateSentinel).closing = .answered true ∧
      (run (step 1) {} lateSentinel).queue = [.sentinel]) ∧
    ((run (step 1) {} unhandledFailure).closing = .answered true ∧
      (run (step 1) {} unhandledFailure).passed = [⟨0, ⟨some 1, ()⟩⟩] ∧
      (run (step 1) {} unhandledFailure).custody = [] ∧
      (run (step 1) {} unhandledFailure).pendingGap = none ∧
      (run (step 1) {} unhandledFailure).gaps = []) := by
  decide +kernel

end Codexon.EvidenceWriter
