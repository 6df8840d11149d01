import Codexon.TrackingStore

/-!
# Codexon.TrackingStore.Resume

A build that resumes from the checkpoint of an earlier build returns exactly
what a build over the whole history returns, whatever was inserted in between.

The later history splits at the checkpoint's time into the rows and controls
the earlier build consumed and those after it (`insertionSort_split`).  The
replay of the first part is the earlier replay; controls it left pending are
the ones its final `apply_controls` consumed (`replayRows_pending`); and the
cache of the separate-models list, which a resumed loop starts without, only
ever holds what it would compute again (`replayRows_previous`).
-/

namespace Codexon

open List

theorem insertionSort_split {α : Type} {r : α → α → Prop} [DecidableRel r] (low : α → Bool)
    {xs : List α} (h : ∀ a ∈ xs, ∀ b ∈ xs, low a = true → low b = false → r a b ∧ ¬ r b a) :
    xs.insertionSort r =
      (xs.filter low).insertionSort r ++ (xs.filter (!low ·)).insertionSort r := by
  induction xs with
  | nil => rfl
  | cons a xs ih =>
    have hxs := ih fun b hb c hc => h b (mem_cons_of_mem a hb) c (mem_cons_of_mem a hc)
    have hmem {p : α → Bool} {b : α} (hb : b ∈ (xs.filter p).insertionSort r) :
        b ∈ a :: xs ∧ p b = true := by
      have := List.mem_filter.mp ((mem_insertionSort r).mp hb)
      exact ⟨mem_cons_of_mem a this.1, this.2⟩
    rw [insertionSort_cons, hxs]
    cases hlow : low a with
    | true =>
      rw [filter_cons_of_pos hlow, filter_cons_of_neg (by simp [hlow]),
        insertionSort_cons]
      -- `a` stops inside the low part, at the latest before the high one.
      generalize hl : (xs.filter low).insertionSort r = lows
      clear hl
      induction lows with
      | cons b lows ihl =>
        simp only [cons_append, orderedInsert_cons]
        split
        · rfl
        · rw [ihl, cons_append]
      | nil =>
        cases hh : (xs.filter (!low ·)).insertionSort r with
        | nil => rfl
        | cons b highs =>
          have hb := hmem (p := (!low ·)) (b := b) (by rw [hh]; exact mem_cons_self)
          have hab := (h a mem_cons_self b hb.1 hlow (by simpa using hb.2)).1
          simp [hab]
    | false =>
      rw [filter_cons_of_neg (by simp [hlow]), filter_cons_of_pos (by simp [hlow]),
        insertionSort_cons]
      -- Every element of the low part sends `a` further right.
      have hl : ∀ b ∈ (xs.filter low).insertionSort r, ¬ r a b := fun b hb =>
        (h b (hmem hb).1 a mem_cons_self (hmem hb).2 hlow).2
      generalize (xs.filter low).insertionSort r = lows at hl
      induction lows with
      | nil => rfl
      | cons b lows ihl =>
        rw [cons_append, orderedInsert_cons, if_neg (hl b mem_cons_self),
          ihl fun c hc => hl c (mem_cons_of_mem b hc), cons_append]

namespace TrackingStore

/-! ## the separate-models cache -/

def Cached (previous : Option Separate) : Prop :=
  ∀ s ∈ previous, s = separateOf.fresh s.1

variable {previous : Option Separate}

theorem separateOf_eq (h : Cached previous) (separate : List PyStr) :
    separateOf previous separate = separateOf.fresh separate := by
  unfold separateOf
  split
  · next last epoch text =>
    split
    · next heq => subst heq; exact h _ rfl
    · rfl
  · rfl

theorem cached_none : Cached none := by simp [Cached]

theorem cached_fresh (separate : List PyStr) : Cached (some (separateOf.fresh separate)) := by
  intro s hs
  obtain rfl := Option.some.inj hs
  rfl

theorem consume_previous (h : Cached previous) (r : Replay) (row : Row) : r.consume previous row =
      (r.consume none row).map fun p => (p.1, p.2.or previous) := by
  cases hq : row.quota with
  | error e => simp [Replay.consume, hq, bind, Except.bind, Except.map]
  | ok q =>
    simp only [Replay.consume, hq, bind, Except.bind]
    cases hread : q.reading with
    | none => simp [pure, Except.pure, Except.map]
    | some reading =>
      simp only [separateOf_eq h, separateOf_eq cached_none]
      split
      · rfl
      · split <;> rfl

variable {r r' : Replay}

theorem consume_cached {row : Row} {p : Option Separate}
    (h : r.consume none row = .ok (r', p)) : Cached p := by
  cases hq : row.quota with
  | error e => simp [Replay.consume, hq, bind, Except.bind] at h
  | ok q =>
    simp only [Replay.consume, hq, bind, Except.bind] at h
    cases hread : q.reading with
    | none =>
      simp only [hread] at h
      cases h
      exact cached_none
    | some reading =>
      simp only [hread, separateOf_eq cached_none] at h
      split at h
      · cases h; exact cached_fresh _
      · split at h
        · cases h
        · cases h; exact cached_fresh _

theorem replayRows_previous (h : Cached previous) (rows : List Row)
    (controls : List Control) (r : Replay) :
    replayRows rows controls previous r = replayRows rows controls none r := by
  induction rows generalizing previous controls r with
  | nil => rfl
  | cons row rows ih =>
    simp only [replayRows, bind, Except.bind]
    split
    · rfl
    next p _ =>
    rw [consume_previous h]
    cases hcons : p.1.consume none row with
    | error e => rfl
    | ok q =>
      have hq : Cached q.2 := consume_cached hcons
      have hor : Cached (q.2.or previous) := by
        cases hq2 : q.2 with
        | none => simpa using h
        | some s => simpa [hq2] using hq
      simp only [Except.map, ih hor, ih hq]

theorem replayRows_append (xs ys : List Row) (controls : List Control) (r : Replay) :
    replayRows (xs ++ ys) controls none r = (do
      let (r, controls) ← replayRows xs controls none r
      replayRows ys controls none r) := by
  induction xs generalizing controls r with
  | nil => rfl
  | cons row xs ih =>
    simp only [cons_append, replayRows, bind, Except.bind]
    split
    · rfl
    next p _ =>
    cases hcons : p.1.consume none row with
    | error e => rfl
    | ok q =>
      have hq : Cached q.2 := consume_cached hcons
      simp only [replayRows_previous hq]
      exact ih p.2 q.1

/-! ## pending controls -/

variable {until_ : PyFloat}

theorem applyControls_later {later : List Control}
    (h : ∀ c ∈ later, ¬ c.atTime ≤ until_) (controls : List Control) (r : Replay) :
    applyControls until_ (controls ++ later) r =
      (applyControls until_ controls r).map fun p => (p.1, p.2 ++ later) := by
  induction controls generalizing r with
  | nil =>
    cases later with
    | nil => rfl
    | cons c later => simp [applyControls, h c mem_cons_self, Except.map]
  | cons c controls ih =>
    simp only [cons_append, applyControls]
    split
    · cases hr : r.applyControl c with
      | error e => rfl
      | ok r' => exact ih r'
    · rfl

variable {controls : List Control}

variable {left : List Control}

theorem applyControls_suffix
    (h : applyControls until_ controls r = .ok (r', left)) : left <:+ controls := by
  induction controls generalizing r with
  | nil => cases h; exact suffix_refl _
  | cons c controls ih =>
    simp only [applyControls] at h
    split at h
    · cases hr : r.applyControl c with
      | error e => rw [hr] at h; cases h
      | ok r₁ => rw [hr] at h; exact (ih h).trans (suffix_cons c controls)
    · cases h; exact suffix_refl _

variable {t : PyFloat}

theorem applyControls_due {due : List Control}
    (hdue : ∀ c ∈ due, c.atTime ≤ t) (ht : t ≤ until_) (controls : List Control) (r : Replay) :
    applyControls until_ (due ++ controls) r = (do
      let (r, _) ← applyControls t due r
      applyControls until_ controls r) := by
  induction due generalizing r with
  | nil => rfl
  | cons c due ih =>
    have hc := hdue c mem_cons_self
    simp only [cons_append, applyControls, if_pos hc, if_pos (PyFloat.le_trans hc ht), bind_assoc]
    congr 1
    funext r
    exact ih (fun c hc => hdue c (mem_cons_of_mem _ hc)) r

variable {rows : List Row}

theorem replayRows_later {later : List Control}
    (h : ∀ row ∈ rows, ∀ c ∈ later, ¬ c.atTime ≤ row.received) (controls : List Control)
    (r : Replay) : replayRows rows (controls ++ later) none r =
      (replayRows rows controls none r).map fun p => (p.1, p.2 ++ later) := by
  induction rows generalizing controls r with
  | nil => rfl
  | cons row rows ih =>
    have hcut (controls : List Control) (r : Replay) : replayRows (row :: rows) controls none r =
        (do let (r, controls) ← replayRows [row] controls none r
            replayRows rows controls none r) := replayRows_append [row] rows controls r
    rw [hcut, hcut]
    simp only [replayRows, bind_assoc]
    rw [applyControls_later (h row mem_cons_self)]
    cases happ : applyControls row.received controls r with
    | error e => rfl
    | ok p =>
      obtain ⟨r', left⟩ := p
      simp only [Except.map, bind, Except.bind]
      cases hcons : r'.consume none row with
      | error e => rfl
      | ok q => exact ih (fun row hr => h row (mem_cons_of_mem _ hr)) left q.1

theorem replayRows_suffix
    (h : replayRows rows controls previous r = .ok (r', left)) : left <:+ controls := by
  induction rows generalizing controls r previous with
  | nil => cases h; exact suffix_refl _
  | cons row rows ih =>
    simp only [replayRows] at h
    cases happ : applyControls row.received controls r with
    | error e => rw [happ] at h; cases h
    | ok p =>
      obtain ⟨r₁, rest⟩ := p
      rw [happ] at h
      simp only [bind, Except.bind] at h
      cases hcons : r₁.consume previous row with
      | error e => rw [hcons] at h; cases h
      | ok q =>
        rw [hcons] at h
        exact (ih h).trans (applyControls_suffix happ)

variable {now : PyFloat}

/-- **The replay splits at a time**: what precedes it is replayed first, up to
and including its controls. -/
theorem replayUntil_split (ht : t ≤ now) {lo hi : List Row}
    {clo chi : List Control} (hlo : ∀ row ∈ lo, row.received ≤ t)
    (hhi : ∀ row ∈ hi, t < row.received)
    (hclo : ∀ c ∈ clo, c.atTime ≤ t) (hchi : ∀ c ∈ chi, t < c.atTime) (r : Replay) :
    replayUntil now (lo ++ hi) (clo ++ chi) r = (do
      let r ← replayUntil t lo clo r
      replayUntil now hi chi r) := by
  have hlater : ∀ row ∈ lo, ∀ c ∈ chi, ¬ c.atTime ≤ row.received := fun row hrow c hc hle =>
    PyFloat.not_le_of_lt (hchi c hc) (PyFloat.le_trans hle (hlo row hrow))
  simp only [replayUntil, replayRows_append, replayRows_later hlater, bind_assoc]
  cases hrun : replayRows lo clo none r with
  | error e => rfl
  | ok p =>
    obtain ⟨r₁, left⟩ := p
    have hdue : ∀ c ∈ left, c.atTime ≤ t := fun c hc => hclo c ((replayRows_suffix hrun).subset hc)
    simp only [Except.map, bind, Except.bind]
    cases hi with
    | nil =>
      simp only [replayRows]
      rw [applyControls_due hdue ht]
      cases applyControls t left r₁ with
      | error e => rfl
      | ok q => rfl
    | cons row hi =>
      simp only [replayRows]
      rw [applyControls_due hdue (PyFloat.le_of_lt (hhi row mem_cons_self))]
      cases applyControls t left r₁ with
      | error e => rfl
      | ok q => rfl

/-! ## the tracker between rows holds no closed segment -/

theorem finishGroups_closed (h : r.finishGroups = .ok r') : r'.state.closed = [] := by
  simp only [Replay.finishGroups, bind, Except.bind] at h
  split at h
  · cases h
  · cases h; rfl

theorem applyControl_closed {c : Control} (hr : r.state.closed = [])
    (h : r.applyControl c = .ok r') : r'.state.closed = [] := by
  simp only [Replay.applyControl] at h
  split at h
  · cases h; exact hr
  · simp only [bind, Except.bind] at h
    split at h
    · cases h
    next r₁ hr₁ =>
    cases h
    exact (finishGroups_closed hr₁ : r₁.state.closed = [])

theorem applyControls_closed (hr : r.state.closed = [])
    (h : applyControls until_ controls r = .ok (r', left)) : r'.state.closed = [] := by
  induction controls generalizing r with
  | nil => cases h; exact hr
  | cons c controls ih =>
    simp only [applyControls] at h
    split at h
    · simp only [bind, Except.bind] at h
      split at h
      · cases h
      next r₁ hr₁ => exact ih (applyControl_closed hr hr₁) h
    · cases h; exact hr

theorem offer_closed {value : Observation EpochPart} {display : DisplayRow}
    (h : r.offer value display = .ok r') : r'.state.closed = [] := by
  simp only [Replay.offer, bind, Except.bind] at h
  split at h
  · cases h
  split at h
  · split at h
    · cases h
    · exact finishGroups_closed h
  · split at h
    · split at h
      · cases h
      · exact finishGroups_closed h
    · exact finishGroups_closed h

theorem consume_closed {p : Option Separate} {row : Row}
    (hr : r.state.closed = []) (h : r.consume previous row = .ok (r', p)) :
    r'.state.closed = [] := by
  simp only [Replay.consume, bind, Except.bind] at h
  split at h
  · cases h
  split at h
  · cases h; exact hr
  · split at h
    · cases h; exact hr
    · split at h
      · cases h
      next r₁ hr₁ => cases h; exact offer_closed hr₁

theorem replayRows_closed (hr : r.state.closed = [])
    (h : replayRows rows controls previous r = .ok (r', left)) : r'.state.closed = [] := by
  induction rows generalizing controls r previous with
  | nil => cases h; exact hr
  | cons row rows ih =>
    simp only [replayRows, bind, Except.bind] at h
    split at h
    · cases h
    next p hp =>
    split at h
    · cases h
    next q hq => exact ih (consume_closed (applyControls_closed hr hp) hq) h

theorem replayUntil_closed (hr : r.state.closed = [])
    (h : replayUntil now rows controls r = .ok r') : r'.state.closed = [] := by
  simp only [replayUntil, bind, Except.bind] at h
  split at h
  · cases h
  next p hp =>
  split at h
  · cases h
  next q hq =>
  cases h
  exact applyControls_closed (replayRows_closed hr hp) hq

/-! ## builds -/

def changeTime (row : Row) : Option PyFloat :=
  if row.received.IsNum then some row.received else none

/-- `later` is `earlier` after insertions that `changes` reports. -/
structure Inserted (earlier later : Db) (changes : List Change) : Prop where
  config : later.config = earlier.config
  policy : later.policy = earlier.policy
  controls : later.controls = earlier.controls ∨ ∃ c ∈ changes, c.table = py "tracking_controls"
  rows : ∃ new, later.observations = earlier.observations ++ new ∧
    ∀ row ∈ new, ∃ c ∈ changes, c.table = py "tracking_observations" ∧ c.atTime = changeTime row

variable {started : PyFloat}

theorem Inserted.later {earlier later : Db} {changes : List Change}
    (h : Inserted earlier later changes) {cp : Checkpoint} {home : PyStr}
    (husable : cp.usable home started now changes = true) : later.controls = earlier.controls ∧
      ∃ new, later.observations = earlier.observations ++ new ∧
        ∀ row ∈ new, ¬ row.received ≤ cp.atTime := by
  simp only [Checkpoint.usable, Bool.and_eq_true, Bool.not_eq_true', any_eq_false] at husable
  have hstale := husable.2
  refine ⟨?_, ?_⟩
  · rcases h.controls with heq | ⟨c, hc, htable⟩
    · exact heq
    · exact absurd (by simp [Change.stale, htable]) (hstale c hc)
  · obtain ⟨new, hnew, hreport⟩ := h.rows
    refine ⟨new, hnew, fun row hrow hle => ?_⟩
    obtain ⟨c, hc, htable, htime⟩ := hreport row hrow
    refine hstale c hc ?_
    simp [Change.stale, htable, htime, changeTime, hle.1, hle]

theorem sorted_split {α : Type} (time : α → PyFloat) (le : α → α → Bool)
    (hle : ∀ a b, time a < time b → le a b = true ∧ le b a = false) {xs : List α}
    (ht : t ≤ now) (hxs : ∀ a ∈ xs, time a ≤ now) : ∃ hi, xs.insertionSort (le · ·) =
        (xs.filter fun a => decide (time a ≤ t)).insertionSort (le · ·) ++ hi ∧
      ∀ a ∈ hi, t < time a := by
  refine ⟨_, insertionSort_split (fun a => decide (time a ≤ t)) fun a _ b hb hlow hhigh => ?_, ?_⟩
  · have hab : time a ≤ t := of_decide_eq_true hlow
    have htb : t < time b :=
      PyFloat.lt_of_not_le (hxs b hb).1 ht.1 (of_decide_eq_false hhigh)
    have := hle a b ⟨hab.1, htb.2.1, lt_of_le_of_lt hab.2.2 htb.2.2⟩
    simp [this.1, this.2]
  · intro a ha
    obtain ⟨hmem, hhigh⟩ := List.mem_filter.mp ((mem_insertionSort _).mp ha)
    exact PyFloat.lt_of_not_le (hxs a hmem).1 ht.1 (by simpa using hhigh)

theorem rows_split {earlier later : Db} {new : List Row}
    (hrows : later.observations = earlier.observations ++ new) (ht : t ≤ now)
    (hnew : ∀ row ∈ new, ¬ row.received ≤ t) (home : PyStr) (started : PyFloat) :
    ∃ hi, later.rows home started now = earlier.rows home started t ++ hi ∧
      ∀ row ∈ hi, t < row.received := by
  have hxs : ∀ a ∈ later.observations.filter fun r =>
      r.home = home ∧ started ≤ r.requested ∧ r.received ≤ now, a.received ≤ now :=
    fun a ha => (of_decide_eq_true (List.mem_filter.mp ha).2).2.2
  obtain ⟨hi, hsplit, hhi⟩ := sorted_split Row.received Row.le
    (fun a b hab => ⟨by simp [Row.le, hab], by
      simp [Row.le, PyFloat.not_lt_of_le (PyFloat.le_of_lt hab), PyFloat.eq, hab.2.2.ne']⟩)
    ht hxs
  refine ⟨hi, ?_, hhi⟩
  rw [Db.rows, hsplit, Db.rows]
  congr 2
  rw [filter_filter, hrows, filter_append]
  have hnil : new.filter (fun row => decide (row.received ≤ t) && decide (row.home = home ∧
      started ≤ row.requested ∧ row.received ≤ now)) = [] := by
    simp only [filter_eq_nil_iff, Bool.and_eq_true, decide_eq_true_eq]
    exact fun row hrow h => hnew row hrow h.1
  rw [hnil, List.append_nil]
  refine filter_congr fun row _ => ?_
  by_cases hrow : row.received ≤ t
  · simp [hrow, PyFloat.le_trans hrow ht]
  · simp [hrow]

theorem controlRows_split (db : Db) (ht : t ≤ now) (home : PyStr) (started : PyFloat) :
    ∃ hi, db.controlRows home started now = db.controlRows home started t ++ hi ∧
      ∀ c ∈ hi, t < c.atTime := by
  have hxs : ∀ a ∈ db.controls.filter fun c =>
      c.home = home ∧ started ≤ c.atTime ∧ c.atTime ≤ now, a.atTime ≤ now :=
    fun a ha => (of_decide_eq_true (List.mem_filter.mp ha).2).2.2
  obtain ⟨hi, hsplit, hhi⟩ := sorted_split Control.atTime Control.le
    (fun a b hab => ⟨by simpa [Control.le] using PyFloat.le_of_lt hab,
      by simpa [Control.le] using PyFloat.not_le_of_lt hab⟩)
    ht hxs
  refine ⟨hi, ?_, hhi⟩
  rw [Db.controlRows, hsplit, Db.controlRows]
  congr 2
  rw [filter_filter]
  refine filter_congr fun c _ => ?_
  by_cases hc : c.atTime ≤ t
  · simp [hc, PyFloat.le_trans hc ht]
  · simp [hc]

theorem rows_le {db : Db} {home : PyStr} {row : Row}
    (h : row ∈ db.rows home started now) : row.received ≤ now := by
  simp only [Db.rows, mem_insertionSort, List.mem_filter, decide_eq_true_eq] at h
  exact h.2.2.2

theorem controlRows_le {db : Db} {home : PyStr} {c : Control}
    (h : c ∈ db.controlRows home started now) : c.atTime ≤ now := by
  simp only [Db.controlRows, mem_insertionSort, List.mem_filter, decide_eq_true_eq] at h
  exact h.2.2.2

theorem replayFrom_resume {earlier later : Db} {changes : List Change}
    (hins : Inserted earlier later changes) {home : PyStr}
    (ht : t ≤ now) (hr : replayFrom earlier home started t none = .ok r)
    {cp : Checkpoint}
    (hcp : cp = ⟨home, started, t, { r with state := { r.state with closed := [] } }⟩)
    (husable : cp.usable home started now changes = true) :
    replayFrom later home started now (some cp) = replayFrom later home started now none := by
  obtain ⟨hcontrols, new, hrows, hnew⟩ := hins.later husable
  subst hcp
  obtain ⟨hi, hsplit, hhi⟩ := rows_split hrows ht hnew home started
  obtain ⟨chi, hcsplit, hchi⟩ := controlRows_split later ht home started
  have hctl : later.controlRows home started t = earlier.controlRows home started t := by
    simp only [Db.controlRows, hcontrols]
  have hlo : ∀ row ∈ earlier.rows home started t, row.received ≤ t := fun _ => rows_le
  have hclo : ∀ c ∈ earlier.controlRows home started t, c.atTime ≤ t := fun _ => controlRows_le
  have hclosed : r.state.closed = [] := replayUntil_closed rfl hr
  have hfilter : (later.rows home started now).filter (fun row => decide (t < row.received)) = hi := by
    rw [hsplit, filter_append, filter_eq_nil_iff.mpr, nil_append, filter_eq_self.mpr]
    · exact fun row h => decide_eq_true (hhi row h)
    · exact fun row h => by simpa using PyFloat.not_lt_of_le (hlo row h)
  have hcfilter : (later.controlRows home started now).filter (fun c => decide (t < c.atTime)) =
      chi := by
    rw [hcsplit, hctl, filter_append, filter_eq_nil_iff.mpr, nil_append, filter_eq_self.mpr]
    · exact fun c h => decide_eq_true (hchi c h)
    · exact fun c h => by simpa using PyFloat.not_lt_of_le (hclo c h)
  simp only [replayFrom, hfilter, hcfilter]
  rw [hsplit, hcsplit, hctl, replayUntil_split ht hlo hhi hclo hchi]
  simp only [replayFrom] at hr
  rw [hr]
  simp only [bind, Except.bind]
  rw [show ({ r.state with closed := [] } : TrackingState EpochPart) = r.state by
    rw [← hclosed]]

/-- **Incremental replay equals full replay**: after a build over the whole
history at `t` that left a checkpoint, and any insertions since then, a build
at a later time returns the same result with the checkpoint and with an empty
cache, and leaves the same checkpoint. -/
theorem build_resume (packed : List DisplayRow → Nat × Nat) {earlier later : Db}
    {changes : List Change} (hins : Inserted earlier later changes) {home : PyStr}
    {t now : PyFloat} (ht : t ≤ now) {reported : List Change} {built : Option Built}
    {cp : Checkpoint} (hbuild : build packed earlier home t none reported = .ok (built, some cp)) :
    build packed later home now (some cp) changes = build packed later home now none changes := by
  cases hconfig : earlier.config home with
  | none => simp [build, hconfig] at hbuild
  | some c =>
  cases hpolicy : earlier.policy home with
  | none => simp [build, hconfig, hpolicy] at hbuild
  | some started =>
  simp only [build, hconfig, hpolicy, Option.filter_none] at hbuild
  cases hr : replayFrom earlier home started t none with
  | error e => rw [hr] at hbuild; cases hbuild
  | ok r =>
  rw [hr] at hbuild
  simp only [bind, Except.bind] at hbuild
  split at hbuild
  · cases hbuild
  next shown _ =>
  have hcp : cp = ⟨home, started, t, { r with state := { r.state with closed := [] } }⟩ := by
    have := congrArg (fun x => x.map (·.2)) hbuild
    simp only [Except.map, pure, Except.pure, Except.ok.injEq] at this
    split at this
    · exact (Option.some.inj this).symm
    · cases this
  simp only [build, hins.config, hins.policy, hconfig, hpolicy]
  cases husable : cp.usable home started now changes with
  | false => simp [Option.filter, husable]
  | true => simp only [Option.filter, husable, if_true, replayFrom_resume hins ht hr hcp husable]

/-- A row of the home `~` with a quota that used this much of the week. -/
def sampleRow (seq : Int) (time : PyFloat) (used : Int) : Row :=
  { seq, home := py "~", requested := time, received := time
    quota := .ok {
      account := some (py "a"), planType := some (py "pro"), bucket := some (py "codex")
      weekly := some ⟨.float (.finite used), some (.int 1000)⟩
      separateModels := [], source := some (py "live") } }

/-- The tables with monitoring on since 1 and off at 18. -/
def sampleDb (rows : List Row) : Db :=
  { config := fun _ => some 0, policy := fun _ => some 0
    controls := [⟨py "~", 18, false⟩, ⟨py "~", 1, true⟩], observations := rows }

/-- A resumed build over a control and a row past the checkpoint: monitoring
went off, so the row inserted later joins no group. -/
theorem build_resume_sample :
    let packed := fun _ => (0, 0)
    let earlier := sampleDb [sampleRow 1 10 50, sampleRow 2 12 60]
    let later := sampleDb [sampleRow 1 10 50, sampleRow 2 12 60, sampleRow 3 20 70]
    let changes := [⟨py "tracking_observations", some 20⟩]
    let cache := ((build packed earlier (py "~") 15 none []).toOption.bind (·.2))
    cache.isSome ∧
      build packed later (py "~") 25 cache changes = build packed later (py "~") 25 none changes ∧
      ((build packed later (py "~") 25 none changes).toOption.bind (·.1)).map
        (fun b => (b.groups.map (·.observations.length), b.enabled, b.lastObservedAt)) =
        some ([2], false, some 20) := by
  intro packed earlier later changes cache
  have hcache : cache.isSome := by decide +kernel
  refine ⟨hcache, ?_, by decide +kernel⟩
  have hins : Inserted earlier later changes :=
    { config := rfl
      policy := rfl
      controls := .inl rfl
      rows := ⟨[sampleRow 3 20 70], rfl, fun row hrow => by
        obtain rfl := mem_singleton.mp hrow
        exact ⟨_, mem_singleton_self _, rfl, by decide +kernel⟩⟩ }
  cases hbuild : build packed earlier (py "~") 15 none [] with
  | error e => simp [cache, hbuild, Except.toOption] at hcache
  | ok result =>
    obtain ⟨built, cp⟩ := result
    cases cp with
    | none => simp [cache, hbuild, Except.toOption] at hcache
    | some cp =>
      have hcp : cache = some cp := by simp [cache, hbuild, Except.toOption]
      rw [hcp]
      exact build_resume packed hins (by decide +kernel) hbuild

end TrackingStore

end Codexon
