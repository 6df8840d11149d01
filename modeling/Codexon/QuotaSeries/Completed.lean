import Codexon.QuotaSeries
import Mathlib.Tactic.Linarith

/-!
# Codexon.QuotaSeries.Completed

Only a completed percent is priced: the plateau of an amount starts and ends at observed changes,
and the extension finds the same amounts.
-/

namespace Codexon.QuotaSeries

/-! ## what the extension reads -/

def weight (n : Option Num) : ℚ := n.elim 0 fun n => if n.integer then |n.value| else 0

theorem weight_nonneg (n : Option Num) : 0 ≤ weight n := by
  unfold weight
  cases n with
  | none => simp
  | some n => cases hn : n.integer <;> simp [hn]

/-- `m` reads `a` and integers of the sum `w`. -/
def Reads {α : Type} (m : Reading α) (a : α) (w : ℚ) : Prop :=
  0 ≤ w ∧ ∀ b, b ≤ largestExact →
    m b = if b + w ≤ largestExact then .ok (a, b + w) else .error .overflowError

section Reads

variable {α β : Type} {m : Reading α} {f : α → Reading β} {a : α} {b : β} {v w : ℚ}

theorem Reads.pure (a : α) : Reads (pure a : Reading α) a 0 := by
  refine ⟨le_rfl, fun b hb => ?_⟩
  rw [add_zero, if_pos hb]
  rfl

theorem Reads.bind (hm : Reads m a v) (hf : Reads (f a) b w) : Reads (m >>= f) b (v + w) := by
  refine ⟨add_nonneg hm.1 hf.1, fun c hc => ?_⟩
  have hbind : (m >>= f) c = (m c).bind fun x => f x.1 x.2 := rfl
  rw [hbind, hm.2 c hc]
  by_cases hv : c + v ≤ largestExact
  · rw [if_pos hv, ← add_assoc]
    exact hf.2 _ hv
  · have hvw : ¬c + (v + w) ≤ largestExact := fun h => hv (by linarith [hf.1])
    rw [if_neg hv, if_neg hvw]
    rfl

theorem reads_number (n : Option Num) : Reads (number n) (n.map Num.value) (weight n) := by
  cases n with
  | none => exact Reads.pure none
  | some n =>
    cases hn : n.integer with
    | false =>
      have h := Reads.pure (some n.value)
      simpa [number, weight, hn] using h
    | true =>
      refine ⟨weight_nonneg _, fun b hb => ?_⟩
      have hnumber : number (some n) b =
          if largestExact < b + |n.value| then .error .overflowError
          else .ok (some n.value, b + |n.value|) := by
        unfold number
        simp only [hn, if_true]
        by_cases hlt : largestExact < b + |n.value|
        · rw [if_pos hlt]
          simp [hlt, bind, StateT.bind, modify, modifyGet, MonadStateOf.modifyGet,
            StateT.modifyGet, get, getThe, MonadStateOf.get, StateT.get, Except.bind, pure,
            Except.pure, throw, throwThe, MonadExceptOf.throw, StateT.lift]
        · rw [if_neg hlt]
          simp [hlt, bind, StateT.bind, modify, modifyGet, MonadStateOf.modifyGet,
            StateT.modifyGet, get, getThe, MonadStateOf.get, StateT.get, Except.bind, pure,
            Except.pure]
          rfl
      have hweight : weight (some n) = |n.value| := by simp [weight, hn]
      rw [hnumber, hweight, Option.map_some]
      by_cases hlt : largestExact < b + |n.value|
      · rw [if_pos hlt, if_neg (not_le.mpr hlt)]
      · rw [if_neg hlt, if_pos (not_lt.mp hlt)]

theorem reads_required (n : Num) : Reads (required n) n.value (weight (some n)) := by
  have h := Reads.bind (f := fun value => (pure (value.getD 0) : Reading ℚ))
    (reads_number (some n)) (Reads.pure _)
  rwa [add_zero] at h

theorem reads_forSeries (series : Bool) (hm : Reads m a w) (other : α) :
    Reads (forSeries series m other) (if series then a else other) (if series then w else 0) := by
  cases series with
  | false => exact Reads.pure other
  | true => exact hm

end Reads

def rowIntegers (series : Bool) (row : Row) : ℚ :=
  weight (some row.remaining) + (weight row.cycleCost +
    ((if series then weight (some row.at_) else 0) + (weight row.reportedRemaining +
      (row.periodCost.elim 0 weight + ((if series then weight row.cycleValue else 0) +
        if series then row.completedCost.elim 0 weight else 0)))))

def prepareRow (series : Bool) (previous : Option Row) (row : Row) : Parsed where
  at_ := if series then row.at_.value else 0
  remaining := row.remaining.value
  reported := row.reported
  cost := row.cycleCost.map Num.value
  periodCost := row.cost
  value := if series then row.cycleValue.map Num.value else none
  completed := if series then row.completedCost.map (·.map Num.value) else none
  connect := row.connect
  tracking := row.trackingContinuous
  reset := row.reset
  boundary := row.boundary previous

/-- What the scan reads of a row. -/
structure Mirrors (parsed : Parsed) (previous : Option Row) (row : Row) : Prop where
  reported : parsed.reported = row.reported
  periodCost : parsed.periodCost = row.cost
  connect : parsed.connect = row.connect
  tracking : parsed.tracking = row.trackingContinuous
  boundary : parsed.boundary = row.boundary previous

theorem mirrors_prepareRow (series : Bool) (previous : Option Row) (row : Row) :
    Mirrors (prepareRow series previous row) previous row := ⟨rfl, rfl, rfl, rfl, rfl⟩

theorem reads_reported (row : Row) :
    Reads (readReported row row.remaining.value) row.reported (weight row.reportedRemaining) := by
  unfold readReported Row.reported
  cases row.reportedRemaining with
  | none => exact Reads.pure _
  | some reported => exact reads_required reported

theorem reads_periodCost (row : Row) :
    Reads (readPeriodCost row (row.cycleCost.map Num.value)) row.cost
      (row.periodCost.elim 0 weight) := by
  unfold readPeriodCost Row.cost
  cases row.periodCost with
  | none => exact Reads.pure _
  | some periodCost => exact reads_number periodCost

theorem reads_completed (row : Row) :
    Reads (readCompleted row) (row.completedCost.map (·.map Num.value))
      (row.completedCost.elim 0 weight) := by
  unfold readCompleted
  cases row.completedCost with
  | none => exact Reads.pure none
  | some completed =>
    have h := Reads.bind (f := fun value => (pure (some value) : Reading (Option (Option ℚ))))
      (reads_number completed) (Reads.pure _)
    rwa [add_zero] at h

theorem reads_row (series : Bool) (previous : Option Row) (row : Row) :
    Reads (parseRow series previous row) (prepareRow series previous row)
      (rowIntegers series row) := by
  have hcompleted := (reads_forSeries series (reads_completed row) none).bind
    (f := fun completed => (pure { prepareRow series previous row with
      completed := completed } : Reading Parsed)) (Reads.pure _)
  rw [add_zero] at hcompleted
  exact (reads_required row.remaining).bind ((reads_number row.cycleCost).bind
    ((reads_forSeries series (reads_required row.at_) 0).bind ((reads_reported row).bind
      ((reads_periodCost row).bind
        ((reads_forSeries series (reads_number row.cycleValue) none).bind hcompleted)))))

/-- The rows as the extension reads them. -/
def prepare (series : Bool) : Option Row → List Row → List Parsed
  | _, [] => []
  | previous, row :: rest => prepareRow series previous row :: prepare series (some row) rest

def integers (series : Bool) (rows : List Row) : ℚ := (rows.map (rowIntegers series)).sum

theorem reads_rows (series : Bool) (previous : Option Row) (rows : List Row) :
    Reads (parseLoop series previous rows) (prepare series previous rows)
      (integers series rows) := by
  induction rows generalizing previous with
  | nil => exact Reads.pure []
  | cons row rest ih =>
    have hlast := (ih (some row)).bind (f := fun rest => (pure
      (prepareRow series previous row :: rest) : Reading (List Parsed))) (Reads.pure _)
    rw [add_zero] at hlast
    exact (reads_row series previous row).bind hlast

theorem parseRows_eq (rows : List Row) (series : Bool) :
    parseRows rows series = if integers series rows ≤ largestExact then
      .ok (prepare series none rows) else .error .overflowError := by
  have h := (reads_rows series none rows).2 0 (by norm_num [largestExact])
  rw [zero_add] at h
  have hrun : parseRows rows series = (parseLoop series none rows 0).map (·.1) := rfl
  rw [hrun, h]
  split_ifs <;> rfl

/-! ## plateaus -/

def before (rows : List Row) (i : Nat) : Option Row := if i = 0 then none else rows[i - 1]?

/-- A gap in which nothing happened. -/
def Idle (previous row : Row) : Prop :=
  row.trackingContinuous = true ∧ known row.cost = true ∧ row.reported = previous.reported ∧
    sameCost row.cost previous.cost = true

/-- Row `i` goes on with the period of the row before it. -/
structure Continues (rows : List Row) (i : Nat) (previous row : Row) : Prop where
  before : before rows i = some previous
  at_ : rows[i]? = some row
  period : row.boundary (some previous) = false
  joined : row.connect = true ∨ Idle previous row

/-- An observed decrease. -/
structure Decrease (rows : List Row) (i : Nat) (previous row : Row) : Prop extends
    Continues rows i previous row where
  connect : row.connect = true
  lt : row.reported < previous.reported

/-- A plateau starts with a period of 100 percent and no cost, or on an integer percentage. -/
def Opens (rows : List Row) (s : Nat) (row : Row) : Prop :=
  (row.boundary (before rows s) = true ∧ row.reported = 100 ∧ row.cost = some 0) ∨
    ∃ previous, Decrease rows s previous row ∧ row.reported.isInt = true

/-- The rows after `s` and before `e` stay on the plateau. -/
def Stays (rows : List Row) (s e : Nat) : Prop :=
  ∀ i, s < i → i < e → ∃ previous row, Continues rows i previous row ∧
    row.reported = previous.reported

/-- A completed percent: the rows from `s` before `e`. -/
structure Plateau (rows : List Row) (s e : Nat) (amount : ℚ) : Prop where
  lt : s < e
  opens : ∃ row cost, rows[s]? = some row ∧ Opens rows s row ∧ row.cost = some cost ∧
    ∃ previous next last, Decrease rows e previous next ∧ previous.reported - next.reported = 1 ∧
      next.cost = some last ∧ amount = max 0 (last - cost)
  stays : Stays rows s e

/-- What holds before row `index`. -/
structure Inv (rows : List Row) (index : Nat) (s : Scan) : Prop where
  length : s.amounts.length = rows.length
  start : s.start ≤ index
  opened : s.valid = true → s.start < index ∧ Stays rows s.start index ∧
    ∃ row, rows[s.start]? = some row ∧ Opens rows s.start row ∧ known row.cost = true
  pending : ∀ i amount, s.amounts[i]? = some (some amount) → i < s.start
  priced : ∀ i amount, s.amounts[i]? = some (some amount) → ∃ a b, a ≤ i ∧ i < b ∧
    b ≤ s.start ∧ Plateau rows a b amount ∧ ∀ j, a ≤ j → j < b → s.amounts[j]? = some (some amount)

theorem getElem?_fill (amounts : List (Option ℚ)) (start index : Nat) (amount : ℚ) (i : Nat) :
    (fill amounts start index amount)[i]? =
      amounts[i]?.map fun old => if start ≤ i ∧ i < index then some amount else old := by
  unfold fill
  rw [List.getElem?_mapIdx]

@[simp]
theorem length_fill (amounts : List (Option ℚ)) (start index : Nat) (amount : ℚ) :
    (fill amounts start index amount).length = amounts.length := List.length_mapIdx

section Step

variable {rows : List Row} {index : Nat} {s : Scan} {row previous : Row}

theorem Inv.restart (h : Inv rows index s) (hrow : rows[index]? = some row) {valid : Bool}
    (hvalid : valid = true → Opens rows index row ∧ known row.cost = true) :
    Inv rows (index + 1) { s with start := index, valid := valid } where
  length := h.length
  start := Nat.le_succ index
  opened hv := by
    refine ⟨Nat.lt_succ_self index, fun i hlo hhi => ?_, row, hrow, hvalid hv⟩
    have hlo : index < i := hlo
    omega
  pending i amount hi := (h.pending i amount hi).trans_le h.start
  priced i amount hi := by
    obtain ⟨a, b, ha, hb, hle, hplateau⟩ := h.priced i amount hi
    exact ⟨a, b, ha, hb, hle.trans h.start, hplateau⟩

theorem Inv.stay (h : Inv rows index s) (hrow : Continues rows index previous row)
    (hsame : row.reported = previous.reported) {valid : Bool}
    (hvalid : valid = true → s.valid = true) :
    Inv rows (index + 1) { s with valid := valid } where
  length := h.length
  start := h.start.trans (Nat.le_succ index)
  opened hv := by
    obtain ⟨hlt, hstays, hopens⟩ := h.opened (hvalid hv)
    refine ⟨hlt.trans (Nat.lt_succ_self index), fun i hlo hhi => ?_, hopens⟩
    rcases Nat.lt_succ_iff_lt_or_eq.mp hhi with hi | rfl
    · exact hstays i hlo hi
    · exact ⟨previous, row, hrow, hsame⟩
  pending := h.pending
  priced := h.priced

theorem Inv.price (h : Inv rows index s) (hindex : index < rows.length) {amount : ℚ}
    (hplateau : Plateau rows s.start index amount) :
    Inv rows index ⟨fill s.amounts s.start index amount, index, false⟩ where
  length := by rw [length_fill, h.length]
  start := le_rfl
  opened hv := nomatch hv
  pending i other hi := by
    rw [getElem?_fill] at hi
    obtain ⟨old, hold, hi⟩ := Option.map_eq_some_iff.mp hi
    by_cases hin : s.start ≤ i ∧ i < index
    · exact hin.2
    · rw [if_neg hin] at hi
      rw [hi] at hold
      exact (h.pending i other hold).trans hplateau.lt
  priced i other hi := by
    have hnew : ∀ j, s.start ≤ j → j < index →
        (fill s.amounts s.start index amount)[j]? = some (some amount) := by
      intro j hlo hhi
      have hj : j < s.amounts.length := by
        rw [h.length]
        omega
      rw [getElem?_fill, List.getElem?_eq_getElem hj, Option.map_some, if_pos ⟨hlo, hhi⟩]
    rw [getElem?_fill] at hi
    obtain ⟨old, hold, hi⟩ := Option.map_eq_some_iff.mp hi
    by_cases hin : s.start ≤ i ∧ i < index
    · rw [if_pos hin] at hi
      rw [← Option.some.inj hi]
      exact ⟨s.start, index, hin.1, hin.2, le_rfl, hplateau, hnew⟩
    · rw [if_neg hin] at hi
      rw [hi] at hold
      obtain ⟨a, b, ha, hb, hle, hblock, hsame⟩ := h.priced i other hold
      refine ⟨a, b, ha, hb, hle.trans hplateau.lt.le, hblock, fun j hlo hhi => ?_⟩
      have hout : ¬(s.start ≤ j ∧ j < index) := by omega
      rw [getElem?_fill, hsame j hlo hhi, Option.map_some, if_neg hout]

end Step

section Run

variable {rows : List Row} {index : Nat} {s : Scan} {row : Row}

theorem exists_of_known {cost : Option ℚ} (h : known cost = true) : ∃ c, cost = some c := by
  cases cost with
  | none => cases h
  | some c => exact ⟨c, rfl⟩

/-- **A row.** It raises nothing, and keeps the invariant. -/
theorem percentStep_spec (h : Inv rows index s) (hrow : rows[index]? = some row)
    (hexcluded : row.userExcluded = false) :
    ∃ s', percentStep rows (before rows index) index row s = .ok s' ∧ Inv rows (index + 1) s' := by
  have hindex : index < rows.length := (List.getElem?_eq_some_iff.mp hrow).1
  unfold percentStep
  simp only [hexcluded, Bool.false_eq_true, if_false]
  by_cases hboundary : row.boundary (before rows index) = true
  · rw [if_pos hboundary]
    refine ⟨_, rfl, h.restart hrow fun hvalid => ?_⟩
    simp only [Bool.and_eq_true, decide_eq_true_eq] at hvalid
    exact ⟨.inl ⟨hboundary, hvalid.1.1, hvalid.2⟩, hvalid.1.2⟩
  · rw [if_neg hboundary]
    rw [Bool.not_eq_true] at hboundary
    cases hprevious : before rows index with
    | none => rw [hprevious] at hboundary; cases hboundary
    | some previous =>
      rw [hprevious] at hboundary
      dsimp only
      by_cases hgap : (!row.connect && !(row.trackingContinuous && known row.cost &&
          decide (row.reported = previous.reported) && sameCost row.cost previous.cost)) = true
      · rw [if_pos hgap]
        exact ⟨_, rfl, h.restart hrow fun hvalid => nomatch hvalid⟩
      · rw [if_neg hgap]
        have hjoined : row.connect = true ∨ Idle previous row := by
          unfold Idle
          simpa [and_assoc, or_iff_not_imp_left] using hgap
        have hcontinues : Continues rows index previous row :=
          ⟨hprevious, hrow, hboundary, hjoined⟩
        by_cases hsame : row.reported = previous.reported
        · rw [if_neg (not_not.mpr hsame)]
          refine ⟨_, rfl, h.stay hcontinues hsame fun hvalid => ?_⟩
          simp only [Bool.and_eq_true] at hvalid
          exact hvalid.1.1.1
        · rw [if_pos hsame]
          have hconnect : row.connect = true := hjoined.resolve_right fun hidle =>
            hsame hidle.2.2.1
          have hopens : (decide (row.reported < previous.reported) && row.reported.isInt &&
              known row.cost) = true → Opens rows index row ∧ known row.cost = true := by
            intro hvalid
            simp only [Bool.and_eq_true, decide_eq_true_eq] at hvalid
            exact ⟨.inr ⟨previous, ⟨hcontinues, hconnect, hvalid.1.1⟩, hvalid.1.2⟩, hvalid.2⟩
          by_cases hpriced : (s.valid && known row.cost && previous.cost.isSome &&
              noDecrease row.cost previous.cost &&
              decide (previous.reported - row.reported = 1) && previous.reported.isInt) = true
          · simp only [if_pos hpriced]
            simp only [Bool.and_eq_true, decide_eq_true_eq] at hpriced
            obtain ⟨⟨⟨⟨⟨hvalid, hknown⟩, -⟩, -⟩, hone⟩, -⟩ := hpriced
            obtain ⟨hlt, hstays, opening, hopening, hopen, hcost⟩ := h.opened hvalid
            obtain ⟨last, hlast⟩ := exists_of_known hknown
            obtain ⟨first, hfirst⟩ := exists_of_known hcost
            have hdecrease : Decrease rows index previous row :=
              ⟨hcontinues, hconnect, by linarith⟩
            have hplateau : Plateau rows s.start index (max 0 (last - first)) :=
              ⟨hlt, ⟨opening, first, hopening, hopen, hfirst, previous, row, last, hdecrease,
                hone, hlast, rfl⟩, hstays⟩
            have hitem : item rows s.start = .ok opening := by simp [item, hopening]
            have hdifference : difference row.cost opening.cost = .ok (max 0 (last - first)) := by
              rw [hlast, hfirst]
              rfl
            refine ⟨_, ?_, (h.price hindex hplateau).restart hrow hopens⟩
            simp only [hitem, hdifference, bind, Except.bind, pure, Except.pure]
          · simp only [if_neg hpriced]
            exact ⟨_, rfl, h.restart hrow hopens⟩

/-! ## the extension -/

theorem getElem?_prepare (series : Bool) (previous : Option Row) (rows : List Row) (i : Nat) :
    (prepare series previous rows)[i]? =
      rows[i]?.map (prepareRow series (if i = 0 then previous else rows[i - 1]?)) := by
  induction rows generalizing previous i with
  | nil => rfl
  | cons row rest ih =>
    cases i with
    | zero => rfl
    | succ i =>
      rw [prepare, List.getElem?_cons_succ, ih (some row), List.getElem?_cons_succ]
      cases i with
      | zero => rfl
      | succ i => rfl

@[simp]
theorem length_prepare (series : Bool) (previous : Option Row) (rows : List Row) :
    (prepare series previous rows).length = rows.length := by
  induction rows generalizing previous with
  | nil => rfl
  | cons row rest ih => simp [prepare, ih]

theorem completedStep_eq {prepared : List Parsed} {parsed : Parsed}
    (hprepared : ∀ i row, rows[i]? = some row →
      ∃ parsed, prepared[i]? = some parsed ∧ Mirrors parsed (before rows i) row)
    (hparsed : Mirrors parsed (before rows index) row) (h : s.start ≤ index)
    (hexcluded : row.userExcluded = false) {s' : Scan}
    (hstep : percentStep rows (before rows index) index row s = .ok s') :
    completedStep prepared index parsed s = .ok s' := by
  unfold percentStep at hstep
  simp only [hexcluded, Bool.false_eq_true, if_false] at hstep
  unfold completedStep
  simp only [hparsed.reported, hparsed.periodCost, hparsed.connect, hparsed.tracking,
    hparsed.boundary]
  by_cases hboundary : row.boundary (before rows index) = true
  · rw [if_pos hboundary] at hstep ⊢
    exact congrArg _ (Except.ok.inj hstep)
  · rw [if_neg hboundary] at hstep ⊢
    by_cases hzero : index = 0
    · simp [hzero, before, Row.boundary] at hboundary
    · rw [if_neg hzero]
      have hbefore : before rows index = rows[index - 1]? := if_neg hzero
      cases hprevious : rows[index - 1]? with
      | none =>
        rw [hbefore, hprevious] at hstep
        cases hstep
      | some previous =>
        rw [hbefore, hprevious] at hstep
        obtain ⟨last, hlast, hmirrors⟩ := hprepared _ _ hprevious
        have hindexed : indexed prepared (index - 1) = .ok last := by simp [indexed, hlast]
        rw [hindexed]
        simp only [bind, Except.bind, pure, Except.pure, hmirrors.reported,
          hmirrors.periodCost] at hstep ⊢
        by_cases hgap : (!row.connect && !(row.trackingContinuous && known row.cost &&
            decide (row.reported = previous.reported) && sameCost row.cost previous.cost)) = true
        · rw [if_pos hgap] at hstep ⊢
          exact congrArg _ (Except.ok.inj hstep)
        · rw [if_neg hgap] at hstep ⊢
          by_cases hchanged : row.reported ≠ previous.reported
          · rw [if_pos hchanged] at hstep ⊢
            by_cases hpriced : (s.valid && known row.cost && previous.cost.isSome &&
                noDecrease row.cost previous.cost &&
                decide (previous.reported - row.reported = 1) && previous.reported.isInt) = true
            · rw [if_pos hpriced] at hstep ⊢
              cases hopening : rows[s.start]? with
              | none => simp [item, hopening] at hstep
              | some opening =>
                obtain ⟨first, hfirst, hopened⟩ := hprepared _ _ hopening
                cases hcost : row.cost with
                | none => simp [item, hopening, hcost, difference] at hstep
                | some cost =>
                  cases hold : opening.cost with
                  | none => simp [item, hopening, hold, difference] at hstep
                  | some old =>
                    simp [item, hopening, hcost, hold, difference] at hstep
                    simp [indexed, hfirst, hopened.periodCost, hold, unwrap,
                      not_lt.mpr h, max_comm, ← hstep]
            · rw [if_neg hpriced] at hstep ⊢
              exact congrArg _ (Except.ok.inj hstep)
          · rw [if_neg hchanged] at hstep ⊢
            exact congrArg _ (Except.ok.inj hstep)

theorem mirrors_prepare (series : Bool) {i : Nat} (hrow : rows[i]? = some row) :
    ∃ parsed, (prepare series none rows)[i]? = some parsed ∧
      Mirrors parsed (before rows i) row := by
  refine ⟨_, ?_, mirrors_prepareRow series _ row⟩
  rw [getElem?_prepare, hrow]
  rfl

/-- **A run.** -/
theorem percentLoop_spec (series : Bool) (hexcluded : ∀ row ∈ rows, row.userExcluded = false)
    {rest : List Row} (h : Inv rows index s) (hrest : rows.drop index = rest) :
    ∃ s', percentLoop rows (before rows index) index rest s = .ok s' ∧
      Inv rows (index + rest.length) s' ∧
      completedLoop (prepare series none rows) index ((prepare series none rows).drop index) s =
        .ok s' := by
  induction rest generalizing index s with
  | nil =>
    have hle : (prepare series none rows).length ≤ index := by
      rw [length_prepare]
      exact List.drop_eq_nil_iff.mp hrest
    refine ⟨s, rfl, h, ?_⟩
    rw [List.drop_eq_nil_of_le hle]
    rfl
  | cons row rest ih =>
    have hrow : rows[index]? = some row := by
      rw [← List.head?_drop, hrest]
      rfl
    have hnext : rows.drop (index + 1) = rest := by
      rw [← List.tail_drop, hrest]
      rfl
    have hkept := hexcluded row (List.mem_of_getElem? hrow)
    obtain ⟨s', hstep, hinv⟩ := percentStep_spec h hrow hkept
    obtain ⟨parsed, hparsed, hmirrors⟩ := mirrors_prepare series hrow
    have hnative := completedStep_eq (fun i row => mirrors_prepare series) hmirrors h.start
      hkept hstep
    obtain ⟨t, hloop, ht, hnativeLoop⟩ := ih hinv hnext
    have hbefore : before rows (index + 1) = some row := hrow
    rw [hbefore] at hloop
    refine ⟨t, ?_, ?_, ?_⟩
    · rw [percentLoop, hstep]
      exact hloop
    · rwa [List.length_cons, Nat.add_comm rest.length, ← Nat.add_assoc]
    · obtain ⟨hlt, hget⟩ := List.getElem?_eq_some_iff.mp hparsed
      rw [List.drop_eq_getElem_cons hlt, hget, completedLoop, hnative]
      exact hnativeLoop

end Run

theorem percents_spec (series : Bool) (rows : List Row)
    (h : ∀ row ∈ rows, row.userExcluded = false) :
    ∃ s, completedPercentCostsPython rows = .ok s.amounts ∧
      calculateCompleted (prepare series none rows) = .ok s.amounts ∧ Inv rows rows.length s := by
  have hinv : Inv rows 0 { amounts := List.replicate rows.length none } := by
    refine ⟨by simp, le_rfl, fun hvalid => (nomatch hvalid), fun i amount hi => ?_,
      fun i amount hi => ?_⟩ <;> simp [List.getElem?_replicate] at hi
  obtain ⟨s, hpython, hs, hnative⟩ := percentLoop_spec series h hinv rfl
  refine ⟨s, ?_, ?_, ?_⟩
  · unfold completedPercentCostsPython
    have hloop : percentLoop rows none 0 rows { amounts := List.replicate rows.length none } =
        .ok s := hpython
    rw [hloop]
    rfl
  · unfold calculateCompleted
    rw [List.drop_zero] at hnative
    rw [length_prepare, hnative]
    rfl
  · simpa using hs

theorem completedPercentCostsNative_eq {rows : List Row} {amounts : List (Option ℚ)}
    (h : calculateCompleted (prepare false none rows) = .ok amounts) :
    completedPercentCostsNative rows =
      if integers false rows ≤ largestExact then .ok amounts else .error .overflowError := by
  unfold completedPercentCostsNative
  rw [parseRows_eq]
  split_ifs
  · exact h
  · rfl

theorem completedPercentCosts_eq {rows : List Row} {amounts : List (Option ℚ)}
    (hpython : completedPercentCostsPython rows = .ok amounts)
    (hnative : rows.any (·.userExcluded) = false →
      calculateCompleted (prepare false none rows) = .ok amounts) (native : Bool) :
    completedPercentCosts native rows = .ok amounts := by
  unfold completedPercentCosts
  rw [hpython]
  cases hany : rows.any (·.userExcluded) with
  | true => rfl
  | false =>
    rw [completedPercentCostsNative_eq (hnative hany)]
    cases native with
    | false => rfl
    | true => split_ifs <;> rfl

/-- **Only completed percents are priced.** -/
theorem completed_plateaus (rows : List Row) (h : ∀ row ∈ rows, row.userExcluded = false) :
    ∃ amounts, completedPercentCostsPython rows = .ok amounts ∧
      calculateCompleted (prepare false none rows) = .ok amounts ∧
      completedPercentCostsNative rows =
        (if integers false rows ≤ largestExact then .ok amounts else .error .overflowError) ∧
      (∀ native, completedPercentCosts native rows = .ok amounts) ∧
      amounts.length = rows.length ∧
      ∀ i amount, amounts[i]? = some (some amount) → ∃ s e, s ≤ i ∧ i < e ∧
        Plateau rows s e amount ∧ ∀ j, s ≤ j → j < e → amounts[j]? = some (some amount) := by
  obtain ⟨s, hpython, hnative, hs⟩ := percents_spec false rows h
  refine ⟨s.amounts, hpython, hnative, completedPercentCostsNative_eq hnative,
    completedPercentCosts_eq hpython fun _ => hnative, hs.length, fun i amount hi => ?_⟩
  obtain ⟨a, b, ha, hb, -, hplateau⟩ := hs.priced i amount hi
  exact ⟨a, b, ha, hb, hplateau⟩

/-- Two plateaus, of which the second is not completed. -/
theorem completed_plateaus_measured :
    let rows : List Row := [
      { remaining := { value := 100 }, cycleCost := some { value := 0 }, connect := false },
      { remaining := { value := 100 }, cycleCost := some { value := 1 }, connect := true },
      { remaining := { value := 99 }, cycleCost := some { value := 3 }, connect := true }]
    completedPercentCosts true rows = .ok [some 3, some 3, none] ∧
      ∃ s e, s ≤ 1 ∧ 1 < e ∧ Plateau rows s e 3 := by
  intro rows
  obtain ⟨amounts, hpython, -, -, hboth, -, hplateaus⟩ := completed_plateaus rows (by decide)
  have hamounts : completedPercentCostsPython rows = .ok [some 3, some 3, none] := by
    decide +kernel
  have heq : amounts = [some 3, some 3, none] := Except.ok.inj (hpython.symm.trans hamounts)
  rw [heq] at hboth hplateaus
  obtain ⟨s, e, hs, he, hplateau, -⟩ := hplateaus 1 3 rfl
  exact ⟨hboth true, s, e, hs, he, hplateau⟩

end Codexon.QuotaSeries
