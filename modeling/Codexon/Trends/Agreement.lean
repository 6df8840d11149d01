import Codexon.Trends.Reading

/-!
# Codexon.Trends.Agreement

Both implementations select the same samples.
-/

namespace Codexon.Trends

open List Dict

/-! ## what a step of `add` does -/

section Step

variable {s : Sampling} {metric : Metric} {view : View} {index : Nat} {row : Row} {n : Num}

/-- The state when a call is assessed. -/
def Sampling.before (s : Sampling) (row : Row) : Sampling := s.settle row.scope row.ts

def Sampling.assessed (s : Sampling) (index : Nat) (row : Row) (n : Num) : Point :=
  row.point index n (assessment n.value ((s.before row).pool row.scope) false true)

theorem add_valid (hsampled : metric.sampled) {value : Option Value}
    (hvalue : valid value = some n) :
    s.add metric view index row value true =
      if view.shows row.ts then
        ((s.before row).pend row.scope row.ts n.value).plot view (s.assessed index row n)
      else (s.before row).pend row.scope row.ts n.value := by
  have hcache : decide (metric = .sessionCache) = false := by
    cases metric <;> simp_all [Metric.sampled]
  simp only [Sampling.add, hvalue, hsampled, hcache, if_true]
  rfl

theorem add_invalid {value : Option Value} (hvalue : valid value = none) :
    s.add metric view index row value true = s := by
  simp only [Sampling.add, hvalue]

end Step

/-! ## histories -/

def Sampling.history (s : Sampling) (scope : Scope) : History where
  values := s.pool scope
  pendingAt := (s.pending.get? scope).map Prod.fst
  pending := ((s.pending.get? scope).map Prod.snd).getD []

section Histories

variable {s : Sampling} {scope other : Scope} {ts value : ℚ}

theorem pool_set (s : Sampling) (scope other : Scope) (values : List ℚ)
    (pending : Dict Scope (ℚ × List ℚ)) :
    ({ s with pools := s.pools.set scope values, pending := pending } : Sampling).pool other =
      if other = scope then values else s.pool other := by
  unfold Sampling.pool
  rw [get?_set]
  split <;> rfl

theorem settle_history (hshort : (s.pool scope).length ≤ limit) :
    (s.settle scope ts).history other =
      if other = scope then (s.history scope).settle ts else s.history other := by
  unfold Sampling.settle Sampling.history History.settle
  cases hprior : s.pending.get? scope with
  | none =>
    simp only [pool_set, Option.map_none, Option.any_none, Bool.false_eq_true, if_false]
    by_cases hother : other = scope
    · simp [hother, hprior]
    · simp [hother]
  | some prior =>
    have hpush := Statistics.foldl_push (by decide) hshort prior.2
    by_cases hlt : prior.1 < ts
    · by_cases hother : other = scope
      · simp [hother, hlt, pool_set, hpush, get?_erase]
      · simp [hother, hlt, pool_set, get?_erase]
    · by_cases hother : other = scope
      · simp [hother, hlt, pool_set, hprior]
      · simp [hother, hlt, pool_set]

theorem pend_history : (s.pend scope ts value).history other =
    if other = scope then (s.history scope).pend ts value else s.history other := by
  unfold Sampling.pend Sampling.history History.pend
  by_cases hother : other = scope
  · cases s.pending.get? scope <;> simp [hother, get?_set, Sampling.pool]
  · simp [hother, get?_set, Sampling.pool]

theorem plot_history (view : View) (p : Point) : (s.plot view p).history scope = s.history scope :=
  rfl

theorem settle_frame (s : Sampling) (scope : Scope) (ts : ℚ) :
    ∃ pools pending, s.settle scope ts = { s with pools := pools, pending := pending } := by
  unfold Sampling.settle
  split
  · split
    · exact ⟨_, _, rfl⟩
    · exact ⟨_, _, rfl⟩
  · exact ⟨_, _, rfl⟩

theorem settle_short (hshort : ∀ scope, (s.pool scope).length ≤ limit) :
    ((s.settle scope ts).pool other).length ≤ limit := by
  unfold Sampling.settle
  split
  · split
    · rw [pool_set]
      split
      · exact Statistics.length_rtake_le _ _
      · exact hshort other
    · rw [pool_set]
      split
      · exact hshort scope
      · exact hshort other
  · rw [pool_set]
    split
    · exact hshort scope
    · exact hshort other

theorem before_history (hshort : (s.pool scope).length ≤ limit) {row : Row}
    (hscope : row.scope = scope) : (s.before row).history scope =
      (s.history scope).settle row.ts := by
  subst hscope
  unfold Sampling.before
  rw [settle_history hshort, if_pos rfl]

theorem add_history {metric : Metric} {view : View} {index : Nat} {row : Row} {n : Num}
    (hsampled : metric.sampled) (hshort : (s.pool row.scope).length ≤ limit) {item : Option Value}
    (hvalue : valid item = some n) :
    (s.add metric view index row item true).history other =
      if other = row.scope then ((s.history row.scope).settle row.ts).pend row.ts n.value
      else s.history other := by
  have hpended : ((s.before row).pend row.scope row.ts n.value).history other =
      if other = row.scope then ((s.history row.scope).settle row.ts).pend row.ts n.value
      else s.history other := by
    rw [pend_history, before_history hshort rfl, Sampling.before, settle_history hshort]
    split <;> rfl
  rw [add_valid hsampled hvalue]
  split
  · rw [plot_history, hpended]
  · exact hpended

theorem add_short {metric : Metric} {view : View} {index : Nat} {row : Row} {n : Num}
    (hsampled : metric.sampled) (hshort : ∀ scope, (s.pool scope).length ≤ limit)
    {item : Option Value} (hvalue : valid item = some n) :
    ((s.add metric view index row item true).pool other).length ≤ limit := by
  rw [add_valid hsampled hvalue]
  split
  · exact settle_short hshort
  · exact settle_short hshort

end Histories

/-! ## cells -/

def Point.sample (p : Point) : Sample where
  row := p.row
  value := p.value.value
  baseline := p.verdict.baseline
  delta := p.verdict.delta
  previous := p.verdict.baselineCount
  direction := p.verdict.direction

def counted (anomalies : List Point) (direction : Int) : Option (Sample × Nat) :=
  let points := anomalies.filter (·.verdict.direction = direction)
  points.head?.map fun p => (p.sample, points.length)

def Cell.column (cell : Cell) : Column where
  first := cell.first.sample
  low := cell.low.sample
  high := cell.high.sample
  last := cell.last.sample
  negative := counted cell.anomalies (-1)
  positive := counted cell.anomalies 1

theorem counted_append (anomalies : List Point) (p : Point) (direction : Int) :
    counted (anomalies ++ [p]) direction =
      if p.verdict.direction = direction then another (counted anomalies direction) p.sample
      else counted anomalies direction := by
  unfold counted
  rw [filter_append]
  by_cases h : p.verdict.direction = direction
  · cases hpoints : anomalies.filter (·.verdict.direction = direction) with
    | nil => simp [h, another]
    | cons q points => simp [h, another]
  · simp [h]

theorem direction_cases (value : ℚ) (previous : List ℚ) :
    (assessment value previous false true).direction = -1 ∨
      (assessment value previous false true).direction = 0 ∨
      (assessment value previous false true).direction = 1 := by
  unfold assessment
  by_cases h : previous.length < 10
  · simp [h]
  · simp only [Bool.not_true, Bool.false_eq_true, if_false, h]
    split
    · split <;> simp
    · simp

theorem column_add (cell : Cell) {p : Point}
    (h : p.verdict.direction = -1 ∨ p.verdict.direction = 0 ∨ p.verdict.direction = 1) :
    (cell.add p).column = cell.column.add p.sample := by
  have hlow : (if p.value.value < cell.low.value.value then p else cell.low).sample =
      if p.sample.value < cell.low.sample.value then p.sample else cell.low.sample :=
    apply_ite Point.sample _ _ _
  have hhigh : (if cell.high.value.value < p.value.value then p else cell.high).sample =
      if cell.high.sample.value < p.sample.value then p.sample else cell.high.sample :=
    apply_ite Point.sample _ _ _
  have hanomalies : ∀ direction, counted (cell.add p).anomalies direction =
      if p.verdict.direction = 0 then counted cell.anomalies direction
      else counted (cell.anomalies ++ [p]) direction := fun direction =>
    apply_ite (counted · direction) _ _ _
  have hdirection : p.sample.direction = p.verdict.direction := rfl
  unfold Cell.column Column.add
  rw [hanomalies, hanomalies, hdirection, counted_append, counted_append, Column.mk.injEq]
  refine ⟨rfl, hlow, hhigh, rfl, ?_, ?_⟩
  · obtain h | h | h := h <;> simp [h]
  · obtain h | h | h := h <;> simp [h]

theorem sample_eq (h : History) (index : Nat) (row : Row) (n : Num) :
    (row.point index n (assessment n.value h.values false true)).sample =
      h.sample index n.value := by
  unfold assessment History.sample Point.sample Row.point
  by_cases hfew : h.values.length < 10
  · have hnot : ¬10 ≤ h.values.length := by omega
    simp [hfew, hnot]
  · have henough : 10 ≤ h.values.length := by omega
    have hmad := Statistics.median_ordered
      (fun x => |x - Statistics.median h.values|) h.values
    simp only [hfew, henough, Bool.not_true, Bool.false_eq_true, if_false, if_true]
    unfold Statistics.median at hmad ⊢
    rw [hmad]

theorem pixel_eq {view : View} {ts : ℚ} (hview : view.start < view.stop) (hwidth : 0 < view.width)
    (hshows : view.shows ts) : (min ((view.width : Int) - 1)
        (max 0 ((view.position ts).num.tdiv (view.position ts).den))).toNat =
      min ⌊view.position ts⌋.toNat (view.width - 1) := by
  have hstart : view.start ≤ ts := by
    unfold View.shows at hshows
    simp only [Bool.and_eq_true, decide_eq_true_eq] at hshows
    exact hshows.1
  have hnonneg : 0 ≤ view.position ts := by
    unfold View.position
    have hspan : 0 ≤ view.stop - view.start := by linarith
    have hfrom : 0 ≤ ts - view.start := by linarith
    positivity
  have htrunc : (view.position ts).num.tdiv (view.position ts).den = ⌊view.position ts⌋ := by
    rw [Int.tdiv_eq_ediv_of_nonneg (Rat.num_nonneg.mpr hnonneg), Rat.floor_def']
  have hfloor : 0 ≤ ⌊view.position ts⌋ := Int.floor_nonneg.mpr hnonneg
  rw [htrunc]
  omega

/-! ## the loops -/

/-- The extension keeps what Python does. -/
structure Follows (w : Sweep) (s : Sampling) : Prop where
  histories : ∀ scope, (w.histories.get? scope).getD {} = s.history scope
  short : ∀ scope, (s.pool scope).length ≤ limit
  cells : w.cells.Holds (s.pixels.mapVal fun _ => Cell.column)
  count : w.count = s.n
  length : s.n = s.bounds.length
  minimum : w.minimum = s.bounds.min?
  maximum : w.maximum = s.bounds.max?

section Follows

variable {w : Sweep} {s : Sampling} {metric : Metric} {view : View}

theorem Follows.nil : Follows {} {} where
  histories _ := rfl
  short _ := Nat.zero_le _
  cells := .nil
  count := rfl
  length := rfl
  minimum := rfl
  maximum := rfl

theorem Follows.total (h : Follows w s) (total : Nat) : Follows w { s with total := total } :=
  ⟨h.histories, h.short, h.cells, h.count, h.length, h.minimum, h.maximum⟩

theorem Follows.plot (h : Follows w s) (hview : view.start < view.stop) (hwidth : 0 < view.width)
    {p : Point} (hshows : view.shows p.ts)
    (hdirection : p.verdict.direction = -1 ∨ p.verdict.direction = 0 ∨ p.verdict.direction = 1) :
    Follows (w.plot view ⟨p.row, p.ts, p.value.value, (p.model, p.serviceTier, p.effort)⟩ p.sample)
      (s.plot view p) where
  histories := h.histories
  short := h.short
  cells := by
    have hpixel := pixel_eq hview hwidth hshows
    unfold Sweep.plot Sampling.plot
    simp only [hpixel]
    rw [set_mapVal, column_add _ hdirection]
    have hupsert := h.cells.upsert
      (p.model, p.serviceTier, min ⌊view.position p.ts⌋.toNat (view.width - 1))
      (Column.of p.sample) (·.add p.sample)
    rw [get?_mapVal] at hupsert
    cases hcell : s.pixels.get?
      (p.model, p.serviceTier, min ⌊view.position p.ts⌋.toNat (view.width - 1)) with
    | none =>
      rw [hcell] at hupsert
      exact hupsert
    | some cell =>
      rw [hcell] at hupsert
      exact hupsert
  count := congrArg (· + 1) h.count
  length := by simp [Sampling.plot, h.length]
  minimum := by
    change some (w.minimum.elim p.value.value fun m => min m p.value.value) = _
    rw [h.minimum]
    unfold Sampling.plot
    cases hbounds : s.bounds with
    | nil => rfl
    | cons x xs =>
      rw [cons_append, min?_cons', min?_cons', foldl_append]
      rfl
  maximum := by
    change some (w.maximum.elim p.value.value fun m => max m p.value.value) = _
    rw [h.maximum]
    unfold Sampling.plot
    cases hbounds : s.bounds with
    | nil => rfl
    | cons x xs =>
      rw [cons_append, max?_cons', max?_cons', foldl_append]
      rfl

section

variable (h : Follows w s)
  (hsampled : metric.sampled)
  (hview : view.start < view.stop)
  (hwidth : 0 < view.width)

include h hsampled hview hwidth

theorem Follows.add (index : Nat) (row : Row) {value : Option Value} {n : Num}
    (hvalue : valid value = some n) : Follows (w.add view ⟨index, row.ts, n.value, row.scope⟩)
      (s.add metric view index row value true) := by
  have hown := before_history (h.short row.scope) (rfl : row.scope = row.scope)
  obtain ⟨pools, pending, hframe⟩ := settle_frame s row.scope row.ts
  have hpixels : (s.before row).pixels = s.pixels := by rw [Sampling.before, hframe]
  have hn : (s.before row).n = s.n := by rw [Sampling.before, hframe]
  have hbounds : (s.before row).bounds = s.bounds := by rw [Sampling.before, hframe]
  have hpended : Follows { w with
      histories := w.histories.set row.scope
        (((s.history row.scope).settle row.ts).pend row.ts n.value) }
      ((s.before row).pend row.scope row.ts n.value) := by
    constructor
    · intro scope
      rw [pend_history, hown, Sampling.before, settle_history (h.short row.scope), get?_set]
      by_cases hscope : scope = row.scope
      · simp [hscope]
      · simp [hscope, h.histories]
    · exact fun scope => settle_short h.short
    · simpa only [Sampling.pend, hpixels] using h.cells
    · simpa only [Sampling.pend, hn] using h.count
    · simpa only [Sampling.pend, hn, hbounds] using h.length
    · simpa only [Sampling.pend, hbounds] using h.minimum
    · simpa only [Sampling.pend, hbounds] using h.maximum
  have hsample : (s.assessed index row n).sample =
      ((s.history row.scope).settle row.ts).sample index n.value := by
    rw [← hown]
    exact sample_eq ((s.before row).history row.scope) index row n
  rw [add_valid hsampled hvalue]
  unfold Sweep.add
  simp only [h.histories]
  by_cases hshows : view.shows row.ts
  · have hinside : ¬(row.ts < view.start ∨ view.stop < row.ts) := by
      unfold View.shows at hshows
      simp only [Bool.and_eq_true, decide_eq_true_eq] at hshows
      rintro (hbefore | hafter) <;> linarith
    have hdirection : (s.assessed index row n).verdict.direction = -1 ∨
        (s.assessed index row n).verdict.direction = 0 ∨
        (s.assessed index row n).verdict.direction = 1 := direction_cases _ _
    have hplot := hpended.plot (p := s.assessed index row n) hview hwidth hshows hdirection
    rw [if_neg hinside, if_pos hshows, ← hsample]
    exact hplot
  · have houtside : row.ts < view.start ∨ view.stop < row.ts := by
      unfold View.shows at hshows
      simp only [Bool.and_eq_true, decide_eq_true_eq, not_and_or, not_le] at hshows
      exact hshows
    rw [if_pos houtside, if_neg hshows]
    exact hpended

theorem Follows.step (index : Nat) (row : Row) :
    Follows ((observation metric.field metric.effort index row).toList.foldl (Sweep.add view) w)
      (s.step metric view index row) := by
  unfold observation Sampling.step
  cases hskip : row.skipped metric.effort with
  | true =>
    unfold Row.skipped at hskip
    rw [if_pos rfl, if_pos hskip]
    exact h
  | false =>
    have hkeep : ¬(metric.effort.any fun wanted => label row.effort ≠ wanted) := by
      rw [← Row.skipped, hskip]
      simp
    rw [if_neg (by simp), if_neg hkeep]
    have htotal : Follows w
        (if view.shows row.ts then { s with total := s.total + 1 } else s) := by
      split
      · exact h.total _
      · exact h
    cases hvalue : valid (row.items.get? metric.field) with
    | none =>
      rw [add_invalid hvalue]
      exact htotal
    | some n => exact htotal.add hsampled hview hwidth index row hvalue

theorem Follows.loop (index : Nat) (rows : List Row) :
    Follows ((observations metric.field metric.effort index rows).foldl (Sweep.add view) w)
      (Sampling.loop metric view index rows s) := by
  induction rows generalizing index w s with
  | nil => exact h
  | cons row rows ih =>
    rw [observations, foldl_append, Sampling.loop]
    exact ih (h.step hsampled hview hwidth index row) (index + 1)

end

end Follows

end Codexon.Trends
