import Codexon.Trends.Agreement

/-!
# Codexon.Trends.Selected

The points of a panel, and the panel that is restored from what the extension selected.
-/

namespace Codexon.Trends

open List

/-! ## the points of a sampling -/

section Points

variable {s : Sampling} {metric : Metric} {view : View} {P : Point → Prop}

def Cell.points (cell : Cell) : List Point :=
  [cell.first, cell.low, cell.high, cell.last] ++ cell.anomalies

/-- All points of a sampling satisfy `P`. -/
def Sampling.Every (P : Point → Prop) (s : Sampling) : Prop :=
  ∀ e ∈ s.pixels.entries, ∀ p ∈ e.2.points, P p

theorem every_add {cell : Cell} {p : Point} (h : ∀ q ∈ cell.points, P q) (hp : P p) :
    ∀ q ∈ (cell.add p).points, P q := by
  simp only [Cell.points, cons_append, nil_append, mem_cons, forall_eq_or_imp] at h ⊢
  obtain ⟨hfirst, hlow, hhigh, hlast, hanomalies⟩ := h
  refine ⟨hfirst, ?_, ?_, hp, fun q hq => ?_⟩
  · unfold Cell.add
    dsimp only
    split
    · exact hp
    · exact hlow
  · unfold Cell.add
    dsimp only
    split
    · exact hp
    · exact hhigh
  · unfold Cell.add at hq
    dsimp only at hq
    split at hq
    · exact hanomalies q hq
    · obtain hq | rfl : q ∈ cell.anomalies ∨ q = p := by simpa using hq
      · exact hanomalies q hq
      · exact hp

theorem every_plot (h : s.Every P) {p : Point} (hp : P p) : (s.plot view p).Every P := by
  intro e he
  unfold Sampling.plot at he
  obtain ⟨k, cell⟩ := e
  have hget := Dict.get?_eq_some.mpr he
  rw [Dict.get?_set] at hget
  split at hget
  · obtain rfl := Option.some.inj hget
    refine every_add (fun q hq => ?_) hp
    cases hcell : s.pixels.get? _ with
    | none =>
      rw [hcell] at hq
      obtain rfl : q = p := by simpa [Cell.points, Cell.of] using hq
      exact hp
    | some cell =>
      rw [hcell] at hq
      exact h _ (Dict.get?_eq_some.mp hcell) q hq
  · exact h _ (Dict.get?_eq_some.mp hget)

theorem every_settle (h : s.Every P) (scope : Scope) (ts : ℚ) : (s.settle scope ts).Every P := by
  obtain ⟨pools, pending, hframe⟩ := settle_frame s scope ts
  rw [hframe]
  exact h

theorem settle_total (s : Sampling) (total : Nat) (scope : Scope) (ts : ℚ) :
    ({ s with total := total } : Sampling).settle scope ts =
      { s.settle scope ts with total := total } := by
  simp only [Sampling.settle]
  cases s.pending.get? scope with
  | none => rfl
  | some prior =>
    by_cases h : prior.1 < ts
    · simp only [h, if_true]
      rfl
    · simp only [h, if_false]
      rfl

theorem assessed_total (s : Sampling) (total index : Nat) (row : Row) (n : Num) :
    ({ s with total := total } : Sampling).assessed index row n = s.assessed index row n := by
  unfold Sampling.assessed Sampling.before
  rw [settle_total]
  rfl

theorem every_added (hsampled : metric.sampled) (h : s.Every P) {index : Nat} {row : Row}
    {value : Option Value} (hpoint : ∀ n, valid value = some n → P (s.assessed index row n)) :
    (s.add metric view index row value true).Every P := by
  cases hvalue : valid value with
  | none =>
    rw [add_invalid hvalue]
    exact h
  | some n =>
    have hbefore : ((s.before row).pend row.scope row.ts n.value).Every P :=
      every_settle h row.scope row.ts
    rw [add_valid hsampled hvalue]
    split
    · exact every_plot hbefore (hpoint n hvalue)
    · exact hbefore

theorem every_step (hsampled : metric.sampled) (h : s.Every P) {index : Nat} {row : Row}
    (hpoint : row.skipped metric.effort = false → ∀ n,
      valid (row.items.get? metric.field) = some n → P (s.assessed index row n)) :
    (s.step metric view index row).Every P := by
  unfold Sampling.step
  cases hskip : row.skipped metric.effort with
  | true =>
    unfold Row.skipped at hskip
    rw [if_pos hskip]
    exact h
  | false =>
    have hpoint := hpoint hskip
    unfold Row.skipped at hskip
    have hkeep : ¬(metric.effort.any fun wanted => label row.effort ≠ wanted) := by
      rw [hskip]
      simp
    rw [if_neg hkeep]
    split
    · apply every_added hsampled (s := { s with total := s.total + 1 }) h
      intro n hvalue
      rw [assessed_total]
      exact hpoint n hvalue
    · exact every_added hsampled h hpoint

/-- A point is what `restore` makes of its row. -/
def Drawn (rows : List Row) (field : Field) (p : Point) : Prop :=
  ∃ row n previous, rows[p.row]? = some row ∧ row.items.get? field = some (.number n) ∧
    p = row.point p.row n (assessment n.value previous false true)

theorem number_of_valid {value : Option Value} {n : Num} (h : valid value = some n) :
    value = some (.number n) := by
  unfold valid at h
  split at h
  · split at h
    · rw [Option.some.inj h]
    · contradiction
  · contradiction

theorem every_loop (hsampled : metric.sampled) {all : List Row}
    (h : s.Every (Drawn all metric.field)) {rows : List Row} {index : Nat}
    (hrows : all.drop index = rows) :
    (Sampling.loop metric view index rows s).Every (Drawn all metric.field) := by
  induction rows generalizing index s with
  | nil => exact h
  | cons row rows ih =>
    have hrow : all[index]? = some row := by
      rw [← head?_drop, hrows]
      rfl
    have hrest : all.drop (index + 1) = rows := by
      rw [← tail_drop, hrows]
      rfl
    refine ih (every_step hsampled h fun _ n hvalue => ?_) hrest
    exact ⟨row, n, _, hrow, number_of_valid hvalue, rfl⟩

end Points

/-! ## what the extension selects -/

section Selected

variable {rows : List Row} {field : Field} {cell : Cell}

def Point.output (p : Point) : SampleOutput := p.sample.output p.count

theorem drawn_count {p : Point} (h : Drawn rows field p) : p.count = none := by
  obtain ⟨row, n, previous, -, -, hpoint⟩ := h
  rw [hpoint]
  rfl

theorem unseen_sample (points seen : List Point) :
    (points.map Point.sample).foldl (fun seen s =>
        if s.row ∈ seen.map Sample.row then seen else seen ++ [s]) (seen.map Point.sample) =
      (points.foldl (fun seen p =>
        if p.row ∈ seen.map Point.row then seen else seen ++ [p]) seen).map Point.sample := by
  induction points generalizing seen with
  | nil => rfl
  | cons p points ih =>
    have hrows : (seen.map Point.sample).map Sample.row = seen.map Point.row := by
      rw [List.map_map]
      rfl
    have hrow : p.sample.row = p.row := rfl
    rw [map_cons, foldl_cons, foldl_cons, hrows, hrow, ← ih]
    by_cases hseen : p.row ∈ seen.map Point.row
    · rw [if_pos hseen, if_pos hseen]
    · rw [if_neg hseen, if_neg hseen, map_append]
      rfl

theorem mem_unique {points seen : List Point} {p : Point}
    (h : p ∈ points.foldl (fun seen p =>
      if p.row ∈ seen.map Point.row then seen else seen ++ [p]) seen) : p ∈ seen ∨ p ∈ points := by
  induction points generalizing seen with
  | nil => exact .inl h
  | cons q points ih =>
    obtain hseen | hpoints := ih h
    · dsimp only at hseen
      split at hseen
      · exact .inl hseen
      · grind
    · exact .inr (mem_cons_of_mem _ hpoints)

theorem mem_samples {q : Point} (h : q ∈ cell.samples) :
    ∃ p ∈ cell.points, ∃ count, q = { p with count := count } := by
  have hanomaly : ∀ direction, q ∈ (cell.anomaly direction).toList →
      ∃ p ∈ cell.points, ∃ count, q = { p with count := count } := by
    intro direction hq
    unfold Cell.anomaly at hq
    simp only [Option.mem_toList, Option.map_eq_some_iff] at hq
    obtain ⟨p, hp, rfl⟩ := hq
    have hmem : p ∈ cell.anomalies := mem_of_mem_filter (mem_of_mem_head? hp)
    exact ⟨p, mem_append_right _ hmem, _, rfl⟩
  unfold Cell.samples at h
  obtain h | h := mem_append.mp h
  · obtain h | h := mem_append.mp h
    · obtain h | h := mem_unique h
      · contradiction
      · exact ⟨q, mem_append_left _ h, q.count, rfl⟩
    · exact hanomaly (-1) h
  · exact hanomaly 1 h

theorem samples_column (h : ∀ p ∈ cell.points, Drawn rows field p) :
    cell.column.samples = cell.samples.map Point.output := by
  have hcounted : ∀ direction, (counted cell.anomalies direction).toList.map
      (fun anomaly => anomaly.1.output (some anomaly.2)) =
        (cell.anomaly direction).toList.map Point.output := by
    intro direction
    unfold counted Cell.anomaly
    dsimp only
    cases (cell.anomalies.filter (·.verdict.direction = direction)).head? with
    | none => rfl
    | some p => rfl
  have hunique : (unseen [cell.first.sample, cell.low.sample, cell.high.sample,
      cell.last.sample]).map (·.output none) =
        (unique [cell.first, cell.low, cell.high, cell.last]).map Point.output := by
    have hsample := unseen_sample [cell.first, cell.low, cell.high, cell.last] []
    unfold unseen unique
    simp only [map_cons, map_nil] at hsample
    rw [hsample, List.map_map]
    refine map_congr_left fun p hp => ?_
    have hmem := (mem_unique hp).resolve_left (by simp)
    have hcount := drawn_count (h p (mem_append_left _ hmem))
    simp [Point.output, hcount]
  unfold Column.samples Cell.samples Cell.column
  rw [map_append, map_append, map_append, hunique, hcounted, hcounted, append_assoc]

theorem status_output {p : Point} (h : Drawn rows field p) :
    p.output.status = p.verdict.status := by
  obtain ⟨row, n, previous, -, -, hpoint⟩ := h
  have hverdict : p.verdict = assessment n.value previous false true := by
    rw [hpoint]
    rfl
  unfold SampleOutput.status Point.output Point.sample Sample.output
  dsimp only
  rw [hverdict]
  unfold assessment
  by_cases hfew : previous.length < 10
  · simp [hfew]
  · simp only [Bool.not_true, Bool.false_eq_true, if_false, hfew]
    split
    · split <;> simp
    · simp

theorem restore_output {p : Point} (h : Drawn rows field p) (count : Option Nat) :
    restore rows field ({ p with count := count } : Point).output =
      .ok { p with count := count } := by
  have hstatus : ({ p with count := count } : Point).output.status = p.verdict.status := by
    change p.output.status = _
    exact status_output h
  obtain ⟨row, n, previous, hrow, hitem, hpoint⟩ := h
  have hread : item rows ({ p with count := count } : Point).output.row = .ok row := by
    change item rows p.row = _
    unfold item
    rw [hrow]
  unfold restore
  simp only [hread, bind, Except.bind, hitem, hstatus]
  generalize assessment n.value previous false true = verdict at hpoint
  obtain ⟨index, ts, value, model, tier, effort, record, drawn, count'⟩ := p
  simp only [Row.point, Point.mk.injEq] at hpoint
  obtain ⟨-, rfl, rfl, rfl, rfl, rfl, rfl, rfl, -⟩ := hpoint
  rfl

theorem mapM_restore {points : List Point} (h : ∀ q ∈ points, restore rows field q.output = .ok q) :
    (points.map Point.output).mapM (restore rows field) = .ok points := by
  induction points with
  | nil => rfl
  | cons q points ih =>
    rw [map_cons, mapM_cons, h q mem_cons_self, ih fun r hr => h r (mem_cons_of_mem _ hr)]
    rfl

end Selected

/-! ## the panels -/

section Panel

variable {metric : Metric} {view : View} {rows : List Row}

theorem total_add (s : Sampling) (index : Nat) (row : Row) (value : Option Value) :
    (s.add metric view index row value true).total = s.total := by
  unfold Sampling.add
  split
  · rfl
  · dsimp only
    have hsettle : ∀ scope, (s.settle scope row.ts).total = s.total := fun scope => by
      obtain ⟨pools, pending, hframe⟩ := settle_frame s scope row.ts
      rw [hframe]
    split
    · exact hsettle _
    · exact hsettle _

theorem total_loop (s : Sampling) (index : Nat) (rows : List Row) :
    (Sampling.loop metric view index rows s).total = s.total + shown view metric.effort rows := by
  induction rows generalizing s index with
  | nil => rfl
  | cons row rows ih =>
    rw [Sampling.loop, ih]
    unfold Sampling.step
    cases hskip : row.skipped metric.effort with
    | true =>
      have hshown : shown view metric.effort (row :: rows) = shown view metric.effort rows := by
        simp [shown, hskip]
      unfold Row.skipped at hskip
      rw [if_pos hskip, hshown]
    | false =>
      have hshown : shown view metric.effort (row :: rows) =
          (if view.shows row.ts then 1 else 0) + shown view metric.effort rows := by
        simp [shown, countP_cons, hskip, add_comm]
      unfold Row.skipped at hskip
      have hkeep : ¬(metric.effort.any fun wanted => label row.effort ≠ wanted) := by
        rw [hskip]
        simp
      rw [if_neg hkeep, total_add, hshown]
      split
      · simp [add_assoc]
      · simp

theorem panel_bounds (n total : Nat) (samples : List Point) (bounds : List ℚ) :
    Panel.of n total samples (if bounds.length = 0 then [] else
        [bounds.min?.getD 0, bounds.max?.getD 0]) = Panel.of n total samples bounds := by
  obtain ⟨hlow, hhigh⟩ := Statistics.bounds_eq bounds 0 0
  unfold Panel.of
  rw [hlow, hhigh]

theorem panelNative_eq {w : Sweep} {s : Sampling} (h : Follows w s)
    (hdrawn : s.Every (Drawn rows metric.field)) {total : Nat} (htotal : s.total = total) :
    panelNative metric rows {
        selected := w.cells.cells.flatMap Column.samples
        count := w.count
        total := total
        minimum := if w.count = 0 then 0 else w.minimum.getD 0
        maximum := if w.count = 0 then 1 else w.maximum.getD 0 } =
      .ok (Panel.of s.n s.total (s.pixels.entries.flatMap fun e => e.2.samples) s.bounds) := by
  have hselected : w.cells.cells.flatMap Column.samples =
      (s.pixels.entries.flatMap fun e => e.2.samples).map Point.output := by
    rw [h.cells.cells, map_flatMap]
    simp only [Dict.mapVal, List.map_map, flatMap_map]
    refine flatMap_congr fun e he => ?_
    exact samples_column (hdrawn e he)
  have hrestore : ∀ q ∈ s.pixels.entries.flatMap fun e => e.2.samples,
      restore rows metric.field q.output = .ok q := by
    intro q hq
    obtain ⟨e, he, hq⟩ := mem_flatMap.mp hq
    obtain ⟨p, hp, count, rfl⟩ := mem_samples hq
    exact restore_output (hdrawn e he p hp) count
  have hbounds : (if w.count = 0 then [] else [if w.count = 0 then 0 else w.minimum.getD 0,
      if w.count = 0 then 1 else w.maximum.getD 0]) =
        if s.bounds.length = 0 then [] else [s.bounds.min?.getD 0, s.bounds.max?.getD 0] := by
    rw [h.count, h.length, h.minimum, h.maximum]
    split <;> rfl
  unfold panelNative
  rw [hselected, mapM_restore hrestore]
  change Except.ok (Panel.of w.count total _ (if w.count = 0 then [] else _)) = _
  rw [hbounds, panel_bounds, h.count, htotal]

/-- The extension fails where the integers it reads might not be exact, and else it selects what
Python draws. -/
theorem trendSamples_agrees (hsampled : metric.sampled) (hview : view.start < view.stop)
    (hwidth : 0 < view.width) (hrows : ∀ row ∈ rows, row.Readable) :
    Agrees (trendSamples rows metric.field view metric.effort) (panelNative metric rows)
      (spent metric.field metric.effort rows) (panelPython metric view rows) := by
  have hguard : ¬(view.width = 0 ∨ view.stop ≤ view.start) := by
    rintro (h | h)
    · omega
    · linarith
  have hspends : Spends (observeRows metric.field view metric.effort 0 rows)
      (spent metric.field metric.effort rows) _ := observeRows_spends hrows 0
  have hread := hspends.run'
  unfold Agrees trendSamples
  rw [if_neg hguard, hread]
  by_cases hspent : spent metric.field metric.effort rows ≤ largestExact
  · rw [if_pos hspent, if_pos hspent]
    have hfollows := Follows.nil.loop hsampled hview hwidth 0 rows
    have hdrawn : (Sampling.loop metric view 0 rows {}).Every (Drawn rows metric.field) :=
      every_loop hsampled (fun e he => by simp at he) rfl
    have htotal : (Sampling.loop metric view 0 rows {}).total = shown view metric.effort rows := by
      rw [total_loop, Nat.zero_add]
    exact ⟨_, rfl, panelNative_eq hfollows hdrawn htotal⟩
  · rw [if_neg hspent, if_neg hspent]
    rfl

theorem panel_eq (native : Bool) (hsampled : metric.sampled) (hview : view.start < view.stop)
    (hwidth : 0 < view.width) (hrows : ∀ row ∈ rows, row.Readable) :
    panel native metric view rows = .ok (panelPython metric view rows) := by
  have hagrees := trendSamples_agrees hsampled hview hwidth hrows
  unfold panel
  unfold Agrees at hagrees
  cases native with
  | false => rfl
  | true =>
    split at hagrees
    · obtain ⟨batch, hbatch, hrestore⟩ := hagrees
      simp only [hbatch, hrestore, if_true]
    · simp only [hagrees, if_true]

end Panel

end Codexon.Trends
