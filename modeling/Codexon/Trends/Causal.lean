import Codexon.Trends.Rolling
import Codexon.Trends.Selected

/-!
# Codexon.Trends.Causal

What a call is compared with: where the rows are in the order of time, the last calls of its scope
that were strictly before it.
-/

namespace Codexon.Trends

open List

/-! ## calls of a scope -/

def Row.call (metric : Metric) (scope : Scope) (row : Row) : Option (ℚ × ℚ) :=
  if row.skipped metric.effort || row.scope ≠ scope then none
  else (valid (row.items.get? metric.field)).map fun n => (row.ts, n.value)

def calls (metric : Metric) (rows : List Row) (scope : Scope) : List (ℚ × ℚ) :=
  rows.filterMap (Row.call metric scope)

def earlier (metric : Metric) (rows : List Row) (scope : Scope) (ts : ℚ) : List (ℚ × ℚ) :=
  (calls metric rows scope).filter fun c => c.1 < ts

/-- What a call is compared with: the last earlier calls. -/
def reference (metric : Metric) (rows : List Row) (scope : Scope) (ts : ℚ) : List ℚ :=
  ((earlier metric rows scope ts).map Prod.snd).rtake limit

def InOrder (rows : List Row) : Prop := rows.Pairwise fun a b => a.ts ≤ b.ts

variable {metric : Metric}

theorem ts_of_call {scope : Scope} {row : Row} {c : ℚ × ℚ}
    (h : row.call metric scope = some c) : c.1 = row.ts := by
  unfold Row.call at h
  split at h
  · contradiction
  · obtain ⟨n, -, rfl⟩ := Option.map_eq_some_iff.mp h
    rfl

variable {rows : List Row}

theorem exists_of_mem_calls {scope : Scope} {c : ℚ × ℚ}
    (h : c ∈ calls metric rows scope) : ∃ row ∈ rows, c.1 = row.ts := by
  obtain ⟨row, hrow, hcall⟩ := mem_filterMap.mp h
  exact ⟨row, hrow, ts_of_call hcall⟩

/-! ## histories -/

/-- A history of calls: those of the last time are pending. -/
inductive Keeps : History → List (ℚ × ℚ) → Prop
  | nil : Keeps {} []
  | cons {before tied : List (ℚ × ℚ)} {at_ : ℚ} (hbefore : ∀ c ∈ before, c.1 < at_)
      (htied : ∀ c ∈ tied, c.1 = at_) (hne : tied ≠ []) :
      Keeps ⟨(before.map Prod.snd).rtake limit, some at_, tied.map Prod.snd⟩ (before ++ tied)

section Keeps

variable {h : History} {cs : List (ℚ × ℚ)} {ts : ℚ}

theorem Keeps.settle (hkeeps : Keeps h cs) (hts : ∀ c ∈ cs, c.1 ≤ ts) :
    (h.settle ts).values = ((cs.filter fun c => c.1 < ts).map Prod.snd).rtake limit := by
  cases hkeeps with
  | nil => rfl
  | @cons before tied at_ hbefore htied hne =>
    obtain ⟨c, hc⟩ := exists_mem_of_ne_nil tied hne
    have hle : at_ ≤ ts := htied c hc ▸ hts c (mem_append_right _ hc)
    unfold History.settle
    by_cases hlt : at_ < ts
    · have hall : ((before ++ tied).filter fun c => c.1 < ts) = before ++ tied := by
        rw [filter_eq_self]
        intro d hd
        obtain hd | hd := mem_append.mp hd
        · simpa using (hbefore d hd).trans hlt
        · simpa [htied d hd] using hlt
      rw [if_pos (by simpa using hlt), hall, map_append]
      dsimp only
      rw [Statistics.foldl_push (by decide) (Statistics.length_rtake_le _ _),
        Statistics.rtake_rtake_append]
    · obtain rfl : at_ = ts := le_antisymm hle (not_lt.mp hlt)
      have hbefore' : (before.filter fun c => c.1 < at_) = before := by
        rw [filter_eq_self]
        intro d hd
        simpa using hbefore d hd
      have htied' : (tied.filter fun c => c.1 < at_) = [] := by
        rw [filter_eq_nil_iff]
        intro d hd
        simp [htied d hd]
      rw [if_neg (by simp), filter_append, hbefore', htied', List.append_nil]

theorem Keeps.pend (hkeeps : Keeps h cs) (hts : ∀ c ∈ cs, c.1 ≤ ts) (value : ℚ) :
    Keeps ((h.settle ts).pend ts value) (cs ++ [(ts, value)]) := by
  cases hkeeps with
  | nil => exact @Keeps.cons [] [(ts, value)] ts (by simp) (by simp) (by simp)
  | @cons before tied at_ hbefore htied hne =>
    obtain ⟨c, hc⟩ := exists_mem_of_ne_nil tied hne
    have hle : at_ ≤ ts := htied c hc ▸ hts c (mem_append_right _ hc)
    unfold History.settle History.pend
    by_cases hlt : at_ < ts
    · rw [if_pos (by simpa using hlt)]
      dsimp only
      rw [Statistics.foldl_push (by decide) (Statistics.length_rtake_le _ _),
        Statistics.rtake_rtake_append, ← map_append]
      have hall : ∀ d ∈ before ++ tied, d.1 < ts := by
        intro d hd
        obtain hd | hd := mem_append.mp hd
        · exact (hbefore d hd).trans hlt
        · exact (htied d hd) ▸ hlt
      exact @Keeps.cons (before ++ tied) [(ts, value)] ts hall (by simp) (by simp)
    · obtain rfl : at_ = ts := le_antisymm hle (not_lt.mp hlt)
      have hmore : ∀ d ∈ tied ++ [(at_, value)], d.1 = at_ := by
        intro d hd
        obtain hd | rfl : d ∈ tied ∨ d = (at_, value) := by simpa using hd
        · exact htied d hd
        · rfl
      have hcons := Keeps.cons hbefore hmore (by simp)
      rw [if_neg (by simp), append_assoc]
      simpa using hcons

end Keeps

/-! ## the loop -/

section Loop

variable {metric : Metric} {view : View} {all : List Row}

def Point.scope (p : Point) : Scope := (p.model, p.serviceTier, p.effort)

def Compared (metric : Metric) (all : List Row) (p : Point) : Prop :=
  p.verdict = assessment p.value.value (reference metric all p.scope p.ts) false true

theorem calls_append (done : List Row) (row : Row) (scope : Scope) :
    calls metric (done ++ [row]) scope =
      calls metric done scope ++ (row.call metric scope).toList := by
  unfold calls
  rw [filterMap_append]
  cases hcall : row.call metric scope <;> simp [hcall]

theorem earlier_eq {done rest : List Row} {row : Row} (horder : InOrder (done ++ row :: rest))
    (scope : Scope) : earlier metric (done ++ row :: rest) scope row.ts =
      (calls metric done scope).filter fun c => c.1 < row.ts := by
  unfold earlier calls
  rw [filterMap_append, filter_append]
  have hrest : ((row :: rest).filterMap (Row.call metric scope)).filter
      (fun c => c.1 < row.ts) = [] := by
    rw [filter_eq_nil_iff]
    intro c hc
    obtain ⟨r, hr, hcall⟩ := mem_filterMap.mp hc
    have hts := ts_of_call hcall
    obtain ⟨-, hsorted, -⟩ := pairwise_append.mp horder
    have hle : row.ts ≤ r.ts := by
      obtain rfl | hr := mem_cons.mp hr
      · exact le_rfl
      · exact (pairwise_cons.mp hsorted).1 r hr
    simpa [hts] using hle
  rw [hrest, List.append_nil]

/-- Every history is that of the calls so far, and every point is compared with its reference. -/
structure Causal (metric : Metric) (all done : List Row) (s : Sampling) : Prop where
  short : ∀ scope, (s.pool scope).length ≤ limit
  keeps : ∀ scope, Keeps (s.history scope) (calls metric done scope)
  every : s.Every (Compared metric all)

theorem Causal.step (view : View) (index : Nat) {done rest : List Row} {row : Row} {s : Sampling}
    (h : Causal metric (done ++ row :: rest) done s) (hsampled : metric.sampled)
    (horder : InOrder (done ++ row :: rest)) :
    Causal metric (done ++ row :: rest) (done ++ [row]) (s.step metric view index row) := by
  have hts : ∀ scope, ∀ c ∈ calls metric done scope, c.1 ≤ row.ts := by
    intro scope c hc
    obtain ⟨r, hr, hcall⟩ := exists_of_mem_calls hc
    obtain ⟨-, -, hbefore⟩ := pairwise_append.mp horder
    rw [hcall]
    exact hbefore r hr row mem_cons_self
  have hevery : (s.step metric view index row).Every (Compared metric (done ++ row :: rest)) := by
    apply every_step hsampled h.every
    intro _ n _
    have hpool : (s.before row).pool row.scope =
        reference metric (done ++ row :: rest) row.scope row.ts := by
      have hvalues := congrArg History.values
        (before_history (h.short row.scope) (rfl : row.scope = row.scope))
      unfold reference
      rw [earlier_eq horder, ← (h.keeps row.scope).settle (hts row.scope)]
      exact hvalues
    unfold Compared Sampling.assessed
    rw [hpool]
    rfl
  have hskipped : row.skipped metric.effort → ∀ scope, row.call metric scope = none := by
    intro hskip scope
    simp [Row.call, hskip]
  unfold Sampling.step at hevery ⊢
  cases hskip : row.skipped metric.effort with
  | true =>
    have hcalls : ∀ scope, calls metric (done ++ [row]) scope = calls metric done scope := by
      intro scope
      rw [calls_append, hskipped hskip]
      exact List.append_nil _
    unfold Row.skipped at hskip
    rw [if_pos hskip] at hevery ⊢
    exact ⟨h.short, fun scope => hcalls scope ▸ h.keeps scope, hevery⟩
  | false =>
    have hcall : ∀ scope, row.call metric scope = if row.scope ≠ scope then none else
        (valid (row.items.get? metric.field)).map fun n => (row.ts, n.value) := by
      intro scope
      simp [Row.call, hskip]
    have hkeep : ¬(metric.effort.any fun wanted => label row.effort ≠ wanted) := by
      rw [← Row.skipped, hskip]
      simp
    rw [if_neg hkeep] at hevery ⊢
    have htotal : Causal metric (done ++ row :: rest) done
        (if view.shows row.ts then { s with total := s.total + 1 } else s) := by
      split
      · exact ⟨h.short, h.keeps, h.every⟩
      · exact h
    cases hvalue : valid (row.items.get? metric.field) with
    | none =>
      have hcalls : ∀ scope, calls metric (done ++ [row]) scope = calls metric done scope := by
        intro scope
        rw [calls_append, hcall, hvalue]
        simp
      rw [add_invalid hvalue] at hevery ⊢
      exact ⟨htotal.short, fun scope => hcalls scope ▸ htotal.keeps scope, hevery⟩
    | some n =>
      refine ⟨fun scope => add_short hsampled htotal.short hvalue, fun scope => ?_, hevery⟩
      rw [add_history hsampled (htotal.short row.scope) hvalue, calls_append, hcall, hvalue]
      by_cases hscope : scope = row.scope
      · subst hscope
        simpa using (htotal.keeps row.scope).pend (hts row.scope) n.value
      · simpa [hscope, Ne.symm hscope] using htotal.keeps scope

theorem Causal.loop {done rest : List Row} {s : Sampling} {index : Nat}
    (h : Causal metric (done ++ rest) done s) (hsampled : metric.sampled)
    (horder : InOrder (done ++ rest)) :
    (Sampling.loop metric view index rest s).Every (Compared metric (done ++ rest)) := by
  induction rest generalizing done s index with
  | nil => exact h.every
  | cons row rest ih =>
    have hstep := h.step view index hsampled horder
    have hassoc : done ++ row :: rest = (done ++ [row]) ++ rest := by simp
    rw [hassoc] at hstep horder ⊢
    exact ih hstep horder

theorem Causal.nil (metric : Metric) (all : List Row) : Causal metric all [] {} where
  short _ := Nat.zero_le _
  keeps _ := .nil
  every e he := by simp at he

theorem compared_of_mem {rows : List Row} (hsampled : metric.sampled) (horder : InOrder rows)
    {p : Point} (hp : p ∈ (panelPython metric view rows).points) : Compared metric rows p := by
  have hevery : (Sampling.loop metric view 0 rows {}).Every (Compared metric ([] ++ rows)) :=
    (Causal.nil metric ([] ++ rows)).loop hsampled horder
  unfold panelPython Panel.of at hp
  rw [Keyed.mem_sort] at hp
  obtain ⟨e, he, hp⟩ := mem_flatMap.mp hp
  obtain ⟨q, hq, count, rfl⟩ := mem_samples hp
  exact hevery e he q hq

end Loop

/-! ## rows of one time in another order -/

def Cut (metric : Metric) (rows : List Row) (scope : Scope) (ts : ℚ) : Prop :=
  let times := (earlier metric rows scope ts).map Prod.fst
  ∃ time ∈ times.take (times.length - limit), time ∈ times.drop (times.length - limit)

instance (metric : Metric) (rows : List Row) (scope : Scope) (ts : ℚ) :
    Decidable (Cut metric rows scope ts) :=
  inferInstanceAs (Decidable (∃ time ∈ _, _))

theorem earlier_perm {other : List Row} (h : rows.Perm other) (scope : Scope) (ts : ℚ) :
    (earlier metric rows scope ts).Perm (earlier metric other scope ts) :=
  (h.filterMap _).filter _

theorem earlier_sorted (h : InOrder rows) (scope : Scope)
    (ts : ℚ) : (earlier metric rows scope ts).Pairwise fun a b => a.1 ≤ b.1 := by
  apply List.Pairwise.filter
  unfold calls
  rw [pairwise_filterMap]
  refine h.imp fun {a b} hle c hc d hd => ?_
  rw [ts_of_call hc, ts_of_call hd]
  exact hle

theorem reference_perm {other : List Row} (h : rows.Perm other)
    (horder : InOrder rows) (horder' : InOrder other) {scope : Scope} {ts : ℚ}
    (hcut : ¬Cut metric rows scope ts) :
    (reference metric rows scope ts).Perm (reference metric other scope ts) := by
  have hkept : ((earlier metric rows scope ts).rtake limit).Perm
      ((earlier metric other scope ts).rtake limit) :=
    Statistics.perm_rtake (earlier_perm h scope ts) (earlier_sorted horder scope ts)
      (earlier_sorted horder' scope ts) fun t ht hkept =>
        hcut ⟨t, by simpa using ht, by simpa using hkept⟩
  unfold reference List.rtake
  rw [length_map, length_map, ← map_drop, ← map_drop]
  exact hkept.map Prod.snd

theorem assessment_perm {previous other : List ℚ} (h : previous.Perm other) (value : ℚ)
    (cache complete : Bool) :
    assessment value previous cache complete = assessment value other cache complete := by
  have hmedian := Statistics.median_perm h
  have hmad := Statistics.median_perm (h.map fun x => |x - Statistics.median other|)
  unfold assessment
  simp only [h.length_eq, hmedian, hmad]

/-! ## the extension and Python -/

/-- Where the rows can be read, both prepare the same samples and populations; the extension gives
up only where the integers might not be exact.  In the order of time a call is compared with the
last earlier calls of its scope, in any order of calls of one time, unless the limit cuts those. -/
theorem trend_preparation (view : View) (rows : List Row) (hview : view.start < view.stop)
    (hwidth : 0 < view.width) (hrows : ∀ row ∈ rows, row.Readable ∧ row.Named) :
    (∀ metric : Metric, metric.sampled →
      Agrees (trendSamples rows metric.field view metric.effort) (panelNative metric rows)
          (spent metric.field metric.effort rows) (panelPython metric view rows) ∧
        panel true metric view rows = panel false metric view rows) ∧
    (∀ (metric : Metric) (windows : List Window),
      (∀ window ∈ windows, window.outside rows.length = false) →
        Agrees (trendPopulations rows metric windows)
            (fun output => .ok (groupNative metric output))
            (rows.map (rowSpent metric)).sum (groupPython rows metric windows) ∧
          group true rows metric windows = group false rows metric windows) ∧
    (InOrder rows → ∀ metric : Metric, metric.sampled →
      (∀ p ∈ (panelPython metric view rows).points,
        p.verdict = assessment p.value.value (reference metric rows p.scope p.ts) false true) ∧
      ∀ other : List Row, rows.Perm other → InOrder other →
        ∀ p ∈ (panelPython metric view rows).points, ∀ q ∈ (panelPython metric view other).points,
            p.scope = q.scope → p.ts = q.ts → p.value.value = q.value.value →
              ¬Cut metric rows p.scope p.ts → p.verdict = q.verdict) := by
  have hreadable : ∀ row ∈ rows, row.Readable := fun row hrow => (hrows row hrow).1
  have hnamed : ∀ row ∈ rows, row.Named := fun row hrow => (hrows row hrow).2
  refine ⟨fun metric hsampled => ⟨?_, ?_⟩, fun metric windows hwindows => ⟨?_, ?_⟩,
    fun horder metric hsampled => ⟨fun p hp => compared_of_mem hsampled horder hp, ?_⟩⟩
  · exact trendSamples_agrees hsampled hview hwidth hreadable
  · exact panel_eq true hsampled hview hwidth hreadable
  · exact trendPopulations_agrees metric hnamed hwindows
  · exact group_agrees true metric hnamed hwindows
  · intro other hperm horder' p hp q hq hscope hts hvalue hcut
    have hreference := reference_perm hperm horder horder' hcut
    have hpoint : p.verdict = _ := compared_of_mem hsampled horder hp
    have hpoint' : q.verdict = _ := compared_of_mem hsampled horder' hq
    rw [hpoint, hpoint', ← hscope, ← hts, ← hvalue]
    exact assessment_perm hreference _ _ _

def tookAt (ts duration : ℚ) : Row where
  ts := ts
  model := some [1]
  serviceTier := some [1]
  effort := some [1]
  items := { entries := [(.duration, .number { value := duration })] }

theorem readable_tookAt (ts duration : ℚ) :
    (tookAt ts duration).Readable ∧ (tookAt ts duration).Named := by
  have htext : Native.Encodable [1] := rfl
  have hread : Readable (some [1]) := fun t ht => Option.some.inj ht ▸ htext
  exact ⟨⟨hread, hread, hread⟩, rfl, rfl⟩

/-- Ten calls at one time, and one after them. -/
def durations : List Row := List.replicate 10 (tookAt 5 3) ++ [tookAt 6 4]

theorem trend_preparation_durations :
    panel true .duration ⟨0, 10, 64⟩ durations = panel false .duration ⟨0, 10, 64⟩ durations ∧
      group true durations .duration [⟨0, 11, 2, 10⟩] =
        group false durations .duration [⟨0, 11, 2, 10⟩] ∧
      ∀ p ∈ (panelPython .duration ⟨0, 10, 64⟩ durations).points, p.verdict =
          assessment p.value.value (reference .duration durations p.scope p.ts) false true := by
  have hrows : ∀ row ∈ durations, row.Readable ∧ row.Named := by
    intro row hrow
    obtain hrow | hrow := mem_append.mp hrow
    · rw [eq_of_mem_replicate hrow]
      exact readable_tookAt 5 3
    · rw [mem_singleton.mp hrow]
      exact readable_tookAt 6 4
  obtain ⟨hsamples, hgroups, hcausal⟩ :=
    trend_preparation ⟨0, 10, 64⟩ durations (by decide) (by decide) hrows
  have horder : InOrder durations := by
    unfold InOrder
    decide +kernel
  exact ⟨(hsamples .duration rfl).2, (hgroups .duration [⟨0, 11, 2, 10⟩] (by decide)).2,
    (hcausal horder .duration rfl).1⟩

/-- Rows that are not in the order of time: the last is the earliest. -/
def unordered : List Row := List.replicate 10 (tookAt 5 3) ++ [tookAt 6 3, tookAt 1 3]

/-- More calls of one time than the limit keeps, in two orders. -/
def tied (fast : Bool) : List Row :=
  (if fast then List.replicate 25 (tookAt 1 0) ++ List.replicate 26 (tookAt 1 10)
    else List.replicate 26 (tookAt 1 10) ++ List.replicate 25 (tookAt 1 0)) ++ [tookAt 2 3]

/-- A call can be compared with later ones where the rows are not in order, and with other calls of
the same time where the limit cuts them. -/
theorem trends_reordered : (¬∀ (metric : Metric) (view : View) (rows : List Row),
      ∀ p ∈ (panelPython metric view rows).points,
        p.verdict.baselineCount ≤ (earlier metric rows p.scope p.ts).length) ∧
    ¬∀ (metric : Metric) (view : View) (rows other : List Row),
      rows.Perm other → InOrder rows → InOrder other → ∀ p ∈ (panelPython metric view rows).points,
          ∀ q ∈ (panelPython metric view other).points,
            p.scope = q.scope → p.ts = q.ts → p.value.value = q.value.value →
              p.verdict = q.verdict := by
  constructor
  · intro h
    have hlater : ∃ p ∈ (panelPython .duration ⟨0, 10, 64⟩ unordered).points,
        (earlier .duration unordered p.scope p.ts).length < p.verdict.baselineCount := by
      decide +kernel
    obtain ⟨p, hp, hlt⟩ := hlater
    have hle := h .duration ⟨0, 10, 64⟩ unordered p hp
    omega
  · intro h
    have hperm : (tied true).Perm (tied false) := perm_append_comm.append_right _
    have horder : InOrder (tied true) := by
      unfold InOrder
      decide +kernel
    have horder' : InOrder (tied false) := by
      unfold InOrder
      decide +kernel
    have hother : ∃ p ∈ (panelPython .duration ⟨0, 10, 64⟩ (tied true)).points,
        ∃ q ∈ (panelPython .duration ⟨0, 10, 64⟩ (tied false)).points,
          p.scope = q.scope ∧ p.ts = q.ts ∧ p.value.value = q.value.value ∧
            p.verdict ≠ q.verdict := by
      decide +kernel
    obtain ⟨p, hp, q, hq, hscope, hts, hvalue, hne⟩ := hother
    exact hne (h .duration ⟨0, 10, 64⟩ (tied true) (tied false) hperm horder horder' p hp q hq hscope
      hts hvalue)

end Codexon.Trends
