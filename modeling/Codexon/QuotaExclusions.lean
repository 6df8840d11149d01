import Codexon.Edges
import Codexon.QuotaClip
import Codexon.Ranges

/-!
# Codexon.QuotaExclusions

`cachemonitor/quota_exclusions.py`: the edges that the user excluded are taken from the cycles, and
what is left of a cycle stays in disconnected intervals.
-/

namespace Codexon.QuotaExclusions

open List

open QuotaClip (Cycle Endpoint clip)

/-- A record of `exclusions`. -/
structure Exclusion where
  restoredAt : Option ℚ := none
  account : PyStr := []
  home : Option PyStr := none
  start : ℚ
  stop : ℚ

/-- A record of `cycle_clears`. -/
structure Clear where
  account : PyStr
  start : ℚ
  stop : ℚ

structure Report where
  home : PyStr := []
  exclusions : List Exclusion := []
  cycleClears : List Clear := []

def activeExclusions (report : Report) (account : PyStr) : List Exclusion :=
  report.exclusions.filter fun r =>
    r.restoredAt.isNone ∧ r.account = account ∧
      (report.home = [] ∨ r.home.getD report.home = report.home)

def records (report : Report) (account : PyStr) : List (ℚ × ℚ) :=
  (activeExclusions report account).map (fun r => (r.start, r.stop)) ++
    (report.cycleClears.filter fun r => r.account = account).map fun r => (r.start, r.stop)

def exclusionRanges (records : List (ℚ × ℚ)) : List (ℚ × ℚ) := Ranges.merge records

def excluded (ranges : List (ℚ × ℚ)) (edge : Endpoint × Endpoint) : Bool :=
  ranges.any fun r => r.1 < edge.2.1 && edge.1.1 < r.2

/-- What is kept; `applied` is `user_exclusions_applied`, and `kept` the time in the id. -/
structure Interval extends Cycle where
  applied : Bool := false
  kept : Option ℚ := none

def retained (ranges : List (ℚ × ℚ)) (cycle : Cycle) : List Interval :=
  if !ranges.any fun r => r.1 < cycle.stop && cycle.start < r.2 then [{ cycle with }]
  else
    (Edges.split (excluded ranges) cycle.endpoints).filterMap fun run =>
      match QuotaClip.span run with
      | none => none
      | some (first, last) => (clip cycle (some first.1) (some last.1)).map fun part =>
        { part with applied := true, kept := some first.1 }

/-- `retained_intervals`; the ranges of an account are made once. -/
def retainedIntervals (cycles : List Cycle) (report : Report) : List Interval :=
  cycles.flatMap fun cycle =>
    retained (exclusionRanges (records report cycle.account)) cycle

/-! ## the ends of a cycle -/

/-- The ends of a cycle are in the order of time, and between its start and its stop. -/
structure Observed (cycle : Cycle) : Prop where
  sorted : cycle.endpoints.Pairwise fun p q => p.1 ≤ q.1
  within : ∀ p ∈ cycle.endpoints, cycle.start ≤ p.1 ∧ p.1 ≤ cycle.stop

theorem within_of_sorted {points : List Endpoint} {first last : Endpoint}
    (hsorted : points.Pairwise fun p q => p.1 ≤ q.1)
    (hspan : QuotaClip.span points = some (first, last)) :
    ∀ p ∈ points, first.1 ≤ p.1 ∧ p.1 ≤ last.1 := by
  obtain ⟨hhead, hlast⟩ := QuotaClip.span_some hspan
  intro p hp
  constructor
  · cases points with
    | nil => simp at hp
    | cons q points =>
      have hq : q = first := by simpa using hhead
      subst hq
      rcases mem_cons.mp hp with rfl | hp
      · exact le_rfl
      · exact rel_of_pairwise_cons hsorted hp
  · rcases eq_nil_or_concat' points with rfl | ⟨before, q, rfl⟩
    · simp at hp
    · have hq : q = last := by simpa using hlast
      subst hq
      rcases mem_append.mp hp with hp | hp
      · exact (pairwise_append.mp hsorted).2.2 p hp q (by simp)
      · rw [mem_singleton.mp hp]

/-! ## what is kept of a cycle -/

theorem lt_of_excluded {ranges : List (ℚ × ℚ)} {a b c : Endpoint} (hab : a.1 ≤ b.1)
    (hbc : b.1 ≤ c.1) (hdrop : excluded ranges (a, b) = true)
    (hkeep : excluded ranges (b, c) = false) : a.1 < b.1 := by
  refine lt_of_le_of_ne hab fun heq => ?_
  simp only [excluded, any_eq_true, Bool.and_eq_true, decide_eq_true_eq] at hdrop
  obtain ⟨r, hr, hlo, hhi⟩ := hdrop
  have hexcluded : excluded ranges (b, c) = true := by
    simp only [excluded, any_eq_true, Bool.and_eq_true, decide_eq_true_eq]
    exact ⟨r, hr, hlo.trans_le hbc, heq ▸ hhi⟩
  rw [hkeep] at hexcluded
  contradiction

theorem lt_of_excluded' {ranges : List (ℚ × ℚ)} {a b c : Endpoint} (hab : a.1 ≤ b.1)
    (hbc : b.1 ≤ c.1) (hkeep : excluded ranges (a, b) = false)
    (hdrop : excluded ranges (b, c) = true) : b.1 < c.1 := by
  refine lt_of_le_of_ne hbc fun heq => ?_
  simp only [excluded, any_eq_true, Bool.and_eq_true, decide_eq_true_eq] at hdrop
  obtain ⟨r, hr, hlo, hhi⟩ := hdrop
  have hexcluded : excluded ranges (a, b) = true := by
    simp only [excluded, any_eq_true, Bool.and_eq_true, decide_eq_true_eq]
    exact ⟨r, hr, heq ▸ hlo, hab.trans_lt hhi⟩
  rw [hkeep] at hexcluded
  contradiction

section Run

variable {ranges : List (ℚ × ℚ)} {points run : List Endpoint} {runs : List (List Endpoint)}

theorem kept_of_run (h : Edges.IsSplit (excluded ranges) runs points) (hrun : run ∈ runs)
    {e : Endpoint × Endpoint} (he : e ∈ Edges.edges run) : excluded ranges e = false := by
  have hmem : e ∈ runs.flatMap Edges.edges := mem_flatMap.mpr ⟨run, hrun, he⟩
  rw [h.edges] at hmem
  simpa using (List.mem_filter.mp hmem).2

theorem filter_run (hsorted : points.Pairwise fun p q => p.1 ≤ q.1)
    (h : Edges.IsSplit (excluded ranges) runs points) (hrun : run ∈ runs) {first last : Endpoint}
    (hspan : QuotaClip.span run = some (first, last)) :
    (points.filter fun r => (some first.1).all (· ≤ r.1) && (some last.1).all (r.1 ≤ ·)) = run := by
  obtain ⟨before, after, hpoints, hleft, hright⟩ := Edges.split_block _ h hrun
  obtain ⟨hhead, hlast⟩ := QuotaClip.span_some hspan
  have hlong := QuotaClip.span_isSome.mp (hspan ▸ rfl : (QuotaClip.span run).isSome = true)
  rw [hpoints] at hsorted ⊢
  obtain ⟨hsorted', -, hafter⟩ := pairwise_append.mp hsorted
  obtain ⟨hbefore, hrunSorted, hcross⟩ := pairwise_append.mp hsorted'
  have hwithin := within_of_sorted hrunSorted hspan
  have hbeforeLt : ∀ p ∈ before, p.1 < first.1 := by
    intro p hp
    rcases eq_nil_or_concat' before with rfl | ⟨rest, w, rfl⟩
    · simp at hp
    · have hedge : w.1 < first.1 := by
        rcases run with _ | ⟨a, _ | ⟨b, run⟩⟩
        · simp at hlong
        · simp at hlong
        · have ha : a = first := by simpa using hhead
          subst ha
          exact lt_of_excluded (hcross w (by simp) a (by simp))
            (rel_of_pairwise_cons hrunSorted (by simp)) (hleft w (by simp) a (by simp))
            (kept_of_run h hrun (by simp : (a, b) ∈ Edges.edges (a :: b :: run)))
      rcases mem_append.mp hp with hp | hp
      · exact ((pairwise_append.mp hbefore).2.2 p hp w (by simp)).trans_lt hedge
      · rwa [mem_singleton.mp hp]
  have hafterLt : ∀ p ∈ after, last.1 < p.1 := by
    intro p hp
    cases after with
    | nil => simp at hp
    | cons w after =>
      have hedge : last.1 < w.1 := by
        rcases eq_nil_or_concat' run with rfl | ⟨init, b, rfl⟩
        · simp at hlong
        · rcases eq_nil_or_concat' init with rfl | ⟨init, a, rfl⟩
          · simp at hlong
          · have hb : b = last := by simpa using hlast
            subst hb
            have hedges := Edges.edges_concat (by simp : (init ++ [a]).getLast? = some a) (b := b)
            have hkept : excluded ranges (a, b) = false := by
              refine kept_of_run h hrun ?_
              rw [hedges]
              simp
            have hab := (pairwise_append.mp hrunSorted).2.2 a (by simp) b (by simp)
            exact lt_of_excluded' hab (hafter b (by simp) w (by simp)) hkept
              (hright b (by simp) w (by simp))
      rcases mem_cons.mp hp with rfl | hp
      · exact hedge
      · exact hedge.trans_le
          (rel_of_pairwise_cons (pairwise_append.mp hsorted).2.1 hp)
  have hnone : before.filter (fun r => (some first.1).all (· ≤ r.1) &&
      (some last.1).all (r.1 ≤ ·)) = [] := by
    rw [filter_eq_nil_iff]
    intro p hp
    simp [not_le.mpr (hbeforeLt p hp)]
  have hnone' : after.filter (fun r => (some first.1).all (· ≤ r.1) &&
      (some last.1).all (r.1 ≤ ·)) = [] := by
    rw [filter_eq_nil_iff]
    intro p hp
    simp [not_le.mpr (hafterLt p hp)]
  have hall : run.filter (fun r => (some first.1).all (· ≤ r.1) &&
      (some last.1).all (r.1 ≤ ·)) = run := by
    rw [filter_eq_self]
    intro p hp
    simp [hwithin p hp]
  rw [filter_append, filter_append, hnone, hnone', hall, nil_append, List.append_nil]

end Run

theorem retained_endpoints {ranges : List (ℚ × ℚ)} {cycle : Cycle} (h : Observed cycle)
    (hoverlap : (ranges.any fun r => r.1 < cycle.stop && cycle.start < r.2) = true) :
    (retained ranges cycle).map (·.endpoints) =
      (Edges.split (excluded ranges) cycle.endpoints).filter fun run => 2 ≤ run.length := by
  have hsplit := Edges.isSplit_split (excluded ranges) cycle.endpoints
  rw [retained, hoverlap]
  simp only [Bool.not_true, Bool.false_eq_true, if_false, map_filterMap]
  rw [← filterMap_eq_filter]
  refine filterMap_congr fun run hrun => ?_
  cases hspan : QuotaClip.span run with
  | none =>
    have hshort : ¬2 ≤ run.length := by
      rw [← QuotaClip.span_isSome, hspan]
      simp
    simp [Option.guard, hshort]
  | some ends =>
    obtain ⟨first, last⟩ := ends
    have hlong : 2 ≤ run.length := by
      rw [← QuotaClip.span_isSome, hspan]
      rfl
    have hwithin : cycle.within (some first.1) (some last.1) = run :=
      filter_run h.sorted hsplit hrun hspan
    have hclip : (clip cycle (some first.1) (some last.1)).isSome = true :=
      QuotaClip.clip_isSome.mpr (hwithin ▸ hlong)
    obtain ⟨part, hpart⟩ := Option.isSome_iff_exists.mp hclip
    have hendpoints := (QuotaClip.clip_eq_some hpart).1
    simp [Option.guard, hpart, hlong, hendpoints, hwithin]

theorem flatMap_long (runs : List (List Endpoint)) :
    (runs.filter fun run => 2 ≤ run.length).flatMap Edges.edges = runs.flatMap Edges.edges := by
  induction runs with
  | nil => rfl
  | cons run runs ih =>
    by_cases hlong : 2 ≤ run.length
    · simp [hlong, ih]
    · have hnil : Edges.edges run = [] := Edges.edges_eq_nil.mpr (by omega)
      simp [hlong, hnil, ih]

theorem retained_kept {cycle : Cycle} (h : Observed cycle) (ranges : List (ℚ × ℚ)) :
    ((retained ranges cycle).flatMap fun part => Edges.edges part.endpoints) =
        (Edges.edges cycle.endpoints).filter (fun e => !excluded ranges e) ∧
      ∀ part ∈ retained ranges cycle, part.endpoints <:+: cycle.endpoints := by
  cases hoverlap : ranges.any fun r => r.1 < cycle.stop && cycle.start < r.2 with
  | false =>
    have hretained : retained ranges cycle = [{ cycle with }] := by simp [retained, hoverlap]
    rw [hretained]
    refine ⟨?_, by simp⟩
    rw [flatMap_singleton, eq_comm, filter_eq_self]
    intro e he
    obtain ⟨hfirst, hsecond⟩ := of_mem_zip he
    have hstart := (h.within e.1 hfirst).1
    have hstop := (h.within e.2 (mem_of_mem_tail hsecond)).2
    rw [Bool.not_eq_true', excluded, any_eq_false]
    intro r hr hexcluded
    simp only [Bool.and_eq_true, decide_eq_true_eq] at hexcluded
    have hnone := any_eq_false.mp hoverlap r hr
    simp only [Bool.and_eq_true, decide_eq_true_eq] at hnone
    exact hnone ⟨hexcluded.1.trans_le hstop, hstart.trans_lt hexcluded.2⟩
  | true =>
    have hsplit := Edges.isSplit_split (excluded ranges) cycle.endpoints
    have hendpoints := retained_endpoints h hoverlap
    constructor
    · rw [← hsplit.edges, ← flatMap_long, ← hendpoints, flatMap_map]
    · intro part hpart
      have hmem : part.endpoints ∈ (retained ranges cycle).map (·.endpoints) :=
        mem_map_of_mem hpart
      rw [hendpoints] at hmem
      obtain ⟨before, after, heq, -⟩ := Edges.split_block _ hsplit (mem_of_mem_filter hmem)
      exact ⟨before, after, heq.symm⟩

/-! ## what decides the ranges -/

/-- Records in another order, one twice, and one that is split at an edge. -/
inductive Rearranged : List (ℚ × ℚ) → List (ℚ × ℚ) → Prop where
  | perm {rs ss : List (ℚ × ℚ)} (h : rs.Perm ss) : Rearranged rs ss
  | twice {rs : List (ℚ × ℚ)} {r : ℚ × ℚ} (h : r ∈ rs) : Rearranged rs (r :: rs)
  | split {a b c : ℚ} {rs : List (ℚ × ℚ)} (hab : a ≤ b) (hbc : b ≤ c) :
      Rearranged ((a, c) :: rs) ((a, b) :: (b, c) :: rs)
  | symm {rs ss : List (ℚ × ℚ)} (h : Rearranged rs ss) : Rearranged ss rs
  | trans {rs ss ts : List (ℚ × ℚ)} (h : Rearranged rs ss) (h' : Rearranged ss ts) :
      Rearranged rs ts

/-- Records that start before they stop. -/
def Ordered (rs : List (ℚ × ℚ)) : Prop := ∀ r ∈ rs, r.1 ≤ r.2

theorem Rearranged.same {rs ss : List (ℚ × ℚ)} (h : Rearranged rs ss) :
    (Ordered rs ↔ Ordered ss) ∧ ∀ x, Ranges.Covers rs x ↔ Ranges.Covers ss x := by
  induction h with
  | perm h => exact ⟨by simp [Ordered, h.mem_iff], by simp [Ranges.Covers, h.mem_iff]⟩
  | @twice rs r h =>
    have hmem : ∀ s, s ∈ r :: rs ↔ s ∈ rs := fun s =>
      ⟨fun hs => (mem_cons.mp hs).elim (fun heq => heq ▸ h) id, mem_cons_of_mem r⟩
    exact ⟨by simp only [Ordered, hmem], by simp only [Ranges.Covers, hmem, implies_true]⟩
  | @split a b c rs hab hbc =>
    constructor
    · simp only [Ordered, forall_mem_cons]
      exact ⟨fun h => ⟨hab, hbc, h.2⟩, fun h => ⟨hab.trans hbc, h.2.2⟩⟩
    · intro x
      simp only [Ranges.Covers, exists_mem_cons_iff]
      grind
  | symm _ ih => exact ⟨ih.1.symm, fun x => (ih.2 x).symm⟩
  | trans _ _ ih ih' => exact ⟨ih.1.trans ih'.1, fun x => (ih.2 x).trans (ih'.2 x)⟩

theorem exclusionRanges_rearranged {rs ss : List (ℚ × ℚ)} (h : Rearranged rs ss)
    (hordered : Ordered rs) : exclusionRanges rs = exclusionRanges ss :=
  Ranges.merge_congr hordered (h.same.1.mp hordered) h.same.2

/-- What is kept of each cycle are, in order, its edges that no merged range overlaps; each interval
is a block of its ends; and records that are rearranged keep the same. -/
theorem retained_exactly (report : Report) (cycles : List Cycle)
    (h : ∀ cycle ∈ cycles, Observed cycle) :
    retainedIntervals cycles report =
        cycles.flatMap (fun cycle => retainedIntervals [cycle] report) ∧
    ∀ cycle ∈ cycles,
      let ranges := exclusionRanges (records report cycle.account)
      let parts := retainedIntervals [cycle] report
      parts.flatMap (fun part => Edges.edges part.endpoints) =
          (Edges.edges cycle.endpoints).filter
            (fun e => ¬∃ r ∈ ranges, r.1 < e.2.1 ∧ e.1.1 < r.2) ∧
        (∀ part ∈ parts, part.endpoints <:+: cycle.endpoints) ∧
        ∀ other, exclusionRanges (records other cycle.account) = ranges ∨
            Rearranged (records report cycle.account) (records other cycle.account) ∧
              Ordered (records report cycle.account) →
          retainedIntervals [cycle] other = parts := by
  refine ⟨by simp [retainedIntervals], fun cycle hcycle => ?_⟩
  intro ranges parts
  have hparts : parts = retained ranges cycle := by simp [parts, retainedIntervals, ranges]
  have hkept := retained_kept (h cycle hcycle) ranges
  have hexcluded : (fun e : Endpoint × Endpoint => !excluded ranges e) =
      fun e => decide ¬∃ r ∈ ranges, r.1 < e.2.1 ∧ e.1.1 < r.2 := by
    funext e
    rw [Bool.eq_iff_iff]
    simp [excluded]
  rw [hexcluded] at hkept
  refine ⟨hparts ▸ hkept.1, hparts ▸ hkept.2, fun other hother => ?_⟩
  have hranges : exclusionRanges (records other cycle.account) = ranges := by
    rcases hother with heq | ⟨hrearranged, hordered⟩
    · exact heq
    · exact (exclusionRanges_rearranged hrearranged hordered).symm
  rw [hparts]
  simp [retainedIntervals, hranges]

/-- A cycle with two exclusions that touch. -/
theorem retained_exactly_touching :
    let report : Report := { exclusions := [{ start := 1, stop := 2 }, { start := 2, stop := 3 }] }
    let cycle : Cycle :=
      { id := [], start := 0, stop := 4, endpoints := [(0, 0), (1, 1), (2, 1), (3, 2), (4, 5)] }
    (retainedIntervals [cycle] report).flatMap (fun part => Edges.edges part.endpoints) =
      [((0, 0), (1, 1)), ((3, 2), (4, 5))] := by
  intro report cycle
  have hobserved : Observed cycle := ⟨by decide +kernel, by decide +kernel⟩
  rw [((retained_exactly report [cycle] (by simpa using hobserved)).2 cycle (by simp)).1]
  decide +kernel

end Codexon.QuotaExclusions
