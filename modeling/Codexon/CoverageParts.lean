import Codexon.Blocks
import Codexon.Dict
import Codexon.Edges
import Codexon.Keyed
import Codexon.SplitCycles
import Mathlib.Data.Finset.Basic

/-!
# Codexon.CoverageParts

`partition_coverage` of `cachemonitor/quota_cycles.py`: the observations of a group are cut where
an edge between two of them starts or stops to be in doubt.
-/

namespace Codexon

open List

namespace CoverageParts

open SplitCycles (Observation)

variable {α : Type} [LinearOrder α]

/-- A discrepancy.  What is not evidenced has no start or end. -/
structure Issue (α : Type) where
  reason : PyStr
  start : Option α
  stop : Option α

/-- A group; `gap` ones are not observed at all. -/
structure Source (α : Type) extends SplitCycles.Group α where
  gap : Bool := false

/-- What `partition_coverage` returns; a group that is not cut has no coverage. -/
structure Part (α : Type) extends Source α where
  /-- `coverage_blocked` and `coverage_reasons` -/
  coverage : Option (Bool × Finset PyStr) := none

/-! ## the issues of each reason -/

/-- The reasons that matter. -/
def prefixes : List PyStr :=
  [py "누계 차액 증가", py "로컬 호출 없는 한도 증가", py "필수 토큰 또는 단가 누락",
    py "요청 모드 미확인"]

def startsWith (text start : PyStr) : Bool := start.isPrefixOf text

def reasonOf (reason : PyStr) : PyStr :=
  if startsWith reason (py "누계") then py "누계 차액 증가: 호출 비용 누락, 누계 보정 미해결" else reason

def gapOf (issue : Issue α) : Option (PyStr × α × α) :=
  match issue.start, issue.stop with
  | some start, some stop =>
    if prefixes.any (startsWith issue.reason) then some (reasonOf issue.reason, start, stop)
    else none
  | _, _ => none

/-- `max(maximum, x)`, where there may be no maximum yet. -/
def larger (maximum : Option α) (x : α) : α := maximum.elim x (max · x)

def maxima : Option α → List α → List α
  | _, [] => []
  | maximum, x :: xs => larger maximum x :: maxima (some (larger maximum x)) xs

/-- The spans of a reason in the order of their starts, with the last end up to each; and the
points. -/
structure Index (α : Type) where
  starts : List α
  ends : List α
  points : List α

def indexOf (gaps : List (α × α)) : Index α :=
  let spans := Keyed.sort (fun gap : α × α => toLex gap) (gaps.filter fun gap => gap.1 < gap.2)
  { starts := spans.map (·.1)
    ends := maxima none (spans.map (·.2))
    points := Keyed.sort id ((gaps.filter fun gap => gap.1 = gap.2).map (·.1)) }

def indexed (issues : List (Issue α)) : Dict PyStr (Index α) :=
  let gaps := (issues.filterMap gapOf).foldl (fun d gap => d.append gap.1 gap.2) ({} : Dict PyStr _)
  gaps.mapVal fun _ => indexOf

/-! ## parts -/

/-- The edge from `a` to `b` is in doubt. -/
def Index.covers (index : Index α) (a b : α) : Bool :=
  let last := bisectLeft index.starts b
  (0 < last ∧ (index.ends[last - 1]?).any (a < ·)) ∨
    bisectRight index.points a < bisectRight index.points b

def reasons (indexed : Dict PyStr (Index α)) (edge : Observation α × Observation α) :
    Finset PyStr :=
  ((indexed.entries.filter fun e => e.2.covers edge.1.at_ edge.2.at_).map (·.1)).toFinset

def finish (group : Source α) (index : Nat) (run : Edges.Run (Observation α) (Finset PyStr)) :
    Part α :=
  let blocked : Bool := run.label ≠ ∅
  let start := run.points.head?.map (·.at_)
  let stop := run.points.getLast?.map (·.at_)
  { group with
    id := group.id ++ py ":coverage:" ++ Json.natRepr index
    boundary := start.getD group.boundary
    observations := run.points
    rejected := group.rejected.filter fun r =>
      start.any (· < r.at_) && stop.any (r.at_ ≤ ·)
    manualReset := if index = 0 then group.manualReset else none
    reason := if blocked then py "비용, 소모 대응 미확인 구간"
      else if index ≠ 0 then py "대응 미확인 경계 이후 관측" else group.reason
    coverage := some (blocked, run.label) }

def Skipped (group : Source α) : Prop :=
  group.observations.length < 2 ∨ group.gap = true ∨ group.discontinuous = true

instance (group : Source α) : Decidable (Skipped group) := inferInstanceAs (Decidable (_ ∨ _))

def partsOf (indexed : Dict PyStr (Index α)) (group : Source α) : List (Part α) :=
  if Skipped group then [{ group with }]
  else
    let runs := Edges.cut (reasons indexed) group.observations
    if runs.length = 1 ∧ runs.all fun run => run.label = ∅ then [{ group with }]
    else runs.mapIdx (finish group)

def partitionCoverage (groups : List (Source α)) (issues : List (Issue α)) : List (Part α) :=
  groups.flatMap (partsOf (indexed issues))

end CoverageParts

/-!
## exact parts

The parts of a group have its edges in their order, and each edge has the reasons of the issues that
meet it.
-/

namespace CoverageParts

open SplitCycles (Observation)

variable {α : Type} [LinearOrder α]

/-! ## the index -/

theorem lt_larger {maximum : Option α} {x a : α} :
    a < larger maximum x ↔ (∃ y ∈ maximum, a < y) ∨ a < x := by
  cases maximum <;> simp [larger]

theorem lt_maxima {maximum : Option α} {xs : List α} {k : Nat} {m a : α}
    (hm : (maxima maximum xs)[k]? = some m) :
    a < m ↔ (∃ x ∈ maximum, a < x) ∨ ∃ x ∈ xs.take (k + 1), a < x := by
  induction xs generalizing maximum k with
  | nil => simp [maxima] at hm
  | cons x xs ih =>
    cases k with
    | zero =>
      have hfirst : larger maximum x = m := by simpa [maxima] using hm
      rw [← hfirst, lt_larger]
      simp
    | succ k =>
      have hrest := ih (by simpa [maxima] using hm)
      rw [hrest, take_succ_cons]
      simp [lt_larger, or_assoc]

theorem length_maxima (maximum : Option α) (xs : List α) :
    (maxima maximum xs).length = xs.length := by
  induction xs generalizing maximum with
  | nil => rfl
  | cons x xs ih => simp [maxima, ih]

/-- An edge from `a` to `b` meets a gap. -/
def Meets (gap : α × α) (a b : α) : Prop :=
  (gap.1 < gap.2 ∧ gap.1 < b ∧ a < gap.2) ∨ (gap.1 = gap.2 ∧ a < gap.1 ∧ gap.1 ≤ b)

theorem bisectRight_lt {xs : List α} (hsorted : xs.Pairwise (· ≤ ·)) {a b : α} :
    bisectRight xs a < bisectRight xs b ↔ ∃ x ∈ xs, a < x ∧ x ≤ b := by
  induction xs with
  | nil => simp [bisectRight]
  | cons x xs ih =>
    rw [pairwise_cons] at hsorted
    have hrest := ih hsorted.2
    have hafter : ∀ y ∈ xs, x ≤ y := hsorted.1
    unfold bisectRight at hrest ⊢
    by_cases ha : x ≤ a
    · by_cases hb : x ≤ b
      · simp [ha, hb, hrest, not_lt.mpr ha]
      · have hlt : b < x := not_le.mp hb
        simp only [takeWhile_cons, ha, hb, decide_true, decide_false, if_true]
        constructor
        · intro h
          simp at h
        · rintro ⟨y, hy, hay, hyb⟩
          rcases mem_cons.mp hy with rfl | hy
          · exact absurd hyb hb
          · exact absurd ((hafter y hy).trans hyb) hb
    · by_cases hb : x ≤ b
      · simp [ha, hb, not_le.mp ha]
      · simp only [takeWhile_cons, ha, hb, decide_false]
        constructor
        · intro h
          simp at h
        · rintro ⟨y, hy, hay, hyb⟩
          rcases mem_cons.mp hy with rfl | hy
          · exact absurd hyb hb
          · exact absurd ((hafter y hy).trans hyb) hb

theorem indexOf_covers (gaps : List (α × α)) (a b : α) :
    (indexOf gaps).covers a b = true ↔ ∃ gap ∈ gaps, Meets gap a b := by
  set spans := Keyed.sort (fun gap : α × α => toLex gap) (gaps.filter fun gap => gap.1 < gap.2)
    with hspans
  have hstarts : (spans.map (·.1)).Pairwise (· ≤ ·) := by
    have hsorted : spans.Pairwise fun s t => toLex s ≤ toLex t := Keyed.sorted_sort _
    refine pairwise_map.mpr (hsorted.imp fun {s t} h => ?_)
    rcases Prod.Lex.toLex_le_toLex.mp h with hlt | heq
    · exact hlt.le
    · exact heq.1.le
  have hpoints : (Keyed.sort id ((gaps.filter fun gap => gap.1 = gap.2).map (·.1))).Pairwise
      (· ≤ ·) := Keyed.sorted_sort _
  have hspan : (0 < bisectLeft (spans.map (·.1)) b ∧
        ((maxima none (spans.map (·.2)))[bisectLeft (spans.map (·.1)) b - 1]?).any (a < ·) = true) ↔
      ∃ gap ∈ gaps, gap.1 < gap.2 ∧ gap.1 < b ∧ a < gap.2 := by
    have htake := take_bisectLeft (x := b) hstarts
    set last := bisectLeft (spans.map (·.1)) b with hlast
    have hfilter : spans.take last = spans.filter fun s => s.1 < b := by
      have hlength : last = (spans.takeWhile fun s => s.1 < b).length := by
        rw [hlast, bisectLeft, takeWhile_map, length_map]
        rfl
      rw [hlength, take_length_takeWhile]
      exact Keyed.takeWhile_eq_filter (pairwise_map.mp hstarts) fun s t hle ht => by
        simpa using hle.trans_lt (by simpa using ht)
    have hmem : (∃ x ∈ (spans.map (·.2)).take last, a < x) ↔
        ∃ gap ∈ gaps, gap.1 < gap.2 ∧ gap.1 < b ∧ a < gap.2 := by
      rw [← map_take, hfilter]
      simp only [List.mem_map, List.mem_filter, hspans, Keyed.mem_sort]
      grind
    cases hk : last with
    | zero =>
      rw [hk] at hmem
      simpa using hmem
    | succ k =>
      have hle : last ≤ spans.length := by simpa using bisectLeft_le (spans.map (·.1)) b
      have hlt : k < (maxima none (spans.map (·.2))).length := by
        rw [length_maxima, length_map]
        omega
      have hmax := lt_maxima (a := a) (List.getElem?_eq_getElem hlt)
      rw [← hmem, hk, Nat.add_sub_cancel, List.getElem?_eq_getElem hlt]
      simpa using hmax
  have hpoint := bisectRight_lt (a := a) (b := b) hpoints
  have hcovers : (indexOf gaps).covers a b = true ↔
      (∃ gap ∈ gaps, gap.1 < gap.2 ∧ gap.1 < b ∧ a < gap.2) ∨
        ∃ x ∈ Keyed.sort id ((gaps.filter fun gap => gap.1 = gap.2).map (·.1)), a < x ∧ x ≤ b := by
    rw [← hspan, ← hpoint]
    simp only [Index.covers, indexOf, ← hspans, decide_eq_true_eq]
  have hpairs : (∃ x ∈ Keyed.sort id ((gaps.filter fun gap => gap.1 = gap.2).map (·.1)),
      a < x ∧ x ≤ b) ↔ ∃ gap ∈ gaps, gap.1 = gap.2 ∧ a < gap.1 ∧ gap.1 ≤ b := by
    simp only [Keyed.mem_sort, List.mem_map, List.mem_filter, decide_eq_true_eq]
    constructor
    · rintro ⟨x, ⟨gap, ⟨hgap, hpoint⟩, rfl⟩, h⟩
      exact ⟨gap, hgap, hpoint, h⟩
    · rintro ⟨gap, hgap, hpoint, h⟩
      exact ⟨gap.1, ⟨gap, ⟨hgap, hpoint⟩, rfl⟩, h⟩
  rw [hcovers, hpairs, ← exists_or]
  simp only [Meets, ← and_or_left]

/-! ## the reasons of an edge -/

/-- An issue puts an edge in doubt for a reason: it is of a kind that matters, and its span overlaps
the edge or its point is on it. -/
def InDoubt (issue : Issue α) (reason : PyStr) (edge : Observation α × Observation α) : Prop :=
  prefixes.any (startsWith issue.reason) = true ∧ reasonOf issue.reason = reason ∧
    ∃ start stop, issue.start = some start ∧ issue.stop = some stop ∧
      ((start < stop ∧ start < edge.2.at_ ∧ edge.1.at_ < stop) ∨
        (start = stop ∧ edge.1.at_ < start ∧ start ≤ edge.2.at_))

omit [LinearOrder α] in
theorem gapOf_some {issue : Issue α} {reason : PyStr} {gap : α × α} :
    gapOf issue = some (reason, gap) ↔ prefixes.any (startsWith issue.reason) = true ∧
      reasonOf issue.reason = reason ∧ issue.start = some gap.1 ∧ issue.stop = some gap.2 := by
  unfold gapOf
  cases issue.start with
  | none => simp
  | some start =>
    cases issue.stop with
    | none => simp
    | some stop =>
      by_cases hkind : prefixes.any (startsWith issue.reason) = true
      · simp [hkind, Prod.ext_iff]
      · simp [hkind]

theorem mem_indexed {issues : List (Issue α)} {reason : PyStr} {index : Index α} :
    (reason, index) ∈ (indexed issues).entries ↔
      let gaps := ((issues.filterMap gapOf).filter fun gap => gap.1 = reason).map (·.2)
      gaps ≠ [] ∧ indexOf gaps = index := by
  rw [← Dict.get?_eq_some, indexed, Dict.get?_mapVal, Dict.get?_foldl_append]
  dsimp only
  split_ifs with hnil
  · simp [hnil]
  · simp [hnil]

theorem mem_reasons {issues : List (Issue α)} {edge : Observation α × Observation α}
    {reason : PyStr} : reason ∈ reasons (indexed issues) edge ↔
      ∃ issue ∈ issues, InDoubt issue reason edge := by
  have hgaps : ∀ gap, gap ∈ ((issues.filterMap gapOf).filter fun gap => gap.1 = reason).map (·.2) ↔
      ∃ issue ∈ issues, gapOf issue = some (reason, gap) := by
    intro gap
    simp only [List.mem_map, List.mem_filter, mem_filterMap, decide_eq_true_eq]
    constructor
    · rintro ⟨found, ⟨⟨issue, hissue, hgap⟩, rfl⟩, rfl⟩
      exact ⟨issue, hissue, hgap⟩
    · rintro ⟨issue, hissue, hgap⟩
      exact ⟨(reason, gap), ⟨⟨issue, hissue, hgap⟩, rfl⟩, rfl⟩
  have hindex : reason ∈ reasons (indexed issues) edge ↔
      ∃ index, (reason, index) ∈ (indexed issues).entries ∧
        index.covers edge.1.at_ edge.2.at_ = true := by
    simp [reasons]
  rw [hindex]
  constructor
  · rintro ⟨index, hentry, hcovers⟩
    obtain ⟨-, rfl⟩ := mem_indexed.mp hentry
    obtain ⟨gap, hgap, hmeets⟩ := (indexOf_covers _ _ _).mp hcovers
    obtain ⟨issue, hissue, hgap⟩ := (hgaps gap).mp hgap
    obtain ⟨hkind, hreason, hstart, hstop⟩ := gapOf_some.mp hgap
    exact ⟨issue, hissue, hkind, hreason, gap.1, gap.2, hstart, hstop, hmeets⟩
  · rintro ⟨issue, hissue, hkind, hreason, start, stop, hstart, hstop, hmeets⟩
    have hgap := (hgaps (start, stop)).mpr
      ⟨issue, hissue, gapOf_some.mpr ⟨hkind, hreason, hstart, hstop⟩⟩
    exact ⟨_, mem_indexed.mpr ⟨ne_nil_of_mem hgap, rfl⟩,
      (indexOf_covers _ _ _).mpr ⟨(start, stop), hgap, hmeets⟩⟩

/-! ## the parts of a group -/

def Part.reasons (part : Part α) : Finset PyStr := part.coverage.elim ∅ (·.2)

def Part.blocked (part : Part α) : Bool := part.coverage.elim false (·.1)

section Group

variable (indexed : Dict PyStr (Index α)) (group : Source α)

theorem partsOf_runs (h : ¬Skipped group) :
    ∃ runs, Edges.IsCut (reasons indexed) runs (Edges.edges group.observations) ∧
      (partsOf indexed group).map (fun part => (part.reasons, part.observations)) =
        runs.map (fun run => (run.label, run.points)) ∧
      ∀ part ∈ partsOf indexed group, part.blocked = true ↔ part.reasons ≠ ∅ := by
  have hcut := Edges.isCut_cut (reasons indexed) group.observations
  refine ⟨_, hcut, ?_⟩
  rw [partsOf, if_neg h]
  dsimp only
  set runs := Edges.cut (reasons indexed) group.observations
  split_ifs with hone
  · obtain ⟨hlength, hnone⟩ := hone
    obtain ⟨run, hrun⟩ := length_eq_one_iff.mp hlength
    rw [hrun] at hcut hnone ⊢
    have hlabel : run.label = ∅ := by simpa using hnone
    have hpoints : run.points = group.observations := by
      have hlong : 2 ≤ group.observations.length := by
        unfold Skipped at h
        omega
      exact Edges.edges_injective (hcut.long run (by simp)) hlong (by simpa using hcut.edges)
    simp [Part.reasons, Part.blocked, hlabel, hpoints]
  · constructor
    · refine ext_getElem? fun i => ?_
      simp only [List.getElem?_map, List.getElem?_mapIdx]
      cases runs[i]? <;> rfl
    · intro part hpart
      obtain ⟨index, hindex, rfl⟩ := mem_mapIdx.mp hpart
      simp [finish, Part.reasons, Part.blocked]

end Group

/-- The parts of each group have its edges, and each edge the reasons of the issues that put it in
doubt, unless the group is not looked into. -/
theorem coverage_partition (groups : List (Source α)) (issues : List (Issue α)) :
    partitionCoverage groups issues = groups.flatMap (partsOf (indexed issues)) ∧
    ∀ group : Source α, let parts := partsOf (indexed issues) group
      parts.flatMap (fun part => Edges.edges part.observations) =
        Edges.edges group.observations ∧
      (∀ part ∈ parts, ∀ edge ∈ Edges.edges part.observations, ∀ reason,
        reason ∈ part.reasons ↔ ¬Skipped group ∧ ∃ issue ∈ issues, InDoubt issue reason edge) ∧
      (∀ part ∈ parts, part.blocked = true ↔ part.reasons ≠ ∅) ∧
      (parts.IsChain fun part next => part.reasons ≠ next.reasons) ∧
      (Skipped group → parts = [{ group with }]) := by
  refine ⟨rfl, fun group => ?_⟩
  by_cases hskipped : Skipped group
  · have hparts : partsOf (indexed issues) group = [{ group with }] := by simp [partsOf, hskipped]
    dsimp only
    rw [hparts]
    exact ⟨by simp, by simp [Part.reasons, hskipped], by simp [Part.reasons, Part.blocked],
      .singleton _, fun _ => rfl⟩
  · obtain ⟨runs, hcut, hmap, hblocked⟩ := partsOf_runs (indexed issues) group hskipped
    refine ⟨?_, ?_, hblocked, ?_, fun h => absurd h hskipped⟩
    · have hpairs := congrArg
        (List.flatMap fun pair : Finset PyStr × List (Observation α) => Edges.edges pair.2) hmap
      rw [flatMap_map, flatMap_map] at hpairs
      exact hpairs.trans hcut.edges
    · intro part hpart edge hedge reason
      have hmem : (part.reasons, part.observations) ∈ runs.map fun run => (run.label, run.points) :=
        hmap ▸ mem_map_of_mem hpart
      obtain ⟨run, hrun, heq⟩ := List.mem_map.mp hmem
      obtain ⟨hlabel, hpoints⟩ := Prod.mk.inj heq
      rw [← hpoints] at hedge
      rw [← hlabel, hcut.label run hrun edge hedge, mem_reasons]
      simp [hskipped]
    · have hadjacent : (runs.map fun run => (run.label, run.points)).IsChain
          fun pair next => pair.1 ≠ next.1 := by
        rw [isChain_map]
        exact hcut.adjacent
      rw [← hmap, isChain_map] at hadjacent
      exact hadjacent

/-- The group of an uncertain tail keeps an edge that an issue puts in doubt. -/
theorem skipped_not_covered : ¬∀ (groups : List (Source Int)) (issues : List (Issue Int)),
      ∀ part ∈ partitionCoverage groups issues, ∀ edge ∈ Edges.edges part.observations, ∀ reason,
        reason ∈ part.reasons ↔ ∃ issue ∈ issues, InDoubt issue reason edge := by
  intro h
  let first : Observation Int := ⟨[], 0, 0, none, .null, 0, .null, none, none, none⟩
  let second : Observation Int := { first with at_ := 10 }
  let tail : Source Int :=
    { id := [], reason := [], boundary := 0, observations := [first, second]
      discontinuous := true }
  let issue : Issue Int := ⟨py "요청 모드 미확인", some 1, some 5⟩
  have hedge := h [tail] [issue] { tail with } (by simp [partitionCoverage, partsOf, Skipped, tail])
    (first, second) (by simp [tail]) (py "요청 모드 미확인")
  have hdoubt : InDoubt issue (py "요청 모드 미확인") (first, second) :=
    ⟨by decide +kernel, by decide +kernel, 1, 5, rfl, rfl, .inl ⟨by decide, by decide, by decide⟩⟩
  have hmem := hedge.mpr ⟨issue, by simp, hdoubt⟩
  simp [Part.reasons] at hmem

end CoverageParts

end Codexon
