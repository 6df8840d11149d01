import Codexon.TrendStream

/-!
# Codexon.TrendStream.Window

What a window yields are the rows that it holds of the scopes and the interval.
-/

namespace Codexon.TrendStream

open List

/-! ## positions -/

section Positions

variable {α : Type} {xs : List α}

theorem filterMap_positions (p : α → Bool) (xs : List α) :
    ((List.range xs.length).filter fun i => xs[i]?.any p).filterMap (xs[·]?) = xs.filter p := by
  induction xs using List.reverseRecOn with
  | nil => rfl
  | append_singleton xs x ih =>
    have hold : ∀ i ∈ List.range xs.length, (xs ++ [x])[i]? = xs[i]? := fun i hi =>
      List.getElem?_append_left (mem_range.mp hi)
    have hpositions : ((List.range xs.length).filter fun i => (xs ++ [x])[i]?.any p) =
        (List.range xs.length).filter fun i => xs[i]?.any p :=
      filter_congr fun i hi => by rw [hold i hi]
    have hvalues : ((List.range xs.length).filter fun i => xs[i]?.any p).filterMap
        ((xs ++ [x])[·]?) = xs.filter p := by
      rw [← ih]
      exact filterMap_congr fun i hi => hold i (mem_filter.mp hi).1
    rw [length_append, length_singleton, range_succ, filter_append,
      filterMap_append, hpositions, hvalues, filter_append]
    by_cases hx : p x <;> simp [hx]

variable {τ : Type} [LinearOrder τ] {ts : List τ} {t x : τ} {i : Nat}

theorem lt_bisectLeft_iff (hsorted : ts.Pairwise (· ≤ ·)) (ht : ts[i]? = some t) :
    i < bisectLeft ts x ↔ t < x := by
  refine ⟨fun hi => lt_of_lt_bisectLeft hi ht, fun hlt => ?_⟩
  by_contra hi
  have hmem : t ∈ ts.drop (bisectLeft ts x) := by
    refine mem_iff_getElem?.mpr ⟨i - bisectLeft ts x, ?_⟩
    rw [List.getElem?_drop, Nat.add_sub_cancel' (not_lt.mp hi), ht]
  rw [drop_bisectLeft hsorted] at hmem
  have hle : x ≤ t := by simpa using (mem_filter.mp hmem).2
  exact absurd hlt (not_lt.mpr hle)

theorem lt_bisectRight_iff (hsorted : ts.Pairwise (· ≤ ·)) (ht : ts[i]? = some t) :
    i < bisectRight ts x ↔ t ≤ x := by
  refine ⟨fun hi => le_of_lt_bisectRight hi ht, fun hle => ?_⟩
  by_contra hi
  obtain ⟨u, hu⟩ : ∃ u, ts[bisectRight ts x]? = some u := by
    have hlt : i < ts.length := (List.getElem?_eq_some_iff.mp ht).1
    exact ⟨_, List.getElem?_eq_getElem ((not_lt.mp hi).trans_lt hlt)⟩
  have hxu : x < u := lt_of_bisectRight hu
  have hut : u ≤ t := by
    rcases (not_lt.mp hi).eq_or_lt with heq | hlt
    · rw [heq, ht] at hu
      exact (Option.some.inj hu).ge
    · obtain ⟨_, rfl⟩ := List.getElem?_eq_some_iff.mp hu
      obtain ⟨_, rfl⟩ := List.getElem?_eq_some_iff.mp ht
      exact pairwise_iff_getElem.mp hsorted _ _ _ _ hlt
  exact absurd hle (not_le.mpr (hxu.trans_le hut))

theorem slice_bisectLeft (hsorted : ts.Pairwise (· ≤ ·)) (left right : τ) :
    (ts.take (bisectLeft ts right)).drop (bisectLeft ts left) =
      ts.filter fun t => left ≤ t && t < right := by
  induction ts with
  | nil => rfl
  | cons t ts ih =>
    rw [pairwise_cons] at hsorted
    by_cases hleft : t < left
    · by_cases hright : t < right
      · simpa [bisectLeft, hleft, hright, not_le.mpr hleft] using ih hsorted.2
      · have hnone : ∀ u ∈ ts, right ≤ u := fun u hu => (not_lt.mp hright).trans (hsorted.1 u hu)
        simpa [bisectLeft, hright] using fun u hu _ => hnone u hu
    · have hall : ∀ u ∈ t :: ts, left ≤ u := by
        simpa [not_lt.mp hleft] using fun u hu => (not_lt.mp hleft).trans (hsorted.1 u hu)
      rw [take_bisectLeft (pairwise_cons.mpr hsorted), bisectLeft,
        takeWhile_cons_of_neg (by simpa using hleft), length_nil, drop_zero]
      exact filter_congr fun u hu => by simp [hall u hu]

end Positions

/-! ## a block -/

abbrev Numbered := Call × Nat

def ordered (rows : List Numbered) : Prop := rows.Pairwise fun r r' => r.1.ts ≤ r'.1.ts

/-- A row of some scopes in an interval. -/
def within (start stop : ℚ) (inclusive : Bool) (ts : ℚ) : Bool :=
  start ≤ ts && (ts < stop || inclusive && ts = stop)

/-- A block holds some rows. -/
structure Block.Holds (b : Block) (rows : List Numbered) : Prop where
  cells : b.cells = rows.map fun r => r.1.cell
  positions : ∀ scope, (b.positions.get? scope).getD [] =
    (List.range rows.length).filter fun i => rows[i]?.any (·.2 = scope)

namespace Block.Holds

variable {b : Block} {rows : List Numbered}

theorem empty : Block.Holds {} [] := ⟨rfl, fun _ => rfl⟩

theorem append (h : b.Holds rows) (c : Call) (scope : Nat) :
    (b.append c scope).Holds (rows ++ [(c, scope)]) := by
  refine ⟨by simp [Block.append, h.cells], fun other => ?_⟩
  have hold : (List.range rows.length).filter
      (fun i => (rows ++ [(c, scope)])[i]?.any (·.2 = other))
      = (List.range rows.length).filter fun i => rows[i]?.any (·.2 = other) :=
    filter_congr fun i hi => by rw [List.getElem?_append_left (mem_range.mp hi)]
  rw [length_append, length_singleton, range_succ, filter_append, hold,
    ← h.positions, Block.append, Dict.append, Dict.get?_set]
  by_cases hscope : other = scope
  · subst hscope
    simp [h.cells]
  · simp [hscope, Ne.symm hscope]

theorem times_eq (h : b.Holds rows) : b.times = rows.map fun r => r.1.ts := by
  simp [Block.times, h.cells, Call.cell]

theorem slice_eq (h : b.Holds rows) (left right scope : Nat) :
    b.slice left right scope = (List.range rows.length).filter fun i =>
      (left ≤ i && i < right) && rows[i]?.any (·.2 = scope) := by
  have hpositions := h.positions scope
  rw [← filter_filter, ← hpositions, slice]
  cases hget : b.positions.get? scope with
  | none => rfl
  | some indices =>
    rw [hget, Option.getD_some] at hpositions
    refine slice_bisectLeft ?_ left right
    rw [hpositions]
    exact pairwise_le_range.filter _

theorem sort_slices (h : b.Holds rows) (left right : Nat) {scopes : List Nat}
    (hscopes : scopes.Nodup) :
    Keyed.sort id (scopes.flatMap (b.slice left right)) = (List.range rows.length).filter fun i =>
      rows[i]?.any (·.2 ∈ scopes) && (left ≤ i && i < right) := by
  have hmerged : (scopes.flatMap (b.slice left right)).Perm
      ((List.range rows.length).filter fun i =>
        rows[i]?.any (·.2 ∈ scopes) && (left ≤ i && i < right)) := by
    rw [funext (h.slice_eq left right)]
    refine (perm_ext_iff_of_nodup ?_ (nodup_range.filter _)).mpr fun i => ?_
    · refine nodup_flatMap.mpr ⟨fun _ _ => nodup_range.filter _, ?_⟩
      refine hscopes.imp fun {s s'} hne i hi hi' => hne ?_
      simp only [mem_filter, Bool.and_eq_true, Option.any_eq_true, decide_eq_true_eq] at hi hi'
      obtain ⟨-, -, r, hr, rfl⟩ := hi
      obtain ⟨-, -, r', hr', rfl⟩ := hi'
      rw [Option.some.inj (hr.symm.trans hr')]
    · cases hrow : rows[i]? with
      | none => simp [hrow]
      | some r =>
        simp only [mem_flatMap, mem_filter, hrow, Option.any_some, Bool.and_eq_true,
          decide_eq_true_eq]
        grind
  refine @List.Perm.eq_of_pairwise _ (· ≤ ·) _ _ (fun i j _ _ => le_antisymm) ?_ ?_
    ((Keyed.perm_sort _).trans hmerged)
  · exact Keyed.sorted_sort _
  · exact pairwise_le_range.filter _

theorem entries_eq (h : b.Holds rows) (hordered : ordered rows) (start stop : ℚ) (inclusive : Bool)
    {scopes : List Nat} (hscopes : scopes.Nodup) : b.entries start stop inclusive scopes =
      (rows.filter fun r => r.2 ∈ scopes && within start stop inclusive r.1.ts).map (·.1.cell) := by
  have hsorted : (rows.map fun r => r.1.ts).Pairwise (· ≤ ·) := pairwise_map.mpr hordered
  have htest : ∀ i ∈ List.range rows.length, (rows[i]?.any (·.2 ∈ scopes) &&
      (bisectLeft b.times start ≤ i &&
        i < if inclusive then bisectRight b.times stop else bisectLeft b.times stop)) =
      rows[i]?.any fun r => r.2 ∈ scopes && within start stop inclusive r.1.ts := by
    intro i hi
    obtain ⟨r, hr⟩ : ∃ r, rows[i]? = some r := ⟨_, List.getElem?_eq_getElem (mem_range.mp hi)⟩
    have ht : (rows.map fun r => r.1.ts)[i]? = some r.1.ts := by rw [List.getElem?_map, hr]; rfl
    have hleft := lt_bisectLeft_iff (x := start) hsorted ht
    have hright := lt_bisectLeft_iff (x := stop) hsorted ht
    have hlast := (lt_bisectRight_iff (x := stop) hsorted ht).trans le_iff_lt_or_eq
    rw [h.times_eq, hr]
    have hstart : (decide (bisectLeft (rows.map fun r => r.1.ts) start ≤ i)) =
        decide (start ≤ r.1.ts) := decide_eq_decide.mpr (by rw [← not_lt, hleft, not_lt])
    cases inclusive <;> simp [within, hstart, hright, hlast]
  unfold entries
  dsimp only
  rw [h.sort_slices _ _ hscopes, filter_congr htest, ← filterMap_positions _ rows, map_filterMap]
  refine filterMap_congr fun i _ => ?_
  rw [h.cells, List.getElem?_map]

end Block.Holds

/-! ## a window -/

/-- The blocks hold some rows, one after the other. -/
inductive Holds : List Block → List Numbered → Prop
  | nil : Holds [] []
  | cons {b : Block} {own : List Numbered} {blocks : List Block} {rows : List Numbered} :
      b.Holds own → own ≠ [] → Holds blocks rows → Holds (b :: blocks) (own ++ rows)

namespace Holds

variable {blocks : List Block} {rows : List Numbered}

theorem append (h : Holds blocks rows) (c : Call) (scope : Nat) :
    Holds (Window.append blocks c scope) (rows ++ [(c, scope)]) := by
  have hnew : Holds [Block.append {} c scope] [(c, scope)] := by
    simpa using Holds.cons (Block.Holds.empty.append c scope) (by simp) .nil
  induction h with
  | nil => exact hnew
  | @cons b own blocks rows hb hown hrest ih =>
    rw [append_assoc]
    cases hrest with
    | nil =>
      unfold Window.append
      dsimp only [getLast?_singleton]
      split
      · exact .cons hb hown hnew
      · simpa using Holds.cons (hb.append c scope) (by simp) .nil
    | @cons b' own' blocks' rows' hb' hown' hrest' =>
      have happend : Window.append (b :: b' :: blocks') c scope =
          b :: Window.append (b' :: blocks') c scope := by
        unfold Window.append
        rw [getLast?_cons_cons]
        cases hlast : (b' :: blocks').getLast? with
        | none => simp at hlast
        | some last =>
          dsimp only
          split <;> simp
      rw [happend]
      exact .cons hb hown ih

theorem endsBefore_iff {b : Block} {own : List Numbered} (hb : b.Holds own) (hown : own ≠ [])
    (hordered : ordered own) (before : ℚ) : b.endsBefore before ↔ ∀ r ∈ own, r.1.ts < before := by
  obtain ⟨init, last, rfl⟩ := (eq_nil_or_concat' own).resolve_left hown
  have hlast : ∀ r ∈ init, r.1.ts ≤ last.1.ts := fun r hr =>
    (pairwise_append.mp hordered).2.2 r hr last (by simp)
  have hends : b.endsBefore before ↔ last.1.ts < before := by
    simp [Block.endsBefore, hb.times_eq]
  rw [hends]
  refine ⟨fun hbefore r hr => ?_, fun h => h last (by simp)⟩
  rcases mem_append.mp hr with hr | hr
  · exact (hlast r hr).trans_lt hbefore
  · rwa [mem_singleton.mp hr]

theorem not_within_of_beginsPast {b : Block} {own : List Numbered} (hb : b.Holds own)
    (hordered : ordered (own ++ rows)) {start stop : ℚ} {inclusive : Bool} (hown : own ≠ [])
    (hpast : b.beginsPast stop inclusive) :
    ∀ r ∈ own ++ rows, within start stop inclusive r.1.ts = false := by
  obtain ⟨first, own, rfl⟩ := exists_cons_of_ne_nil hown
  have hfirst : ∀ r ∈ first :: own ++ rows, first.1.ts ≤ r.1.ts := by
    rw [cons_append] at hordered ⊢
    simpa using (pairwise_cons.mp hordered).1
  have hstop : stop < first.1.ts ∨ first.1.ts = stop ∧ inclusive = false := by
    simpa [Block.beginsPast, hb.times_eq] using hpast
  intro r hr
  have hle := hfirst r hr
  have hnot : ¬ (r.1.ts < stop ∨ inclusive ∧ r.1.ts = stop) := by
    rcases hstop with hstop | ⟨rfl, hincl⟩ <;> grind
  simpa [within] using fun _ => not_or.mp hnot

theorem discard (h : Holds blocks rows) (hordered : ordered rows) (before : ℚ) :
    ∃ dropped kept, rows = dropped ++ kept ∧ Holds (Window.discard blocks before) kept ∧
      ∀ r ∈ dropped, r.1.ts < before := by
  induction h with
  | nil => exact ⟨[], [], rfl, .nil, fun r hr => absurd hr not_mem_nil⟩
  | @cons b own blocks rows hb hown hrest ih =>
    have happend := pairwise_append.mp hordered
    by_cases hends : b.endsBefore before
    · obtain ⟨dropped, kept, rfl, hkept, hbefore⟩ := ih happend.2.1
      refine ⟨own ++ dropped, kept, (append_assoc ..).symm, ?_, ?_⟩
      · simpa [Window.discard, hends] using hkept
      · simp only [mem_append]
        rintro r (hr | hr)
        · exact (endsBefore_iff hb hown happend.1 before).mp hends r hr
        · exact hbefore r hr
    · refine ⟨[], own ++ rows, rfl, ?_, fun r hr => absurd hr not_mem_nil⟩
      simpa [Window.discard, hends] using Holds.cons hb hown hrest

/-- **What a window yields** are its rows of the scopes and the interval. -/
theorem entries (h : Holds blocks rows) (hordered : ordered rows) (start stop : ℚ)
    (inclusive : Bool) {scopes : List Nat} (hscopes : scopes.Nodup) :
    Window.entries start stop inclusive scopes blocks =
      (rows.filter fun r => r.2 ∈ scopes && within start stop inclusive r.1.ts).map (·.1.cell) := by
  induction h with
  | nil => rfl
  | @cons b own blocks rows hb hown hrest ih =>
    have happend := pairwise_append.mp hordered
    rw [Window.entries, ih happend.2.1, filter_append, map_append]
    by_cases hends : b.endsBefore start
    · have hnone :
          own.filter (fun r => r.2 ∈ scopes && within start stop inclusive r.1.ts) = [] := by
        refine filter_eq_nil_iff.mpr fun r hr => ?_
        have hlt := (endsBefore_iff hb hown happend.1 start).mp hends r hr
        simp [within, not_le.mpr hlt]
      rw [if_pos hends, hnone, map_nil, nil_append]
    · rw [if_neg hends]
      by_cases hpast : b.beginsPast stop inclusive
      · have hout : ∀ r ∈ own ++ rows, within start stop inclusive r.1.ts = false :=
          not_within_of_beginsPast hb hordered hown hpast
        have hnone : (own ++ rows).filter
            (fun r => r.2 ∈ scopes && within start stop inclusive r.1.ts) = [] :=
          filter_eq_nil_iff.mpr fun r hr => by simp [hout r hr]
        rw [if_pos hpast, ← map_append, ← filter_append, hnone, map_nil]
      · rw [if_neg hpast, hb.entries_eq happend.1 start stop inclusive hscopes]

end Holds

end Codexon.TrendStream
