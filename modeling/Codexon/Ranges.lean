import Codexon.Keyed
import Mathlib.Data.Prod.Lex
import Mathlib.Algebra.BigOperators.Intervals
import Mathlib.Algebra.Order.BigOperators.Group.Finset
import Mathlib.Algebra.Order.Ring.Rat

/-!
# Codexon.Ranges

Ranges of a linear order, merged where they overlap or touch: what they cover stays, and over a
dense order nothing but that decides the merged ranges.
-/

namespace Codexon

open List

namespace Ranges

variable {τ : Type} [LinearOrder τ] {rs merged : List (τ × τ)} {r : τ × τ} {x : τ}

/-! ## merging -/

/-- A range more, which does not start before the others. -/
def mergeInto (merged : List (τ × τ)) (r : τ × τ) : List (τ × τ) :=
  match merged.getLast? with
  | some last =>
    if r.1 ≤ last.2 then merged.dropLast ++ [(last.1, max last.2 r.2)] else merged ++ [r]
  | none => [r]

/-- The ranges in order, those that overlap or touch as one. -/
def merge (rs : List (τ × τ)) : List (τ × τ) :=
  (Keyed.sort (fun r : τ × τ => toLex r) rs).foldl mergeInto []

/-- Some range has `x`. -/
def Covers (rs : List (τ × τ)) (x : τ) : Prop := ∃ r ∈ rs, r.1 ≤ x ∧ x ≤ r.2

/-- Some range goes on from `x`. -/
def Leaves (rs : List (τ × τ)) (x : τ) : Prop := ∃ r ∈ rs, r.1 ≤ x ∧ x < r.2

/-- Ranges in order that do not touch. -/
structure Separated (rs : List (τ × τ)) : Prop where
  ordered : ∀ r ∈ rs, r.1 ≤ r.2
  apart : rs.Pairwise fun r s => r.2 < s.1

/-- The ranges merged so far. -/
structure Merged (merged rs : List (τ × τ)) : Prop extends Separated merged where
  covers : ∀ x, Covers merged x ↔ Covers rs x
  leaves : ∀ x, Leaves merged x ↔ Leaves rs x
  starts : ∀ r ∈ merged, ∃ s ∈ rs, s.1 = r.1
  stops : ∀ r ∈ merged, ∃ s ∈ rs, s.2 = r.2

theorem Merged.nil : Merged ([] : List (τ × τ)) [] := by
  constructor
  · exact ⟨by simp, .nil⟩
  · exact fun _ => Iff.rfl
  · exact fun _ => Iff.rfl
  · simp
  · simp

variable {ss : List (τ × τ)}

theorem covers_append : Covers (rs ++ ss) x ↔ Covers rs x ∨ Covers ss x := by
  simp [Covers, or_and_right, exists_or]

theorem leaves_append : Leaves (rs ++ ss) x ↔ Leaves rs x ∨ Leaves ss x := by
  simp [Leaves, or_and_right, exists_or]

@[simp]
theorem covers_singleton : Covers [r] x ↔ r.1 ≤ x ∧ x ≤ r.2 := by simp [Covers]

@[simp]
theorem leaves_singleton : Leaves [r] x ↔ r.1 ≤ x ∧ x < r.2 := by simp [Leaves]

theorem Merged.mergeInto (h : Merged merged rs) (hr : r.1 ≤ r.2) (hfirst : ∀ s ∈ rs, s.1 ≤ r.1) :
    Merged (mergeInto merged r) (rs ++ [r]) := by
  rcases eq_nil_or_concat' merged with rfl | ⟨before, last, rfl⟩
  · have hmerge : Ranges.mergeInto [] r = [r] := rfl
    have hcovers : ∀ x, ¬Covers rs x := fun x hx => by
      obtain ⟨s, hs, -⟩ := (h.covers x).mpr hx
      simp at hs
    have hleaves : ∀ x, ¬Leaves rs x := fun x hx => by
      obtain ⟨s, hs, -⟩ := (h.leaves x).mpr hx
      simp at hs
    rw [hmerge]
    constructor
    · exact ⟨by simpa using hr, pairwise_singleton _ _⟩
    · simp [covers_append, hcovers]
    · simp [leaves_append, hleaves]
    · simp
    · simp
  · have hlast : last.1 ≤ r.1 := by
      obtain ⟨s, hs, heq⟩ := h.starts last (by simp)
      exact heq ▸ hfirst s hs
    have hordered := h.ordered last (by simp)
    obtain ⟨hbefore, -, happart⟩ := pairwise_append.mp h.apart
    by_cases htouch : r.1 ≤ last.2
    · have hmerge : Ranges.mergeInto (before ++ [last]) r =
          before ++ [(last.1, max last.2 r.2)] := by simp [Ranges.mergeInto, htouch]
      rw [hmerge]
      constructor
      · constructor
        · intro s hs
          rcases mem_append.mp hs with hs | hs
          · exact h.ordered s (by simp [hs])
          · rw [mem_singleton.mp hs]
            exact hordered.trans (le_max_left _ _)
        · exact pairwise_append.mpr ⟨hbefore, pairwise_singleton _ _,
            fun s hs t ht => by
              rw [mem_singleton.mp ht]
              exact happart s hs last (by simp)⟩
      · intro x
        have hold := h.covers x
        rw [covers_append, covers_singleton] at hold
        rw [covers_append, covers_singleton, covers_append, ← hold, covers_singleton, or_assoc]
        refine or_congr_right ?_
        simp only [le_sup_iff]
        grind
      · intro x
        have hold := h.leaves x
        rw [leaves_append, leaves_singleton] at hold
        rw [leaves_append, leaves_singleton, leaves_append, ← hold, leaves_singleton, or_assoc]
        refine or_congr_right ?_
        simp only [lt_sup_iff]
        grind
      · intro s hs
        rcases mem_append.mp hs with hs | hs
        · obtain ⟨t, ht, heq⟩ := h.starts s (by simp [hs])
          exact ⟨t, by simp [ht], heq⟩
        · obtain ⟨t, ht, heq⟩ := h.starts last (by simp)
          rw [mem_singleton.mp hs]
          exact ⟨t, by simp [ht], heq⟩
      · intro s hs
        rcases mem_append.mp hs with hs | hs
        · obtain ⟨t, ht, heq⟩ := h.stops s (by simp [hs])
          exact ⟨t, by simp [ht], heq⟩
        · obtain ⟨t, ht, heq⟩ := h.stops last (by simp)
          rw [mem_singleton.mp hs]
          rcases le_total last.2 r.2 with hle | hle
          · exact ⟨r, by simp, (max_eq_right hle).symm⟩
          · exact ⟨t, by simp [ht], heq.trans (max_eq_left hle).symm⟩
    · have hmerge : Ranges.mergeInto (before ++ [last]) r = before ++ [last] ++ [r] := by
        simp [Ranges.mergeInto, htouch]
      have hlt : last.2 < r.1 := not_le.mp htouch
      rw [hmerge]
      constructor
      · constructor
        · intro s hs
          rcases mem_append.mp hs with hs | hs
          · exact h.ordered s hs
          · rwa [mem_singleton.mp hs]
        · refine pairwise_append.mpr ⟨h.apart, pairwise_singleton _ _, ?_⟩
          intro s hs t ht
          rw [mem_singleton.mp ht]
          rcases mem_append.mp hs with hs | hs
          · exact (happart s hs last (by simp)).trans_le (hordered.trans hlt.le)
          · rwa [mem_singleton.mp hs]
      · intro x
        rw [covers_append, h.covers, covers_append]
      · intro x
        rw [leaves_append, h.leaves, leaves_append]
      · intro s hs
        rcases mem_append.mp hs with hs | hs
        · obtain ⟨t, ht, heq⟩ := h.starts s hs
          exact ⟨t, by simp [ht], heq⟩
        · exact ⟨s, by simp_all, rfl⟩
      · intro s hs
        rcases mem_append.mp hs with hs | hs
        · obtain ⟨t, ht, heq⟩ := h.stops s hs
          exact ⟨t, by simp [ht], heq⟩
        · exact ⟨s, by simp_all, rfl⟩

theorem Merged.foldl {before after : List (τ × τ)} (h : Merged merged before)
    (hordered : ∀ r ∈ after, r.1 ≤ r.2)
    (hsorted : (before ++ after).Pairwise fun r s => r.1 ≤ s.1) :
    Merged (after.foldl Ranges.mergeInto merged) (before ++ after) := by
  induction after generalizing merged before with
  | nil => simpa using h
  | cons r after ih =>
    have hfirst : ∀ s ∈ before, s.1 ≤ r.1 := fun s hs =>
      (pairwise_append.mp hsorted).2.2 s hs r (by simp)
    have hnext := ih (h.mergeInto (hordered r (by simp)) hfirst)
      (fun s hs => hordered s (by simp [hs])) (by simpa using hsorted)
    simpa using hnext

theorem merged_merge (h : ∀ r ∈ rs, r.1 ≤ r.2) : Merged (merge rs) rs := by
  have hperm : (Keyed.sort (fun r : τ × τ => toLex r) rs).Perm rs := perm_insertionSort _ _
  have hsorted : (Keyed.sort (fun r : τ × τ => toLex r) rs).Pairwise fun r s => r.1 ≤ s.1 := by
    have hlex : (Keyed.sort (fun r : τ × τ => toLex r) rs).Pairwise fun r s => toLex r ≤ toLex s :=
      Keyed.sorted_sort _
    refine hlex.imp fun {r s} h => ?_
    rcases Prod.Lex.toLex_le_toLex.mp h with hlt | heq
    · exact hlt.le
    · exact heq.1.le
  have hfold := Merged.nil.foldl (fun r hr => h r (hperm.mem_iff.mp hr)) (by simpa using hsorted)
  rw [nil_append] at hfold
  exact {
    ordered := hfold.ordered
    apart := hfold.apart
    covers := fun x => (hfold.covers x).trans (by simp [Covers, hperm.mem_iff])
    leaves := fun x => (hfold.leaves x).trans (by simp [Leaves, hperm.mem_iff])
    starts := fun r hr => by
      obtain ⟨s, hs, heq⟩ := hfold.starts r hr
      exact ⟨s, hperm.mem_iff.mp hs, heq⟩
    stops := fun r hr => by
      obtain ⟨s, hs, heq⟩ := hfold.stops r hr
      exact ⟨s, hperm.mem_iff.mp hs, heq⟩ }

/-! ## what decides the merged ranges -/

theorem Separated.tail (h : Separated (r :: rs)) : Separated rs :=
  ⟨fun s hs => h.ordered s (by simp [hs]), h.apart.of_cons⟩

theorem Separated.lt_of_covers (h : Separated (r :: rs)) (hx : Covers rs x) : r.2 < x := by
  obtain ⟨s, hs, hle, -⟩ := hx
  exact (rel_of_pairwise_cons h.apart hs).trans_le hle

theorem Separated.le_of_covers (h : Separated (r :: rs)) (hx : Covers (r :: rs) x) : r.1 ≤ x := by
  obtain ⟨s, hs, hle, -⟩ := hx
  rcases mem_cons.mp hs with rfl | hs
  · exact hle
  · exact ((h.ordered r (by simp)).trans (rel_of_pairwise_cons h.apart hs).le).trans hle

theorem covers_first (h : Separated (r :: rs)) : Covers (r :: rs) r.1 :=
  ⟨r, by simp, le_rfl, h.ordered r (by simp)⟩

theorem Separated.stop_le [DenselyOrdered τ] {s : τ × τ}
    (hr : Separated (r :: rs)) (hstart : r.1 = s.1)
    (h : ∀ x, Covers (s :: ss) x → Covers (r :: rs) x) : s.2 ≤ r.2 := by
  by_contra hlt
  have hlt : r.2 < s.2 := not_le.mp hlt
  have hbetween : ∃ x, r.2 < x ∧ x < s.2 ∧ ¬Covers rs x := by
    cases rs with
    | nil =>
      obtain ⟨x, hx⟩ := exists_between hlt
      exact ⟨x, hx.1, hx.2, by simp [Covers]⟩
    | cons t ts =>
      have ht : r.2 < t.1 := rel_of_pairwise_cons hr.apart (by simp)
      obtain ⟨x, hx⟩ := exists_between (lt_min hlt ht)
      refine ⟨x, hx.1, hx.2.trans_le (min_le_left _ _), fun hcovers => ?_⟩
      exact not_lt_of_ge (hr.tail.le_of_covers hcovers) (hx.2.trans_le (min_le_right _ _))
  obtain ⟨x, hrx, hxs, hnot⟩ := hbetween
  have hstart' : s.1 ≤ x := hstart ▸ (hr.ordered r (by simp)).trans hrx.le
  obtain ⟨t, ht, hle, hge⟩ := h x ⟨s, by simp, hstart', hxs.le⟩
  rcases mem_cons.mp ht with rfl | ht
  · exact not_lt_of_ge hge hrx
  · exact hnot ⟨t, ht, hle, hge⟩

theorem Separated.unique [DenselyOrdered τ] (hr : Separated rs)
    (hs : Separated ss) (h : ∀ x, Covers rs x ↔ Covers ss x) : rs = ss := by
  induction rs generalizing ss with
  | nil =>
    cases ss with
    | nil => rfl
    | cons s ss => simpa [Covers] using (h s.1).mpr (covers_first hs)
  | cons r rs ih =>
    cases ss with
    | nil => simpa [Covers] using (h r.1).mp (covers_first hr)
    | cons s ss =>
      have hstart : r.1 = s.1 := le_antisymm (hr.le_of_covers ((h _).mpr (covers_first hs)))
        (hs.le_of_covers ((h _).mp (covers_first hr)))
      have hstop : r.2 = s.2 := le_antisymm
        (hs.stop_le hstart.symm fun x => (h x).mp) (hr.stop_le hstart fun x => (h x).mpr)
      have hsame : r = s := Prod.ext hstart hstop
      subst hsame
      have hrest : rs = ss := by
        refine ih hr.tail hs.tail fun x => ⟨fun hx => ?_, fun hx => ?_⟩
        · have hlt := hr.lt_of_covers hx
          obtain ⟨t, ht, hle, hge⟩ := (h x).mp (hx.imp fun t ht => ⟨by simp [ht.1], ht.2⟩)
          rcases mem_cons.mp ht with rfl | ht
          · exact absurd hge (not_le.mpr hlt)
          · exact ⟨t, ht, hle, hge⟩
        · have hlt := hs.lt_of_covers hx
          obtain ⟨t, ht, hle, hge⟩ := (h x).mpr (hx.imp fun t ht => ⟨by simp [ht.1], ht.2⟩)
          rcases mem_cons.mp ht with rfl | ht
          · exact absurd hge (not_le.mpr hlt)
          · exact ⟨t, ht, hle, hge⟩
      rw [hrest]

theorem merge_congr [DenselyOrdered τ] (hr : ∀ r ∈ rs, r.1 ≤ r.2)
    (hs : ∀ s ∈ ss, s.1 ≤ s.2) (h : ∀ x, Covers rs x ↔ Covers ss x) : merge rs = merge ss :=
  (merged_merge hr).toSeparated.unique (merged_merge hs).toSeparated fun x =>
    ((merged_merge hr).covers x).trans ((h x).trans ((merged_merge hs).covers x).symm)

end Ranges

/-!
## lengths

What a quantity grows over merged ranges of indices: the sum over the steps that they take.
-/

namespace Ranges

section Contains

variable {τ : Type} [LinearOrder τ] {rs merged : List (τ × τ)} {r s : τ × τ} {x : τ}

theorem Separated.eq_of_covers (h : Separated rs) (hr : r ∈ rs) (hs : s ∈ rs)
    (hrx : r.1 ≤ x ∧ x ≤ r.2) (hsx : s.1 ≤ x ∧ x ≤ s.2) : r = s := by
  induction rs with
  | nil => simp at hr
  | cons t rs ih =>
    have hfirst : ∀ u ∈ rs, t.2 < u.1 := (pairwise_cons.mp h.apart).1
    rcases mem_cons.mp hr with hrt | hr <;> rcases mem_cons.mp hs with hst | hs
    · rw [hrt, hst]
    · have hlt := hfirst s hs
      rw [← hrt] at hlt
      exact absurd hlt (not_lt.mpr (hsx.1.trans hrx.2))
    · have hlt := hfirst r hr
      rw [← hst] at hlt
      exact absurd hlt (not_lt.mpr (hrx.1.trans hsx.2))
    · exact ih h.tail hr hs

theorem Merged.contains (h : Merged merged rs) (hr : r ∈ rs) (hlt : r.1 < r.2) :
    ∃ s ∈ merged, s.1 ≤ r.1 ∧ r.2 ≤ s.2 := by
  obtain ⟨s, hs, hlo, hhi⟩ := (h.leaves r.1).mpr ⟨r, hr, le_rfl, hlt⟩
  refine ⟨s, hs, hlo, ?_⟩
  by_contra hlast
  obtain ⟨t, ht, htlo, hthi⟩ := (h.leaves s.2).mpr ⟨r, hr, hhi.le, not_le.mp hlast⟩
  have heq : s = t := h.toSeparated.eq_of_covers (x := s.2) hs ht ⟨h.ordered s hs, le_rfl⟩
    ⟨htlo, hthi.le⟩
  exact absurd hthi (by simp [heq])

theorem Merged.exists_part (h : Merged merged rs) (hlt : ∀ r ∈ rs, r.1 < r.2) (hs : s ∈ merged) :
    ∃ r ∈ rs, s.1 = r.1 ∧ r.2 ≤ s.2 := by
  obtain ⟨r, hr, hstart⟩ := h.starts s hs
  obtain ⟨t, ht, hlo, hhi⟩ := h.contains hr (hlt r hr)
  have heq : s = t := h.toSeparated.eq_of_covers (x := s.1) hs ht ⟨le_rfl, h.ordered s hs⟩
    ⟨hlo.trans hstart.le, hstart ▸ ((hlt r hr).le.trans hhi)⟩
  exact ⟨r, hr, hstart.symm, heq ▸ hhi⟩

end Contains

section Sum

variable {rs ss : List (ℕ × ℕ)} {u : ℕ → ℚ} {n : ℕ}

instance (rs : List (ℕ × ℕ)) : DecidablePred (Leaves rs) := fun x =>
  inferInstanceAs (Decidable (∃ r ∈ rs, r.1 ≤ x ∧ x < r.2))

/-- The steps that are taken below `n`. -/
def steps (rs : List (ℕ × ℕ)) (n : ℕ) : Finset ℕ := (Finset.range n).filter (Leaves rs)

theorem sum_Ico_growth {a b : ℕ} (hab : a ≤ b) :
    ∑ i ∈ Finset.Ico a b, (u (i + 1) - u i) = u b - u a := by
  induction b, hab using Nat.le_induction with
  | base => simp
  | succ b hab ih =>
    rw [Finset.sum_Ico_succ_top hab, ih, sub_add_sub_cancel']

theorem Separated.sum_growth (h : Separated rs) (hn : ∀ r ∈ rs, r.2 ≤ n) :
    (rs.map fun r => u r.2 - u r.1).sum = ∑ i ∈ steps rs n, (u (i + 1) - u i) := by
  induction rs with
  | nil =>
    have hnone : steps [] n = ∅ := by simp [steps, Leaves]
    simp [hnone]
  | cons r rs ih =>
    have hsteps : steps (r :: rs) n = Finset.Ico r.1 r.2 ∪ steps rs n := by
      ext i
      have hlt : i < r.2 → i < n := fun hi => hi.trans_le (hn r (by simp))
      simp only [steps, Leaves, Finset.mem_filter, Finset.mem_range, Finset.mem_union,
        Finset.mem_Ico, exists_mem_cons_iff]
      tauto
    have hdisjoint : Disjoint (Finset.Ico r.1 r.2) (steps rs n) := by
      refine Finset.disjoint_left.mpr fun i hi hrest => ?_
      obtain ⟨s, hs, hlo, -⟩ := (Finset.mem_filter.mp hrest).2
      have hapart := (pairwise_cons.mp h.apart).1 s hs
      have hhi := (Finset.mem_Ico.mp hi).2
      omega
    rw [map_cons, sum_cons, ih h.tail fun s hs => hn s (by simp [hs]), hsteps,
      Finset.sum_union hdisjoint, sum_Ico_growth (h.ordered r (by simp))]

theorem sum_growth_le (hu : ∀ i < n, u i ≤ u (i + 1)) (hr : Separated rs) (hs : Separated ss)
    (hrn : ∀ r ∈ rs, r.2 ≤ n) (hsn : ∀ s ∈ ss, s.2 ≤ n) (hsub : ∀ x, Leaves rs x → Leaves ss x) :
    (rs.map fun r => u r.2 - u r.1).sum ≤ (ss.map fun s => u s.2 - u s.1).sum := by
  rw [hr.sum_growth hrn, hs.sum_growth hsn]
  refine Finset.sum_le_sum_of_subset_of_nonneg
    (Finset.monotone_filter_right _ fun x _ => hsub x) fun i hi _ => ?_
  have hlt := Finset.mem_range.mp (Finset.mem_filter.mp hi).1
  exact sub_nonneg.mpr (hu i hlt)

theorem sum_growth_le_whole (hu : ∀ i < n, u i ≤ u (i + 1)) (hr : Separated rs)
    (hrn : ∀ r ∈ rs, r.2 ≤ n) : (rs.map fun r => u r.2 - u r.1).sum ≤ u n - u 0 := by
  have hwhole : Separated [(0, n)] := ⟨by simp, pairwise_singleton _ _⟩
  have h := sum_growth_le hu hr hwhole hrn (by simp) fun x hx => by
    obtain ⟨r, hrs, -, hlt⟩ := hx
    exact ⟨(0, n), by simp, Nat.zero_le x, hlt.trans_le (hrn r hrs)⟩
  simpa using h

end Sum

end Ranges

end Codexon
