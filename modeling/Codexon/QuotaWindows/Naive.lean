import Codexon.QuotaWindows

/-!
# Codexon.QuotaWindows.Naive

The lookups find what looking at everything finds.
-/

namespace Codexon.QuotaWindows

open List

open QuotaClip (Endpoint CostRow Cycle)

variable {ρ : Type}

/-! ## requests -/

def Overlaps (start stop : ℚ) (s : Span ρ) : Bool :=
  s.since ≤ stop && (start : WithTop ℚ) ≤ s.until_

section Sorted

variable {β : Type} (since : β → ℚ) (until_ : β → WithTop ℚ) (xs : List β) (start stop : ℚ)

theorem take_starts : (Keyed.sort since xs).take
      (((Keyed.sort since xs).takeWhile fun s => since s ≤ stop).length) =
    (Keyed.sort since xs).filter fun s => since s ≤ stop := by
  rw [take_length_takeWhile]
  exact Keyed.takeWhile_eq_filter (Keyed.sorted_sort xs) fun x y hle hy => by
    simpa using hle.trans (by simpa using hy)

theorem drop_ends : (Keyed.sort until_ xs).drop
      (((Keyed.sort until_ xs).takeWhile fun s => until_ s < (start : WithTop ℚ)).length) =
    (Keyed.sort until_ xs).filter fun s => (start : WithTop ℚ) ≤ until_ s := by
  rw [drop_length_takeWhile, Keyed.dropWhile_eq_filter (Keyed.sorted_sort xs)]
  · refine filter_congr fun s _ => ?_
    rw [Bool.eq_iff_iff]
    simp
  · exact fun x y hle hy => by simpa using hle.trans_lt (by simpa using hy)

theorem found_perm (c : Prop) [Decidable c] :
    (if c then
        ((Keyed.sort since xs).take
          (((Keyed.sort since xs).takeWhile fun s => since s ≤ stop).length)).filter
            fun s => (start : WithTop ℚ) ≤ until_ s
      else
        ((Keyed.sort until_ xs).drop
          (((Keyed.sort until_ xs).takeWhile fun s =>
            until_ s < (start : WithTop ℚ)).length)).filter fun s => since s ≤ stop).Perm
      (xs.filter fun s => since s ≤ stop && (start : WithTop ℚ) ≤ until_ s) := by
  split_ifs
  · rw [take_starts, filter_filter]
    refine ((Keyed.perm_sort xs).filter _).trans (List.Perm.of_eq ?_)
    exact filter_congr fun s _ => Bool.and_comm _ _
  · rw [drop_ends, filter_filter]
    exact (Keyed.perm_sort xs).filter _

end Sorted

theorem overlappingPython_perm (spans : List (Span ρ)) (start stop : ℚ) :
    ((pythonIndex spans).overlappingPython start stop).Perm
      ((spans.filter (Overlaps start stop)).map Span.row) := by
  have hfound := (found_perm Span.since Span.until_ spans start stop
    (bisectRight ((pythonIndex spans).starts.map Span.since) stop ≤
      (pythonIndex spans).ends.length -
        bisectLeft ((pythonIndex spans).ends.map Span.until_) (start : WithTop ℚ))).map Span.row
  refine List.Perm.trans (List.Perm.of_eq ?_) hfound
  unfold Index.overlappingPython
  dsimp only
  split_ifs <;> simp [pythonIndex, bisectRight, bisectLeft, takeWhile_map, Function.comp_def]

theorem rows_of_indices (spans : List (Span ρ)) (p : Span ρ → Bool) (q : Timed → Bool)
    (h : ∀ s i, q (s.since, s.until_, i) = p s) :
    (((spans.zipIdx.map fun s => (s.1.since, s.1.until_, s.2)).filter q).map
        (·.2.2)).filterMap ((spans.map Span.row)[·]?) = (spans.filter p).map Span.row := by
  have hget : ∀ s ∈ spans.zipIdx, (spans.map Span.row)[s.2]? = some s.1.row := by
    intro s hs
    rw [List.getElem?_map, mem_zipIdx_iff_getElem?.mp hs, Option.map_some]
  rw [filter_map, List.map_map, filterMap_map]
  have hfilter : spans.zipIdx.filter (q ∘ fun s => (s.1.since, s.1.until_, s.2)) =
      spans.zipIdx.filter fun s => p s.1 := filter_congr fun s _ => h s.1 s.2
  rw [hfilter]
  have hsome : (spans.zipIdx.filter fun s => p s.1).filterMap
      (((spans.map Span.row)[·]?) ∘ (fun t : Timed => t.2.2) ∘
        fun s : Span ρ × Nat => (s.1.since, s.1.until_, s.2)) =
      (spans.zipIdx.filter fun s => p s.1).filterMap fun s => some s.1.row :=
    filterMap_congr fun s hs => hget s (mem_of_mem_filter hs)
  have hfst : (spans.zipIdx.filter fun s => p s.1).map Prod.fst = spans.filter p := by
    rw [← zipIdx_map_fst 0 spans, filter_map, zipIdx_map_fst]
    rfl
  rw [hsome, filterMap_eq_map', ← hfst, List.map_map]
  rfl

theorem overlapping_new_perm {spans : List (Span ρ)} {index : NativeIndex ρ}
    (h : NativeIndex.new spans = some index) (start stop : ℚ) :
    (index.overlapping start stop).Perm ((spans.filter (Overlaps start stop)).map Span.row) := by
  unfold NativeIndex.new at h
  split_ifs at h
  rw [← Option.some.inj h, NativeIndex.overlapping]
  dsimp only
  rw [← rows_of_indices spans (Overlaps start stop)
    (fun s => s.1 ≤ stop && (start : WithTop ℚ) ≤ s.2.1) fun s i => rfl]
  refine List.Perm.filterMap _ ?_
  rw [← apply_ite (List.map fun s : Timed => s.2.2)]
  exact (found_perm (fun s : Timed => s.1) (fun s : Timed => s.2.1) _ start stop _).map _

theorem overlapping_perm (native : Bool) (spans : List (Span ρ)) (start stop : ℚ) :
    (overlapping native spans start stop).Perm
      ((spans.filter (Overlaps start stop)).map Span.row) := by
  have hpython := overlappingPython_perm spans start stop
  unfold overlapping
  by_cases hnative : (native && 128 ≤ spans.length) = true
  · rw [if_pos hnative]
    cases hnew : NativeIndex.new spans with
    | none => exact hpython
    | some index =>
      dsimp only
      split_ifs
      · exact overlapping_new_perm hnew start stop
      · exact hpython
  · rw [if_neg hnative]
    exact hpython

/-! ## ends and calls -/

theorem length_takeWhile_takeWhile {β : Type} (p q : β → Bool) (xs : List β) :
    ((xs.takeWhile q).takeWhile p).length =
      min (xs.takeWhile p).length (xs.takeWhile q).length := by
  induction xs with
  | nil => rfl
  | cons x xs ih => by_cases hp : p x = true <;> by_cases hq : q x = true <;> simp [hp, hq, ih]

theorem between_eq_filter {β τ : Type} [LinearOrder τ] {key : β → τ} {p q : β → Bool} {xs : List β}
    (hsorted : xs.Pairwise fun x y => key x ≤ key y)
    (hp : ∀ x y, key x ≤ key y → p y = true → p x = true)
    (hq : ∀ x y, key x ≤ key y → q y = true → q x = true) :
    (xs.take (partitionPoint q xs)).drop (min (partitionPoint p xs) (partitionPoint q xs)) =
      xs.filter fun x => !p x && q x := by
  unfold partitionPoint
  rw [take_length_takeWhile, ← length_takeWhile_takeWhile, drop_length_takeWhile,
    Keyed.takeWhile_eq_filter hsorted hq, Keyed.dropWhile_eq_filter (hsorted.filter _) hp,
    filter_filter]

theorem selected_eq (times : List ℚ) (start stop : ℚ) (leftOpen : Bool) :
    selected (ordered times) start stop leftOpen =
      (times.zipIdx.filter fun entry => (if leftOpen then start < entry.1 else start ≤ entry.1) &&
        entry.1 ≤ stop).map (·.2) := by
  have hsorted : (ordered times).Pairwise fun x y => x.1 ≤ y.1 := by
    have hlex : (ordered times).Pairwise fun x y => toLex x ≤ toLex y := Keyed.sorted_sort _
    refine hlex.imp fun {x y} h => ?_
    rcases Prod.Lex.toLex_le_toLex.mp h with hlt | heq
    · exact hlt.le
    · exact heq.1.le
  have hbetween := between_eq_filter (p := fun entry : ℚ × Nat =>
      if leftOpen then entry.1 ≤ start else entry.1 < start) (q := fun entry => entry.1 ≤ stop)
    hsorted
    (fun x y hle hy => by
      cases leftOpen with
      | false => simpa using hle.trans_lt (by simpa using hy)
      | true => simpa using hle.trans (by simpa using hy))
    (fun x y hle hy => by simpa using hle.trans (by simpa using hy))
  have hindices : (times.zipIdx.filter fun entry => (if leftOpen then start < entry.1
      else start ≤ entry.1) && entry.1 ≤ stop).map (·.2) |>.Pairwise (· ≤ ·) := by
    have hzip : (times.zipIdx.map Prod.snd).Pairwise (· ≤ ·) := by
      rw [zipIdx_map_snd, ← range_eq_range']
      exact pairwise_le_range
    exact pairwise_map.mpr ((pairwise_map.mp hzip).filter _)
  have hsame : (fun entry : ℚ × Nat =>
      !(if leftOpen then decide (entry.1 ≤ start) else decide (entry.1 < start)) &&
        decide (entry.1 ≤ stop)) =
      fun entry => (if leftOpen then decide (start < entry.1) else decide (start ≤ entry.1)) &&
        decide (entry.1 ≤ stop) := by
    funext entry
    rw [Bool.eq_iff_iff]
    cases leftOpen <;> simp
  have hvalues : selected (ordered times) start stop leftOpen =
      (((ordered times).filter fun entry : ℚ × Nat =>
        (if leftOpen then start < entry.1 else start ≤ entry.1) && entry.1 ≤ stop).map
          (·.2)).insertionSort (· ≤ ·) := by
    rw [← hsame, ← hbetween]
    rfl
  rw [hvalues]
  refine List.Perm.eq_of_pairwise' (pairwise_insertionSort _ _) hindices ?_
  exact (perm_insertionSort _ _).trans (((Keyed.perm_sort _).filter _).map _)

theorem items_of_indices {β : Type} (xs : List β) (time : β → ℚ) (p : ℚ → Bool) :
    (((xs.map time).zipIdx.filter fun entry => p entry.1).map (·.2)).filterMap (xs[·]?) =
      xs.filter fun x => p (time x) := by
  have hzip : (xs.map time).zipIdx.filter (fun entry => p entry.1) =
      (xs.zipIdx.filter fun x => p (time x.1)).map fun x => (time x.1, x.2) := by
    rw [zipIdx_map, filter_map]
    rfl
  have hget : ∀ x ∈ xs.zipIdx.filter (fun x => p (time x.1)), xs[x.2]? = some x.1 := fun x hx =>
    mem_zipIdx_iff_getElem?.mp (mem_of_mem_filter hx)
  have hfst : (xs.zipIdx.filter fun x => p (time x.1)).map Prod.fst =
      xs.filter fun x => p (time x) := by
    rw [← zipIdx_map_fst 0 xs, filter_map, zipIdx_map_fst]
    rfl
  rw [hzip, List.map_map, filterMap_map, ← hfst, ← filterMap_eq_map']
  exact filterMap_congr fun x hx => hget x hx

theorem clipThrough_eq (cycle : Cycle) (start stop : ℚ) :
    clipThrough cycle start stop = QuotaClip.clip cycle (some start) (some stop) := by
  unfold clipThrough ClipIndex.new
  split_ifs
  · have hpoints : (selected (ordered (cycle.endpoints.map Prod.fst)) start stop false).filterMap
        (cycle.endpoints[·]?) = cycle.within (some start) (some stop) := by
      rw [selected_eq, items_of_indices cycle.endpoints Prod.fst
        fun time => (if false = true then start < time else start ≤ time) && time ≤ stop]
      exact filter_congr fun r _ => by simp
    have hrows : ∀ lo hi : ℚ, (selected (ordered (cycle.costRows.map CostRow.ts)) lo hi
        true).filterMap (cycle.costRows[·]?) =
          cycle.costRows.filter fun r => lo < r.ts ∧ r.ts ≤ hi := by
      intro lo hi
      rw [selected_eq, items_of_indices cycle.costRows CostRow.ts
        fun time => (if true = true then lo < time else lo ≤ time) && time ≤ hi]
      exact filter_congr fun r _ => by simp
    dsimp only
    rw [QuotaClip.clipSelection, QuotaClip.clip, ClipIndex.select]
    dsimp only
    rw [hpoints]
    cases hspan : QuotaClip.span (cycle.within (some start) (some stop)) with
    | none => rfl
    | some ends =>
      obtain ⟨first, last⟩ := ends
      simp only [Option.map_some, hrows]
  · rfl

/-- The lookups find what overlaps or is in the range, each once. -/
theorem lookups_naive : (∀ (native : Bool) (spans : List (Span ρ)) (start stop : ℚ),
      (overlapping native spans start stop).Perm
        ((spans.filter fun s => s.since ≤ stop ∧ (start : WithTop ℚ) ≤ s.until_).map Span.row)) ∧
    (∀ (spans : List (Span ρ)) (index : NativeIndex ρ) (start stop : ℚ),
      NativeIndex.new spans = some index → (index.overlapping start stop).Perm
          ((spans.filter fun s => s.since ≤ stop ∧ (start : WithTop ℚ) ≤ s.until_).map Span.row)) ∧
    ∀ (cycle : Cycle) (start stop : ℚ),
      clipThrough cycle start stop = QuotaClip.clip cycle (some start) (some stop) := by
  have hoverlaps : ∀ start stop : ℚ, (fun s : Span ρ =>
      decide (s.since ≤ stop ∧ (start : WithTop ℚ) ≤ s.until_)) = Overlaps start stop := by
    intro start stop
    funext s
    simp [Overlaps]
  refine ⟨fun native spans start stop => ?_, fun spans index start stop h => ?_, clipThrough_eq⟩
  · rw [hoverlaps]
    exact overlapping_perm native spans start stop
  · rw [hoverlaps]
    exact overlapping_new_perm h start stop

end Codexon.QuotaWindows
