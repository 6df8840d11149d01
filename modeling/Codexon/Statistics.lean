import Mathlib.Algebra.Order.Floor.Ring
import Mathlib.Data.List.DropRight
import Mathlib.Data.List.Sort

/-!
# Codexon.Statistics

Statistics of a list of numbers, and queues that keep the last ones.
-/

namespace Codexon.Statistics

open List

/-! ## order statistics -/

section Order

variable {K : Type*} [LinearOrder K] {xs ys : List K}

def ordered (xs : List K) : List K := xs.insertionSort (· ≤ ·)

theorem ordered_perm (h : xs.Perm ys) : ordered xs = ordered ys := by
  have hperm : (ordered xs).Perm (ordered ys) :=
    (perm_insertionSort _ xs).trans (h.trans (perm_insertionSort _ ys).symm)
  have hxs : (ordered xs).Pairwise (· ≤ ·) := pairwise_insertionSort _ xs
  have hys : (ordered ys).Pairwise (· ≤ ·) := pairwise_insertionSort _ ys
  exact hperm.eq_of_pairwise (fun _ _ _ _ => le_antisymm) hxs hys

@[simp]
theorem length_ordered (xs : List K) : (ordered xs).length = xs.length :=
  length_insertionSort _ xs

theorem bounds_eq (xs : List K) (a b : K) :
    (if xs.length = 0 then [] else [xs.min?.getD a, xs.max?.getD b]).min? = xs.min? ∧
      (if xs.length = 0 then [] else [xs.min?.getD a, xs.max?.getD b]).max? = xs.max? := by
  cases xs with
  | nil => exact ⟨rfl, rfl⟩
  | cons x xs =>
    have hmin : (x :: xs).min? = some (xs.foldl min x) := min?_cons'
    have hmax : (x :: xs).max? = some (xs.foldl max x) := max?_cons'
    have hle : xs.foldl min x ≤ xs.foldl max x :=
      ((min?_eq_some_iff.mp hmin).2 x mem_cons_self).trans
        ((max?_eq_some_iff.mp hmax).2 x mem_cons_self)
    rw [hmin, hmax]
    simp [hle]

end Order

section Field

variable {K : Type*} [Field K] [LinearOrder K]

def middle (xs : List K) : K :=
  let index := xs.length / 2
  if xs.length % 2 = 0 then (xs.getD (index - 1) 0 + xs.getD index 0) / 2 else xs.getD index 0

def median (xs : List K) : K := middle (ordered xs)

theorem median_perm {xs ys : List K} (h : xs.Perm ys) : median xs = median ys := by
  unfold median
  rw [ordered_perm h]

theorem median_ordered (f : K → K) (xs : List K) :
    median ((ordered xs).map f) = median (xs.map f) :=
  median_perm ((perm_insertionSort _ xs).map f)

/-- The value at a part `q` of a list in order, between two values in proportion. -/
def quantile [FloorRing K] (xs : List K) (q : K) : Option K :=
  if xs = [] then none
  else
    let position := ((xs.length - 1 : Nat) : K) * q
    let index := ⌊position⌋.toNat
    let value := xs.getD index 0
    some (value + (xs.getD (min (index + 1) (xs.length - 1)) 0 - value) * (position - index))

/-! ## sums -/

def compensate (s : K × K) (value : K) : K × K :=
  let next := s.1 + value
  let error := if |value| ≤ |s.1| then s.1 - next + value else value - next + s.1
  (next, s.2 + error)

/-- A sum that adds the errors at the end; exact numbers have none. -/
def compensatedSum (xs : List K) : K :=
  let s := xs.foldl compensate (0, 0)
  s.1 + s.2

theorem foldl_compensate (xs : List K) (total : K) :
    xs.foldl compensate (total, 0) = (total + xs.sum, 0) := by
  induction xs generalizing total with
  | nil => simp
  | cons x xs ih =>
    have hstep : compensate (total, 0) x = (total + x, 0) := by
      unfold compensate
      split <;> simp
    rw [foldl_cons, hstep, ih, sum_cons, add_assoc]

theorem compensatedSum_eq (xs : List K) : compensatedSum xs = xs.sum := by
  simp [compensatedSum, foldl_compensate]

end Field

/-! ## queues -/

section Queue

variable {α : Type*} {size : Nat}

/-- A queue of the last `size` values. -/
def push (size : Nat) (queue : List α) (a : α) : List α :=
  (if queue.length = size then queue.tail else queue) ++ [a]

theorem push_eq (hsize : 0 < size) {queue : List α} (h : queue.length ≤ size) (a : α) :
    push size queue a = (queue ++ [a]).rtake size := by
  unfold push
  by_cases hfull : queue.length = size
  · obtain ⟨b, rest, rfl⟩ : ∃ b rest, queue = b :: rest :=
      exists_cons_of_length_pos (by omega)
    have hdrop : (b :: rest ++ [a]).length - size = 1 := by
      rw [length_append, length_singleton]
      omega
    rw [if_pos hfull, List.rtake, hdrop]
    rfl
  · have hdrop : (queue ++ [a]).length - size = 0 := by
      rw [length_append, length_singleton]
      omega
    rw [if_neg hfull, List.rtake, hdrop, drop_zero]

theorem length_rtake_le (size : Nat) (xs : List α) : (xs.rtake size).length ≤ size := by
  simp only [List.rtake, length_drop]
  omega

theorem rtake_rtake_append (xs ys : List α) :
    (xs.rtake size ++ ys).rtake size = (xs ++ ys).rtake size := by
  by_cases h : xs.length ≤ size
  · have hdrop : xs.length - size = 0 := by omega
    simp [List.rtake, hdrop]
  · have hkept : (xs.drop (xs.length - size) ++ ys).length - size = ys.length := by
      rw [length_append, length_drop]
      omega
    have hall : (xs ++ ys).length - size = (xs.length - size) + ys.length := by
      rw [length_append]
      omega
    have hless : xs.length - size ≤ xs.length := by omega
    unfold List.rtake
    rw [hkept, hall, ← drop_drop, drop_append_of_le_length hless]

theorem foldl_push (hsize : 0 < size) {queue : List α} (h : queue.length ≤ size) (xs : List α) :
    xs.foldl (push size) queue = (queue ++ xs).rtake size := by
  induction xs generalizing queue with
  | nil =>
    have hdrop : queue.length - size = 0 := by omega
    simp [List.rtake, hdrop]
  | cons x xs ih =>
    have hpush : push size queue x = (queue ++ [x]).rtake size := push_eq hsize h x
    have hlength : (push size queue x).length ≤ size := by
      rw [hpush]
      exact length_rtake_le size _
    rw [foldl_cons, ih hlength, hpush, rtake_rtake_append, append_assoc, singleton_append]

theorem drop_eq_filter {K : Type*} [LinearOrder K] {key : α → K} {xs : List α} {k : Nat} {t : K}
    (htake : ∀ u ∈ (xs.map key).take k, u < t) (hdrop : ∀ u ∈ (xs.map key).drop k, t ≤ u) :
    xs.drop k = xs.filter fun a => t ≤ key a := by
  have hbefore : (xs.take k).filter (fun a => t ≤ key a) = [] := by
    rw [filter_eq_nil_iff]
    intro a ha
    have hless := htake (key a) (by
      rw [← map_take]
      exact List.mem_map.mpr ⟨a, ha, rfl⟩)
    simpa using hless
  have hafter : (xs.drop k).filter (fun a => t ≤ key a) = xs.drop k := by
    rw [filter_eq_self]
    intro a ha
    have hle := hdrop (key a) (by
      rw [← map_drop]
      exact List.mem_map.mpr ⟨a, ha, rfl⟩)
    simpa using hle
  calc xs.drop k = (xs.take k ++ xs.drop k).filter fun a => t ≤ key a := by
        rw [filter_append, hbefore, hafter, nil_append]
    _ = xs.filter fun a => t ≤ key a := by rw [take_append_drop]

theorem perm_rtake {K : Type*} [LinearOrder K] {key : α → K} {xs ys : List α} (h : xs.Perm ys)
    (hxs : xs.Pairwise fun a b => key a ≤ key b) (hys : ys.Pairwise fun a b => key a ≤ key b)
    (hkeys : ∀ t ∈ (xs.map key).take (xs.length - size), t ∉ (xs.map key).drop (xs.length - size)) :
    (xs.rtake size).Perm (ys.rtake size) := by
  have hmap : ys.map key = xs.map key := by
    have hperm : (ys.map key).Perm (xs.map key) := (h.map key).symm
    have hxs' : (xs.map key).Pairwise (· ≤ ·) := pairwise_map.mpr hxs
    have hys' : (ys.map key).Pairwise (· ≤ ·) := pairwise_map.mpr hys
    exact hperm.eq_of_pairwise (fun _ _ _ _ => le_antisymm) hys' hxs'
  have hlength : ys.length = xs.length := h.length_eq.symm
  unfold List.rtake
  rw [hlength]
  cases hkept : (xs.map key).drop (xs.length - size) with
  | nil =>
    have hnone : xs.length ≤ xs.length - size := by
      simpa using drop_eq_nil_iff.mp hkept
    have hnone' : ys.length ≤ xs.length - size := by omega
    rw [drop_eq_nil_of_le hnone, drop_eq_nil_of_le hnone']
  | cons t rest =>
    have hsorted : (xs.map key).Pairwise (· ≤ ·) := pairwise_map.mpr hxs
    rw [← take_append_drop (xs.length - size) (xs.map key), hkept] at hsorted
    obtain ⟨-, hafter, hbefore⟩ := pairwise_append.mp hsorted
    have htake : ∀ u ∈ (xs.map key).take (xs.length - size), u < t := by
      intro u hu
      refine lt_of_le_of_ne (hbefore u hu t mem_cons_self) fun heq => ?_
      exact hkeys u hu (hkept ▸ heq ▸ mem_cons_self)
    have hdrop : ∀ u ∈ (xs.map key).drop (xs.length - size), t ≤ u := by
      intro u hu
      rw [hkept] at hu
      obtain rfl | hu := mem_cons.mp hu
      · exact le_rfl
      · exact (pairwise_cons.mp hafter).1 u hu
    rw [drop_eq_filter htake hdrop, drop_eq_filter (hmap ▸ htake) (hmap ▸ hdrop)]
    exact h.filter _

end Queue

end Codexon.Statistics
