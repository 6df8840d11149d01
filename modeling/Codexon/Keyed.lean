import Mathlib.Data.List.Sort

/-!
# Codexon.Keyed

Lists in the order of a key: what sorting and merging keep of a selection by the key; and
pages of a sorted list.
-/

namespace Codexon.Keyed

open List

variable {α τ : Type} [LinearOrder τ] (key : α → τ) (q : τ → Bool)

def Sorted (xs : List α) : Prop := xs.Pairwise fun a b => key a ≤ key b

def select (xs : List α) : List α := xs.filter fun a => q (key a)

def sort (xs : List α) : List α := xs.insertionSort fun a b => key a ≤ key b

def merge (xs ys : List α) : List α := xs.merge ys fun a b => key a ≤ key b

variable {key q} {xs ys : List α} {a : α}

theorem Sorted.select (h : Sorted key xs) : Sorted key (select key q xs) := List.Pairwise.filter _ h

theorem sorted_sort (xs : List α) : Sorted key (sort key xs) := by
  have htotal : Std.Total fun a b : α => key a ≤ key b := ⟨fun a b => le_total (key a) (key b)⟩
  have htrans : IsTrans α fun a b => key a ≤ key b := ⟨fun a b c => le_trans⟩
  exact pairwise_insertionSort _ xs

omit [LinearOrder τ] in
theorem select_cons (a : α) (xs : List α) :
    select key q (a :: xs) = if q (key a) then a :: select key q xs else select key q xs :=
  filter_cons

omit [LinearOrder τ] in
theorem select_append (xs ys : List α) :
    select key q (xs ++ ys) = select key q xs ++ select key q ys :=
  filter_append xs ys

theorem sort_map {β : Type} (key : β → τ) (f : α → β) (xs : List α) :
    sort key (xs.map f) = (sort (fun a => key (f a)) xs).map f :=
  (map_insertionSort _ _ f xs fun _ _ _ _ => Iff.rfl).symm

theorem perm_sort (xs : List α) : (sort key xs).Perm xs := perm_insertionSort _ xs

theorem mem_sort : a ∈ sort key xs ↔ a ∈ xs := (perm_sort xs).mem_iff

theorem le_of_mem_select (h : Sorted key (a :: xs)) {b : α}
    (hb : b ∈ Keyed.select key q (a :: xs)) : key a ≤ key b := by
  rcases mem_cons.mp (mem_of_mem_filter hb) with rfl | hb
  · exact le_rfl
  · exact rel_of_pairwise_cons h hb

theorem orderedInsert_of_le {b : α} (h : ∀ c ∈ xs, key b ≤ key c) :
    xs.orderedInsert (fun a b => key a ≤ key b) b = b :: xs := by
  cases xs with
  | nil => rfl
  | cons c xs => rw [orderedInsert_cons, if_pos (h c (by simp))]

theorem select_orderedInsert (h : Sorted key xs) :
    select key q (xs.orderedInsert (fun a b => key a ≤ key b) a) =
      if q (key a) then (select key q xs).orderedInsert (fun a b => key a ≤ key b) a
      else select key q xs := by
  induction xs with
  | nil => by_cases ha : q (key a) <;> simp [select, ha]
  | cons b xs ih =>
    rw [orderedInsert_cons]
    by_cases hab : key a ≤ key b
    · have hle : ∀ c ∈ select key q (b :: xs), key a ≤ key c := fun c hc =>
        hab.trans (le_of_mem_select h hc)
      rw [if_pos hab, orderedInsert_of_le hle]
      by_cases ha : q (key a) <;> simp [select, ha]
    · have ih := ih h.of_cons
      rw [if_neg hab]
      by_cases hb : q (key b)
      · rw [select_cons, if_pos hb, select_cons, if_pos hb, ih, orderedInsert_cons,
          if_neg hab]
        split <;> rfl
      · rw [select_cons, if_neg hb, select_cons, if_neg hb, ih]

/-- **Sorting keeps what is selected.** -/
theorem select_sort (xs : List α) : select key q (sort key xs) = sort key (select key q xs) := by
  induction xs with
  | nil => rfl
  | cons a xs ih =>
    have hsort : sort key (a :: xs) =
        (sort key xs).orderedInsert (fun a b => key a ≤ key b) a := rfl
    rw [hsort, select_orderedInsert (sorted_sort xs), ih, select_cons]
    split <;> rfl

theorem merge_of_le (h : ∀ b ∈ ys, key a ≤ key b) :
    merge key (a :: xs) ys = a :: merge key xs ys := by
  cases ys with
  | nil => simp [merge]
  | cons b ys => simp [merge, h b (by simp)]

theorem merge_of_lt {b : α} (h : ∀ a ∈ xs, key b < key a) :
    merge key xs (b :: ys) = b :: merge key xs ys := by
  cases xs with
  | nil => simp [merge]
  | cons a xs => simp [merge, not_le.mpr (h a (by simp))]

/-- **Merging keeps what is selected.** -/
theorem select_merge (hxs : Sorted key xs) (hys : Sorted key ys) :
    select key q (merge key xs ys) = merge key (select key q xs) (select key q ys) := by
  induction xs generalizing ys with
  | nil => simp [merge, select]
  | cons a xs ih =>
    induction ys with
    | nil => simp [merge, select]
    | cons b ys ihys =>
      by_cases hab : key a ≤ key b
      · have hfirst : ∀ c ∈ b :: ys, key a ≤ key c := fun c hc => by
          rcases mem_cons.mp hc with rfl | hc
          · exact hab
          · exact hab.trans (rel_of_pairwise_cons hys hc)
        rw [merge_of_le hfirst, select_cons, select_cons a xs, ih hxs.of_cons hys]
        split
        · have hselected : ∀ c ∈ select key q (b :: ys), key a ≤ key c := fun c hc =>
            hfirst c (mem_of_mem_filter hc)
          rw [merge_of_le hselected]
        · rfl
      · have hfirst : ∀ c ∈ a :: xs, key b < key c := fun c hc => by
          rcases mem_cons.mp hc with rfl | hc
          · exact not_le.mp hab
          · exact (not_le.mp hab).trans_le (rel_of_pairwise_cons hxs hc)
        rw [merge_of_lt hfirst, select_cons, select_cons b ys, ihys hys.of_cons]
        split
        · have hselected : ∀ c ∈ select key q (a :: xs), key b < key c := fun c hc =>
            hfirst c (mem_of_mem_filter hc)
          rw [merge_of_lt hselected]
        · rfl

theorem sorted_merge (hxs : Sorted key xs) (hys : Sorted key ys) :
    Sorted key (merge key xs ys) := by
  have h := @List.pairwise_merge _ (fun a b => decide (key a ≤ key b))
    (fun a b c => by simpa using le_trans) (fun a b => by simpa using le_total (key a) (key b))
    xs ys (hxs.imp fun h => by simpa using h) (hys.imp fun h => by simpa using h)
  exact h.imp fun h => by simpa using h

theorem takeWhile_eq_filter {p : α → Bool} (hsorted : Sorted key xs)
    (hp : ∀ a b, key a ≤ key b → p b = true → p a = true) : xs.takeWhile p = xs.filter p := by
  induction xs with
  | nil => rfl
  | cons a xs ih =>
    by_cases ha : p a = true
    · simp [ha, ih hsorted.of_cons]
    · have hnone : ∀ b ∈ xs, ¬p b = true := fun b hb h =>
        ha (hp a b (rel_of_pairwise_cons hsorted hb) h)
      simpa [ha] using hnone

theorem dropWhile_eq_filter {p : α → Bool} (hsorted : Sorted key xs)
    (hp : ∀ a b, key a ≤ key b → p b = true → p a = true) :
    xs.dropWhile p = xs.filter fun a => !p a := by
  induction xs with
  | nil => rfl
  | cons a xs ih =>
    by_cases ha : p a = true
    · simp [ha, ih hsorted.of_cons]
    · have hall : ∀ b ∈ xs, (!p b) = true := fun b hb => by
        simpa using fun h => ha (hp a b (rel_of_pairwise_cons hsorted hb) h)
      have hfilter : (xs.filter fun b => !p b) = xs := filter_eq_self.mpr hall
      simp [ha, hfilter]

theorem select_split (h : Sorted key xs) (k : τ) :
    xs = select key (· < k) xs ++ select key (k ≤ ·) xs := by
  induction xs with
  | nil => rfl
  | cons a xs ih =>
    have ih := ih h.of_cons
    by_cases ha : key a < k
    · rw [select_cons, select_cons, if_pos (by simpa using ha), if_neg (by simpa using ha),
        cons_append, ← ih]
    · have hk : k ≤ key a := not_lt.mp ha
      have hnone : select key (· < k) xs = [] := filter_eq_nil_iff.mpr fun x hx => by
        simpa using hk.trans (rel_of_pairwise_cons h hx)
      rw [hnone, nil_append] at ih
      rw [select_cons, select_cons, if_neg (by simpa using ha), if_pos (by simpa using hk),
        hnone, nil_append, ← ih]

end Codexon.Keyed

namespace Codexon

/-! ## pages: what a query with `ORDER BY … LIMIT` returns -/

variable {α : Type*} [LinearOrder α] {xs : List α}

theorem mem_take_of_le (hsorted : xs.Pairwise (· ≤ ·)) {n : Nat} {last x : α}
    (hlast : last ∈ xs.take n) (hx : x ∈ xs) (hle : x ≤ last) : x ∈ xs.take n := by
  rw [← List.take_append_drop n xs] at hsorted hx
  rcases List.mem_append.mp hx with hx | hx
  · exact hx
  · have hge := (List.pairwise_append.mp hsorted).2.2 last hlast x hx
    rw [le_antisymm hle hge]
    exact hlast

theorem le_of_getLast? (hsorted : xs.Pairwise (· ≤ ·)) {last x : α}
    (hlast : xs.getLast? = some last) (hx : x ∈ xs) : x ≤ last := by
  obtain ⟨front, rfl⟩ := List.getLast?_eq_some_iff.mp hlast
  rcases List.mem_append.mp hx with hx | hx
  · exact (List.pairwise_append.mp hsorted).2.2 x hx last (List.mem_singleton_self last)
  · rw [List.mem_singleton.mp hx]

end Codexon
