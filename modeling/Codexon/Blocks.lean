import Mathlib.Data.List.Basic
import Mathlib.Data.List.Induction
import Mathlib.Data.List.TakeWhile
import Mathlib.Order.Nat
import Mathlib.Order.Lattice

/-!
# Codexon.Blocks

A list cut into blocks, and how the ends of the blocks find a position or a range of it.
-/

namespace Codexon

open List

/-! ## bisect -/

section Bisect

variable {τ : Type} [LinearOrder τ] {xs : List τ} {x y : τ} {k : Nat}

def bisectLeft (xs : List τ) (x : τ) : Nat := (xs.takeWhile (· < x)).length

def bisectRight (xs : List τ) (x : τ) : Nat := (xs.takeWhile (· ≤ x)).length

theorem take_length_takeWhile {α : Type} (p : α → Bool) (xs : List α) :
    xs.take (xs.takeWhile p).length = xs.takeWhile p := by
  induction xs with
  | nil => simp
  | cons a xs ih => by_cases ha : p a <;> simp [ha, ih]

theorem drop_length_takeWhile {α : Type} (p : α → Bool) (xs : List α) :
    xs.drop (xs.takeWhile p).length = xs.dropWhile p := by
  induction xs with
  | nil => simp
  | cons a xs ih => by_cases ha : p a <;> simp [ha, ih]

theorem of_getElem?_lt {α : Type} {p : α → Bool} {xs : List α} {k : Nat} {a : α}
    (hk : k < (xs.takeWhile p).length) (ha : xs[k]? = some a) : p a := by
  have htake : (xs.takeWhile p)[k]? = some a := by
    rw [← take_length_takeWhile p xs, List.getElem?_take_of_lt hk, ha]
  exact mem_takeWhile_imp (mem_of_getElem? htake)

theorem not_of_getElem?_length {α : Type} {p : α → Bool} {xs : List α} {a : α}
    (ha : xs[(xs.takeWhile p).length]? = some a) : p a = false := by
  induction xs with
  | nil => simp at ha
  | cons b xs ih => by_cases hb : p b <;> simp_all

theorem bisectLeft_le (xs : List τ) (x : τ) : bisectLeft xs x ≤ xs.length :=
    (xs.takeWhile_sublist _).length_le

theorem bisectRight_le (xs : List τ) (x : τ) : bisectRight xs x ≤ xs.length :=
    (xs.takeWhile_sublist _).length_le

theorem bisectRight_le_bisectLeft (xs : List τ) (h : x < y) : bisectRight xs x ≤ bisectLeft xs y :=
    by
  rw [bisectRight, bisectLeft]
  induction xs with
  | nil => simp
  | cons a xs ih =>
    by_cases ha : a ≤ x
    · simp [ha, ha.trans_lt h, ih]
    · simp [ha]

theorem lt_of_lt_bisectLeft (hk : k < bisectLeft xs x) (hy : xs[k]? = some y) : y < x := by
  simpa using of_getElem?_lt hk hy

theorem le_of_lt_bisectRight (hk : k < bisectRight xs x) (hy : xs[k]? = some y) : y ≤ x := by
  simpa using of_getElem?_lt hk hy

theorem le_of_bisectLeft (hy : xs[bisectLeft xs x]? = some y) : x ≤ y := by
  simpa using not_of_getElem?_length hy

theorem lt_of_bisectRight (hy : xs[bisectRight xs x]? = some y) : x < y := by
  simpa using not_of_getElem?_length hy

theorem take_bisectLeft (hsorted : xs.Pairwise (· ≤ ·)) :
    xs.take (bisectLeft xs x) = xs.filter (· < x) := by
  rw [bisectLeft, take_length_takeWhile]
  induction xs with
  | nil => simp
  | cons a xs ih =>
    rw [pairwise_cons] at hsorted
    by_cases ha : a < x
    · simp [ha, ih hsorted.2]
    · have hnone : ∀ b ∈ xs, x ≤ b := fun b hb => (not_lt.mp ha).trans (hsorted.1 b hb)
      simpa [ha] using hnone

theorem drop_bisectLeft (hsorted : xs.Pairwise (· ≤ ·)) :
    xs.drop (bisectLeft xs x) = xs.filter (x ≤ ·) := by
  rw [bisectLeft, drop_length_takeWhile]
  induction xs with
  | nil => simp
  | cons a xs ih =>
    rw [pairwise_cons] at hsorted
    by_cases ha : a < x
    · simp [ha, not_le.mpr ha, ih hsorted.2]
    · have hall : ∀ b ∈ xs, x ≤ b := fun b hb => (not_lt.mp ha).trans (hsorted.1 b hb)
      have hfilter : xs.filter (x ≤ ·) = xs := by simpa using hall
      simp [ha, not_lt.mp ha, hfilter]

end Bisect

/-! ## blocks -/

namespace Blocks

variable {ρ : Type} {bs : List (List ρ)} {k start stop : Nat}

/-- Block `k`. -/
def get (bs : List (List ρ)) (k : Nat) : List ρ := bs[k]?.getD []

/-- Where block `k` begins. -/
def base (bs : List (List ρ)) (k : Nat) : Nat := (bs.take k).flatten.length

/-- Where the blocks end. -/
def ends (bs : List (List ρ)) : List Nat := (List.range bs.length).map fun k => base bs (k + 1)

/-- What a block from `base` on has in a range. -/
def portion (start stop base : Nat) (b : List ρ) : List ρ :=
  (b.take (stop - base)).drop (start - base)

theorem get_eq {b : List ρ} (hb : bs[k]? = some b) : get bs k = b := by
  rw [get, hb, Option.getD_some]

theorem getElem?_eq_get (hk : k < bs.length) : bs[k]? = some (get bs k) := by simp [get, hk]

@[simp] theorem base_zero : base bs 0 = 0 := rfl

@[simp] theorem length_ends : (ends bs).length = bs.length := by simp [ends]

theorem base_length : base bs bs.length = bs.flatten.length := by simp [base]

theorem base_append_of_le {cs : List (List ρ)} (hk : k ≤ bs.length) :
    base (bs ++ cs) k = base bs k := by
  rw [base, take_append_of_le_length hk, base]

theorem base_take {m : Nat} (hk : k ≤ m) : base (bs.take m) k = base bs k := by
  rw [base, take_take, Nat.min_eq_left hk, base]

theorem base_append (bs cs : List (List ρ)) (k : Nat) :
    base (bs ++ cs) (bs.length + k) = base bs bs.length + base cs k := by
  simp [base, take_length_add_append]

theorem base_succ {b : List ρ} (hb : bs[k]? = some b) : base bs (k + 1) = base bs k + b.length := by
  simp [base, take_add_one, hb]

theorem base_mono (bs : List (List ρ)) {j k : Nat} (h : j ≤ k) : base bs j ≤ base bs k := by
  obtain ⟨m, rfl⟩ := Nat.exists_eq_add_of_le h
  simp [base, take_add]

theorem getElem?_ends (hk : k < bs.length) : (ends bs)[k]? = some (base bs (k + 1)) := by
  simp [ends, hk]

theorem ends_append (bs cs : List (List ρ)) :
    ends (bs ++ cs) = ends bs ++ (ends cs).map (base bs bs.length + ·) := by
  rw [ends, length_append, range_add, map_append, ends, ends]
  congr 1
  · refine map_congr_left fun k hk => base_append_of_le ?_
    have hk : k < bs.length := by simpa using hk
    omega
  · rw [List.map_map, List.map_map]
    exact map_congr_left fun k _ => base_append bs cs (k + 1)

theorem ends_take_drop (bs : List (List ρ)) (k : Nat) :
    ends bs = ends (bs.take k) ++ (ends (bs.drop k)).map (base bs k + ·) := by
  conv_lhs => rw [← take_append_drop k bs, ends_append]
  rw [base_length, base]

theorem ends_take (bs : List (List ρ)) (k : Nat) : ends (bs.take k) = (ends bs).take k := by
  conv_rhs => rw [ends_take_drop bs k]
  rcases le_total k bs.length with hk | hk
  · rw [take_left' (by simp [hk])]
  · simp [drop_of_length_le hk, take_of_length_le, hk, ends]

theorem ends_drop (bs : List (List ρ)) (k : Nat) :
    ends (bs.drop k) = ((ends bs).drop k).map (· - base bs k) := by
  conv_rhs => rw [ends_take_drop bs k]
  rcases le_total k bs.length with hk | hk
  · rw [drop_left' (by simp [hk]), List.map_map]
    simp [Function.comp_def]
  · simp [drop_of_length_le hk, hk, ends]

theorem getLast?_ends (bs : List (List ρ)) : (ends bs).getLast?.getD 0 = bs.flatten.length := by
  rw [getLast?_eq_getElem?, length_ends]
  cases bs with
  | nil => rfl
  | cons b bs =>
    rw [length_cons, Nat.add_sub_cancel, getElem?_ends (by simp), ← base_length]
    rfl

/-! ## a position -/

theorem exists_block {i : Nat} (hi : i < bs.flatten.length) :
    ∃ b, bs[bisectRight (ends bs) i]? = some b ∧ base bs (bisectRight (ends bs) i) ≤ i ∧
      i - base bs (bisectRight (ends bs) i) < b.length ∧
      bs.flatten[i]? = b[i - base bs (bisectRight (ends bs) i)]? := by
  have hle := bisectRight_le (ends bs) i
  have hlt : bisectRight (ends bs) i < bs.length := by
    rw [length_ends] at hle
    refine lt_of_le_of_ne hle fun heq => ?_
    cases hlast : bs.length with
    | zero => simp [length_eq_zero_iff.mp hlast] at hi
    | succ n =>
      have hn : n < bs.length := by omega
      have := le_of_lt_bisectRight (x := i) (by omega) (getElem?_ends hn)
      rw [← hlast, base_length] at this
      omega
  have hbefore : base bs (bisectRight (ends bs) i) ≤ i := by
    cases hk : bisectRight (ends bs) i with
    | zero => simp
    | succ k => exact le_of_lt_bisectRight (by omega) (getElem?_ends (by omega))
  have hafter := lt_of_bisectRight (getElem?_ends hlt)
  have hb := List.getElem?_eq_getElem hlt
  rw [base_succ hb] at hafter
  refine ⟨_, hb, hbefore, by omega, ?_⟩
  have hsplit : bs = bs.take (bisectRight (ends bs) i) ++
      bs[bisectRight (ends bs) i] :: bs.drop (bisectRight (ends bs) i + 1) := by simp
  conv_lhs => rw [hsplit]
  rw [flatten_append, flatten_cons, List.getElem?_append_right hbefore,
    List.getElem?_append_left (by rw [← base]; omega), base]

/-! ## a range -/

theorem flatMap_portion (bs : List (List ρ)) (start stop : Nat) :
    ((List.range bs.length).flatMap fun k => portion start stop (base bs k) (get bs k)) =
      (bs.flatten.take stop).drop start := by
  induction bs using List.reverseRecOn with
  | nil => simp
  | append_singleton bs b ih =>
    have hbefore : ((List.range bs.length).flatMap fun k =>
        portion start stop (base (bs ++ [b]) k) (get (bs ++ [b]) k)) =
        (bs.flatten.take stop).drop start := by
      rw [← ih]
      refine flatMap_congr fun k hk => ?_
      have hlt : k < bs.length := by simpa using hk
      rw [base_append_of_le hlt.le, get, List.getElem?_append_left hlt, get]
    rw [length_append, length_singleton, range_succ, flatMap_append, hbefore]
    have hbase : base (bs ++ [b]) bs.length = bs.flatten.length := by
      rw [base_append_of_le le_rfl, base_length]
    have hget : get (bs ++ [b]) bs.length = b := by simp [get]
    simp only [flatMap_cons, flatMap_nil, List.append_nil, hbase, hget, portion,
      flatten_append, flatten_cons, flatten_nil, take_append,
      drop_append, length_take]
    rcases le_total bs.flatten.length stop with h | h
    · rw [Nat.min_eq_right h]
    · rw [Nat.sub_eq_zero_of_le h, take_zero, drop_nil, drop_nil]

theorem flatMap_portion_range (hle : start < stop) (hstop : stop ≤ bs.flatten.length) :
    bisectLeft (ends bs) stop < bs.length ∧ (List.range' (bisectRight (ends bs) start)
      (bisectLeft (ends bs) stop + 1 - bisectRight (ends bs) start)).flatMap
        (fun k => portion start stop (base bs k) (get bs k)) =
      (bs.flatten.take stop).drop start := by
  generalize hfirst : bisectRight (ends bs) start = first
  generalize hlast : bisectLeft (ends bs) stop = last
  have hbase {k : Nat} (hk : k < bs.length) : base bs (k + 1) = base bs k + (get bs k).length :=
    base_succ (getElem?_eq_get hk)
  have hlt : last < bs.length := by
    have hle := bisectLeft_le (ends bs) stop
    rw [length_ends, hlast] at hle
    refine lt_of_le_of_ne hle fun heq => ?_
    cases hlength : bs.length with
    | zero => simp [length_eq_zero_iff.mp hlength] at hstop; omega
    | succ n =>
      have hn : n < bs.length := by omega
      have := lt_of_lt_bisectLeft (x := stop) (by omega) (getElem?_ends hn)
      rw [← hlength, base_length] at this
      omega
  have hreach : stop ≤ base bs (last + 1) :=
    le_of_bisectLeft (x := stop) (by rw [hlast]; exact getElem?_ends hlt)
  have hbefore {k : Nat} (hk : k < first) (hkl : k < bs.length) : base bs (k + 1) ≤ start :=
    le_of_lt_bisectRight (hfirst ▸ hk) (getElem?_ends hkl)
  have hordered : first ≤ last := hfirst ▸ hlast ▸ bisectRight_le_bisectLeft _ hle
  refine ⟨hlt, ?_⟩
  rw [← flatMap_portion bs start stop, range_eq_range',
    show bs.length = first + ((last + 1 - first) + (bs.length - (last + 1))) by omega,
    ← range'_append_1, ← range'_append_1, flatMap_append, flatMap_append]
  have hleft : (List.range' 0 first).flatMap
      (fun k => portion start stop (base bs k) (get bs k)) = [] := by
    refine flatMap_eq_nil_iff.mpr fun k hk => ?_
    have hk : k < first := by simpa using hk
    have := hbefore hk (by omega)
    rw [hbase (by omega)] at this
    exact drop_eq_nil_of_le (by rw [length_take]; omega)
  have hright : (List.range' (0 + first + (last + 1 - first)) (bs.length - (last + 1))).flatMap
      (fun k => portion start stop (base bs k) (get bs k)) = [] := by
    refine flatMap_eq_nil_iff.mpr fun k hk => ?_
    have hk : last + 1 ≤ k := by have := mem_range'_1.mp hk; omega
    have := base_mono bs hk
    simp [portion, show stop - base bs k = 0 by omega]
  rw [hleft, hright, nil_append, List.append_nil, Nat.zero_add]

end Blocks

end Codexon
