import Codexon.CatalogPages

/-!
# Codexon.CatalogPages.Weight

`_catalog_weight` adds up a size and bounds a nesting, both told by the value's
structure (`weigh_eq`).  A page is built to the size its last check admits, so
that check can only find a row that nests too deep.
-/

namespace Codexon

open List

namespace Catalog

mutual
/-- The weight of a value. -/
def size : Json → Nat
  | .arr xs => 64 + 32 * xs.length + sizeElems xs
  | .obj members => 64 + 32 * members.length + sizeMembers members
  | .str s => 64 + 4 * s.length
  | .null | .bool _ | .int _ | .float _ => 32

def sizeElems : List Json → Nat
  | [] => 0
  | x :: xs => size x + sizeElems xs

def sizeMembers : List (PyStr × Json) → Nat
  | [] => 0
  | (key, value) :: members => 128 + (64 + 4 * key.length) + size value + sizeMembers members
end

mutual
/-- The iterators a value puts on the stack. -/
def nest : Json → Nat
  | .arr xs => 1 + nestElems xs
  | .obj members => 1 + nestMembers members
  | .str _ | .null | .bool _ | .int _ | .float _ => 0

def nestElems : List Json → Nat
  | [] => 0
  | x :: xs => max (nest x) (nestElems xs)

def nestMembers : List (PyStr × Json) → Nat
  | [] => 0
  | (_, value) :: members => max (1 + nest value) (nestMembers members)
end

theorem bounded_eq (budget depth weight : Nat) :
    bounded budget depth weight =
      if weight ≤ budget ∧ depth ≤ 32 then .ok weight else .error .metadataBudget := by
  unfold bounded
  by_cases hweight : weight ≤ budget <;> by_cases hdepth : depth ≤ 32 <;> simp [hweight, hdepth]

mutual
theorem weigh_eq {budget depth weight : Nat} (hdepth : depth ≤ 32) : (v : Json) →
    weigh budget depth weight v =
      if weight + size v ≤ budget ∧ depth + nest v ≤ 32 then .ok (weight + size v)
      else .error .metadataBudget
  | .arr xs => by
    rw [weigh, bounded_eq]
    by_cases hfits : weight + (64 + 32 * xs.length) ≤ budget ∧ depth + 1 ≤ 32
    · rw [if_pos hfits]
      dsimp only
      rw [weighElems_eq hfits.2 hfits.1, size, nest]
      simp only [Nat.add_assoc]
    · rw [if_neg hfits, size, nest, if_neg (by omega)]
  | .obj members => by
    rw [weigh, bounded_eq]
    by_cases hfits : weight + (64 + 32 * members.length) ≤ budget ∧ depth + 1 ≤ 32
    · rw [if_pos hfits]
      dsimp only
      rw [weighMembers_eq hfits.2 hfits.1, size, nest]
      simp only [Nat.add_assoc]
    · rw [if_neg hfits, size, nest, if_neg (by omega)]
  | .str s => by rw [weigh, bounded_eq, size, nest]; rfl
  | .null => by rw [weigh, bounded_eq, size, nest]; rfl
  | .bool _ => by rw [weigh, bounded_eq, size, nest]; rfl
  | .int _ => by rw [weigh, bounded_eq, size, nest]; rfl
  | .float _ => by rw [weigh, bounded_eq, size, nest]; rfl

theorem weighElems_eq {budget depth weight : Nat} (hdepth : depth ≤ 32) (hweight : weight ≤ budget)
    :
    (xs : List Json) → weighElems budget depth weight xs =
      if weight + sizeElems xs ≤ budget ∧ depth + nestElems xs ≤ 32 then .ok (weight + sizeElems xs)
      else .error .metadataBudget
  | [] => by simp [weighElems, sizeElems, nestElems, hdepth, hweight]
  | x :: xs => by
    rw [weighElems, weigh_eq hdepth x, sizeElems, nestElems]
    by_cases hfits : weight + size x ≤ budget ∧ depth + nest x ≤ 32
    · rw [if_pos hfits]
      dsimp only
      rw [weighElems_eq hdepth hfits.1 xs, Nat.add_assoc]
      congr 1
      rw [eq_iff_iff]
      omega
    · rw [if_neg hfits, if_neg (by omega)]

theorem weighMembers_eq {budget depth weight : Nat} (hdepth : depth ≤ 32)
    (hweight : weight ≤ budget) :
    (members : List (PyStr × Json)) → weighMembers budget depth weight members =
      if weight + sizeMembers members ≤ budget ∧ depth + nestMembers members ≤ 32 then
        .ok (weight + sizeMembers members)
      else .error .metadataBudget
  | [] => by simp [weighMembers, sizeMembers, nestMembers, hdepth, hweight]
  | (key, value) :: members => by
    rw [weighMembers, bounded_eq, sizeMembers, nestMembers]
    by_cases htuple : weight + 128 ≤ budget ∧ depth + 1 ≤ 32
    · rw [if_pos htuple]
      dsimp only
      rw [bounded_eq]
      by_cases hkey : weight + 128 + (64 + 4 * key.length) ≤ budget ∧ depth + 1 ≤ 32
      · rw [if_pos hkey]
        dsimp only
        rw [weigh_eq hkey.2 value]
        by_cases hfits : weight + 128 + (64 + 4 * key.length) + size value ≤ budget ∧
            depth + 1 + nest value ≤ 32
        · rw [if_pos hfits]
          dsimp only
          rw [weighMembers_eq hdepth hfits.1 members]
          simp only [Nat.add_assoc]
          congr 1
          rw [eq_iff_iff]
          omega
        · rw [if_neg hfits, if_neg (by omega)]
      · rw [if_neg hkey, if_neg (by omega)]
    · rw [if_neg htuple, if_neg (by omega)]
end

theorem catalogWeight_eq (value : Json) (budget : Nat) :
    catalogWeight value budget =
      if size value ≤ budget ∧ nest value ≤ 31 then .ok (size value) else .error .metadataBudget := by
  rw [catalogWeight, weigh_eq (by omega), Nat.zero_add]
  congr 1
  rw [eq_iff_iff]
  omega

theorem catalogWeight_ok {value : Json} {budget weight : Nat}
    (h : catalogWeight value budget = .ok weight) :
    weight = size value ∧ size value ≤ budget ∧ nest value ≤ 31 := by
  rw [catalogWeight_eq] at h
  split at h
  · next hfits =>
    cases h
    exact ⟨rfl, hfits⟩
  · cases h

/-! ## lists of values -/

theorem nestElems_le {xs : List Json} {n : Nat} (h : ∀ x ∈ xs, nest x ≤ n) : nestElems xs ≤ n := by
  induction xs with
  | nil => exact Nat.zero_le n
  | cons x xs ih =>
    rw [forall_mem_cons] at h
    exact max_le h.1 (ih h.2)

theorem nestMembers_le {members : List (PyStr × Json)} {n : Nat}
    (h : ∀ m ∈ members, 1 + nest m.2 ≤ n) : nestMembers members ≤ n := by
  induction members with
  | nil => exact Nat.zero_le n
  | cons m members ih =>
    rw [forall_mem_cons] at h
    exact max_le h.1 (ih h.2)

/-! ## the rows of a page -/

def taking (r : Request) (taken : List Item) : Nat :=
  (taken.map fun item => size (item.json r) + 32).sum

def listed (list : PyStr) (taken : List Item) : Nat :=
  32 * (rowsOf list taken).length + sizeElems (rowsOf list taken)

theorem listed_cons (list : PyStr) (item : Item) (taken : List Item) :
    listed list (item :: taken) = listed list taken +
      match item with
      | .row l value => if l = list then size value + 32 else 0
      | .owner _ => 0 := by
  unfold listed rowsOf
  cases item with
  | row l value =>
    by_cases hl : l = list
    · simp [hl, sizeElems]
      omega
    · simp [hl]
  | owner e => simp

theorem sum_single {names : List PyStr} (hnodup : names.Nodup) {name : PyStr} (hname : name ∈ names)
    (n : Nat) : (names.map fun l => if name = l then n else 0).sum = n := by
  induction names with
  | nil => exact absurd hname not_mem_nil
  | cons first names ih =>
    rw [nodup_cons] at hnodup
    rw [map_cons, sum_cons]
    by_cases hfirst : name = first
    · have hrest : (names.map fun l => if name = l then n else 0).sum = 0 := by
        refine sum_eq_zero fun x hx => ?_
        obtain ⟨l, hl, rfl⟩ := List.mem_map.mp hx
        have hne : name ≠ l := fun heq => hnodup.1 (by rw [← hfirst, heq]; exact hl)
        rw [if_neg hne]
      rw [if_pos hfirst, hrest, Nat.add_zero]
    · rw [if_neg hfirst, ih hnodup.2 ((mem_cons.mp hname).resolve_left hfirst), Nat.zero_add]

variable {taken : List Item}

theorem taking_eq {names : List PyStr} (hnodup : names.Nodup) (r : Request)
    (hnames : ∀ l value, Item.row l value ∈ taken → l ∈ names) :
    taking r taken = 32 * (ownersOf r taken).length + sizeElems (ownersOf r taken) +
      (names.map fun l => listed l taken).sum := by
  induction taken with
  | nil =>
    have hzero : (names.map fun l => listed l []).sum = 0 :=
      sum_eq_zero fun x hx => by
        obtain ⟨l, -, rfl⟩ := List.mem_map.mp hx
        rfl
    rw [hzero]
    rfl
  | cons item taken ih =>
    have hrest := ih fun l value hmem => hnames l value (mem_cons_of_mem _ hmem)
    have hcons : taking r (item :: taken) = size (item.json r) + 32 + taking r taken := by
      simp [taking]
    rw [hcons, hrest]
    simp only [listed_cons, List.sum_map_add]
    cases item with
    | row l value =>
      have hsingle := sum_single hnodup (hnames l value mem_cons_self) (size value + 32)
      have howners : ownersOf r (Item.row l value :: taken) = ownersOf r taken := rfl
      rw [hsingle, howners, Item.json]
      omega
    | owner e =>
      have hzero : (names.map fun _ => 0).sum = 0 := by simp
      have howners : ownersOf r (Item.owner e :: taken) = ownerRow r e :: ownersOf r taken := rfl
      rw [hzero, howners, Item.json, sizeElems, length_cons]
      omega

theorem taking_le (r : Request) {items : List Item} {position remaining finish : Nat} {empty : Bool}
    (h : fill r items position remaining empty = .ok (taken, finish)) :
    taking r taken ≤ remaining := by
  induction items generalizing position remaining empty taken with
  | nil =>
    cases h
    exact Nat.zero_le _
  | cons item items ih =>
    rw [fill] at h
    split at h
    · exact ih h
    · split at h
      · cases h
      · next weight hweight =>
        obtain ⟨rfl, -⟩ := catalogWeight_ok hweight
        split at h
        · split at h
          · cases h
          · cases h
            exact Nat.zero_le _
        · next hroom =>
          split at h
          · cases h
          · next rest finish' hrest =>
            cases h
            have := ih hrest
            simp only [taking, map_cons, sum_cons] at this ⊢
            omega

/-! ## the last check -/

theorem sizeMembers_lists (lists : List (PyStr × List Json)) (taken : List Item) :
    sizeMembers (lists.map fun l => (l.1, .arr (rowsOf l.1 taken))) =
      sizeMembers (lists.map fun l => (l.1, .arr (rowsOf l.1 []))) +
        ((lists.map Prod.fst).map fun l => listed l taken).sum := by
  induction lists with
  | nil => rfl
  | cons l lists ih =>
    simp only [map_cons, sum_cons, sizeMembers, ih, size, listed]
    have hnone : rowsOf l.1 [] = [] := rfl
    rw [hnone, sizeElems, length_nil]
    omega

/-- The rows stand in the lists of the page. -/
structure Listed (r : Request) (s : Source) (taken : List Item) : Prop where
  nodup : (s.lists.map Prod.fst).Nodup
  paged : r.paged = true → ∀ l value, Item.row l value ∈ taken → l ∈ s.lists.map Prod.fst
  whole : r.paged = false → ∀ l value, Item.row l value ∉ taken

theorem size_result (c : Content) {r : Request} {s : Source} (h : Listed r s taken)
    (next : Option Nat) :
    size (result c r s taken next) = size (result c r s [] none) + taking r taken := by
  have hnone : ownersOf r [] = [] := rfl
  have hnext (o : Option Nat) : size (nextJson o) = 32 := by
    cases o <;> rfl
  unfold result
  cases hpaged : r.paged with
  | true =>
    have htaking := taking_eq h.nodup r (h.paged hpaged)
    simp only [size, sizeMembers, length_cons, hnext, htaking, hnone, sizeElems, if_true,
      membershipJson, sizeMembers_lists s.lists taken, cons_append, nil_append,
      length_nil, length_map]
    omega
  | false =>
    have htaking := taking_eq nodup_nil r
      fun l value hmem => absurd hmem (h.whole hpaged l value)
    simp only [size, sizeMembers, length_cons, hnext, htaking, hnone, sizeElems,
      Bool.false_eq_true, if_false, nil_append, length_nil, map_nil, sum_nil]
    omega

/-- How deep a row may nest where it stands in a response. -/
def Item.room : Item → Nat
  | .row _ _ => 26
  | .owner _ => 28

theorem nest_result (c : Content) {r : Request} {s : Source}
    (hempty : nest (result c r s [] none) ≤ 31)
    (hnest : ∀ item ∈ taken, nest (item.json r) ≤ item.room)
    (next : Option Nat) : nest (result c r s taken next) ≤ 31 := by
  have howners : nestElems (ownersOf r taken) ≤ 28 := by
    refine nestElems_le fun x hx => ?_
    obtain ⟨item, hitem, hjson⟩ := mem_filterMap.mp hx
    cases item with
    | row l value => cases hjson
    | owner e =>
      cases hjson
      exact hnest _ hitem
  have hrows (list : PyStr) : nestElems (rowsOf list taken) ≤ 26 := by
    refine nestElems_le fun x hx => ?_
    obtain ⟨item, hitem, hjson⟩ := mem_filterMap.mp hx
    cases item with
    | owner e => cases hjson
    | row l value =>
      dsimp only at hjson
      split at hjson
      · cases hjson
        exact hnest _ hitem
      · cases hjson
  have hlists : nestMembers (s.lists.map fun l => (l.1, Json.arr (rowsOf l.1 taken))) ≤ 28 := by
    refine nestMembers_le fun m hm => ?_
    obtain ⟨l, -, rfl⟩ := List.mem_map.mp hm
    have := hrows l.1
    simp only [nest]
    omega
  have hnext : nest (nextJson next) = 0 := by
    cases next <;> rfl
  unfold result at hempty ⊢
  cases hpaged : r.paged with
  | true =>
    simp only [hpaged, nest, nestMembers, hnext, membershipJson, if_true, cons_append,
      nil_append] at hempty ⊢
    omega
  | false =>
    simp only [hpaged, nest, nestMembers, hnext, Bool.false_eq_true, if_false, nil_append] at hempty ⊢
    omega

/-- **The last check** of a page built to its budget passes if no row nests deeper
than the response leaves room for. -/
theorem result_ok {c : Content} {r : Request} {s : Source} {weight : Nat}
    (hempty : catalogWeight (result c r s [] none) pageBytes = .ok weight)
    (hlisted : Listed r s taken) (htaking : taking r taken ≤ pageBytes - weight)
    (hnest : ∀ item ∈ taken, nest (item.json r) ≤ item.room) (next : Option Nat) :
    ∃ w, catalogWeight (result c r s taken next) pageBytes = .ok w := by
  obtain ⟨rfl, hsize, hdepth⟩ := catalogWeight_ok hempty
  rw [catalogWeight_eq, if_pos]
  · exact ⟨_, rfl⟩
  · refine ⟨?_, nest_result c hdepth hnest next⟩
    rw [size_result c hlisted next]
    omega

end Catalog

end Codexon
