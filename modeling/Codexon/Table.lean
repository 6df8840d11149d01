import Mathlib.Algebra.Order.Ring.Int
import Mathlib.Data.List.Basic

/-!
# Codexon.Table

Relational tables with an integer primary key.  A `Table` is its list of rows
in strictly increasing key order, so a table scan is the list itself, two
tables with the same rows are equal, and a lookup by key finds at most one row.

Rows are changed by `put` (write under the row's key), `filter` and `map`; each
comes with its membership and lookup lemma, and proofs about tables use these
instead of the lists.
-/

namespace Codexon

open List

universe u

/-- The rows of a table, in the order of the primary key. -/
structure Table (ρ : Type u) (key : ρ → Int) where
  rows : List ρ
  sorted : rows.Pairwise (key · < key ·)

namespace Table

variable {ρ : Type u} {key : ρ → Int}

instance [DecidableEq ρ] : DecidableEq (Table ρ key) := fun s t =>
  decidable_of_iff (s.rows = t.rows) ⟨fun h => by cases s; cases t; cases h; rfl, fun h => h ▸ rfl⟩

instance : Membership ρ (Table ρ key) := ⟨fun t r => r ∈ t.rows⟩

variable {t : Table ρ key}

theorem mem_def {r : ρ} : r ∈ t ↔ r ∈ t.rows := Iff.rfl

def empty : Table ρ key := ⟨[], List.Pairwise.nil⟩

def find? (t : Table ρ key) (k : Int) : Option ρ := t.rows.find? (key · = k)

/-- The rows satisfying `p`. -/
def filter (t : Table ρ key) (p : ρ → Bool) : Table ρ key :=
  ⟨t.rows.filter p, t.sorted.filter p⟩

/-- Change every row in place. -/
def map (t : Table ρ key) (f : ρ → ρ) (hf : ∀ r, key (f r) = key r) : Table ρ key :=
  ⟨t.rows.map f, by simpa [pairwise_map, hf] using t.sorted⟩

/-- Write a row, in place of the one with its key. -/
def put (t : Table ρ key) (r : ρ) : Table ρ key where
  rows := t.rows.filter (key · < key r) ++ r :: t.rows.filter (key r < key ·)
  sorted := by
    refine pairwise_append.mpr ⟨t.sorted.filter _, pairwise_cons.mpr
      ⟨fun b hb => by simpa using (List.mem_filter.mp hb).2, t.sorted.filter _⟩, ?_⟩
    intro a ha b hb
    have har : key a < key r := by simpa using (List.mem_filter.mp ha).2
    rcases mem_cons.mp hb with rfl | hb
    · exact har
    · exact har.trans (by simpa using (List.mem_filter.mp hb).2)

/-! ## membership -/

theorem eq_of_key_eq {r s : ρ} (hr : r ∈ t) (hs : s ∈ t) (h : key r = key s) : r = s := by
  obtain ⟨rows, sorted⟩ := t
  simp only [mem_def] at hr hs
  induction sorted with
  | nil => cases hr
  | cons hlt _ ih =>
    rcases mem_cons.mp hr with rfl | hr' <;> rcases mem_cons.mp hs with rfl | hs'
    · rfl
    · exact absurd h (hlt s hs').ne
    · exact absurd h (hlt r hr').ne'
    · exact ih hr' hs'

variable {p : ρ → Bool}

@[simp] theorem mem_filter {r : ρ} :
    r ∈ t.filter p ↔ r ∈ t ∧ p r := List.mem_filter

@[simp] theorem mem_map {f : ρ → ρ} {hf : ∀ r, key (f r) = key r} {r : ρ} :
    r ∈ t.map f hf ↔ ∃ r₀ ∈ t, f r₀ = r := List.mem_map

@[simp] theorem mem_put {r x : ρ} : x ∈ t.put r ↔ x = r ∨ x ∈ t ∧ key x ≠ key r := by
  simp only [mem_def, put, mem_append, mem_cons, List.mem_filter, decide_eq_true_eq]
  rw [ne_iff_lt_or_gt]
  tauto

theorem ext_mem {s : Table ρ key} (h : ∀ r, r ∈ s ↔ r ∈ t) : s = t := by
  obtain ⟨s, hs⟩ := s
  obtain ⟨t, ht⟩ := t
  simp only [mem_def] at h
  congr 1
  induction hs generalizing t with
  | nil => exact (eq_nil_iff_forall_not_mem.mpr fun r hr => by simpa using (h r).mpr hr).symm
  | @cons a s hlt hs ih =>
    cases ht with
    | nil => simpa using (h a).mp mem_cons_self
    | @cons b t hlt' ht' =>
      -- Each head is in the other list, so neither key can be the smaller one.
      have hab : a = b := by
        rcases mem_cons.mp ((h a).mp mem_cons_self) with hab | hat
        · exact hab
        rcases mem_cons.mp ((h b).mpr mem_cons_self) with hba | hbs
        · exact hba.symm
        · exact absurd (hlt b hbs) (hlt' a hat).asymm
      subst hab
      have htail : ∀ r, r ∈ s ↔ r ∈ t := fun r => by
        constructor
        · intro hr
          rcases mem_cons.mp ((h r).mp (mem_cons_of_mem _ hr)) with rfl | hr'
          · exact absurd (hlt r hr) (lt_irrefl _)
          · exact hr'
        · intro hr
          rcases mem_cons.mp ((h r).mpr (mem_cons_of_mem _ hr)) with rfl | hr'
          · exact absurd (hlt' r hr) (lt_irrefl _)
          · exact hr'
      rw [ih t ht' htail]

theorem put_filter_ne {r : ρ} (h : r ∈ t) : (t.filter (key · ≠ key r)).put r = t := by
  refine ext_mem fun x => ?_
  rw [mem_put, mem_filter]
  constructor
  · rintro (rfl | ⟨⟨hx, -⟩, -⟩)
    · exact h
    · exact hx
  · intro hx
    by_cases hkey : key x = key r
    · exact .inl (eq_of_key_eq hx h hkey)
    · exact .inr ⟨⟨hx, by simpa using hkey⟩, hkey⟩

theorem map_map {f g : ρ → ρ} {hf : ∀ r, key (f r) = key r} {hg : ∀ r, key (g r) = key r} :
    (t.map f hf).map g hg = t.map (g ∘ f) (fun r => (hg (f r)).trans (hf r)) := by
  simp only [map, List.map_map]

theorem filter_put_of {q : ρ → Bool} {r : ρ} (hr : q r = false)
    (h : ∀ x ∈ t, p x = false ∨ key x = key r → q x = false) :
    ((t.filter p).put r).rows.filter q = t.rows.filter q := by
  refine congrArg rows (ext_mem fun x => ?_ : ((t.filter p).put r).filter q = t.filter q)
  simp only [mem_filter, mem_put]
  constructor
  · rintro ⟨rfl | ⟨⟨hx, -⟩, -⟩, hq⟩
    · simp [hr] at hq
    · exact ⟨hx, hq⟩
  · rintro ⟨hx, hq⟩
    have hkeep : ¬ (p x = false ∨ key x = key r) := fun hout => by simp [h x hx hout] at hq
    rw [not_or, Bool.not_eq_false] at hkeep
    exact ⟨.inr ⟨⟨hx, hkeep.1⟩, hkeep.2⟩, hq⟩

theorem filter_filter_of {q : ρ → Bool} (h : ∀ x ∈ t, p x = false → q x = false) :
    (t.filter p).rows.filter q = t.rows.filter q := by
  rw [filter, filter_filter]
  refine filter_congr fun x hx => ?_
  cases hp : p x with
  | false => simp [h x hx hp]
  | true => simp

/-! ## lookups -/

theorem find?_eq_some {k : Int} {r : ρ} : t.find? k = some r ↔ r ∈ t ∧ key r = k := by
  constructor
  · intro h
    exact ⟨mem_of_find?_eq_some h, by simpa using find?_some h⟩
  · rintro ⟨hr, rfl⟩
    cases h : t.find? (key r) with
    | none =>
      rw [find?, List.find?_eq_none] at h
      exact absurd (h r hr) (by simp)
    | some s =>
      have hs : s ∈ t := mem_of_find?_eq_some h
      rw [eq_of_key_eq hs hr (by simpa using find?_some h)]

theorem find?_eq_none {k : Int} : t.find? k = none ↔ ∀ r ∈ t, key r ≠ k := by
  simp [find?, mem_def]

theorem find?_of_mem {r : ρ} (h : r ∈ t) : t.find? (key r) = some r :=
  find?_eq_some.mpr ⟨h, rfl⟩

theorem find?_congr {s : Table ρ key} {k : Int} (h : ∀ r, key r = k → (r ∈ s ↔ r ∈ t)) :
    s.find? k = t.find? k := by
  refine Option.ext fun r => ?_
  rw [find?_eq_some, find?_eq_some]
  exact and_congr_left (h r)

@[simp] theorem find?_put_self {r : ρ} : (t.put r).find? (key r) = some r :=
  find?_of_mem (mem_put.mpr (.inl rfl))

theorem find?_put_of_ne {r : ρ} {k : Int} (h : key r ≠ k) : (t.put r).find? k = t.find? k := by
  refine find?_congr fun x hx => ?_
  rw [mem_put]
  constructor
  · rintro (rfl | ⟨hx', -⟩)
    · exact absurd hx h
    · exact hx'
  · exact fun hx' => .inr ⟨hx', hx ▸ h.symm⟩

theorem find?_filter_of {k : Int} (h : ∀ r, key r = k → p r) : (t.filter p).find? k = t.find? k :=
  find?_congr fun r hr => by rw [mem_filter]; exact and_iff_left (h r hr)

theorem find?_map {f : ρ → ρ} {hf : ∀ r, key (f r) = key r} {k : Int} :
    (t.map f hf).find? k = (t.find? k).map f := by
  simp only [find?, map, List.find?_map]
  congr 2
  exact funext fun r => by simp [hf]

theorem first_eq_some {r : ρ} :
    t.rows.find? p = some r ↔ r ∈ t ∧ p r ∧ ∀ x ∈ t, p x → key r ≤ key x := by
  have hfirst {r : ρ} (h : t.rows.find? p = some r) :
      r ∈ t ∧ p r ∧ ∀ x ∈ t, p x → key r ≤ key x := by
    obtain ⟨hp, as, bs, hrows, has⟩ := find?_eq_some_iff_append.mp h
    refine ⟨mem_of_find?_eq_some h, hp, fun x hx hpx => ?_⟩
    have hsorted := t.sorted
    rw [hrows, pairwise_append, pairwise_cons] at hsorted
    rw [mem_def, hrows] at hx
    rcases mem_append.mp hx with hx | hx
    · exact absurd hpx (by simpa using has x hx)
    · rcases mem_cons.mp hx with rfl | hx
      · exact le_refl _
      · exact (hsorted.2.1.1 x hx).le
  refine ⟨hfirst, fun ⟨hr, hpr, hmin⟩ => ?_⟩
  cases h : t.rows.find? p with
  | none => exact absurd hpr (by simpa using List.find?_eq_none.mp h r hr)
  | some s =>
    obtain ⟨hs, hps, hmin'⟩ := hfirst h
    rw [eq_of_key_eq hs hr (le_antisymm (hmin' r hr hpr) (hmin s hs hps))]

end Table

end Codexon
