import Codexon.DictMerge
import Mathlib.Data.Set.Function

/-!
# Codexon.Slots

A dictionary as a list of cells and the position of each key in it.
-/

namespace Codexon

open List Dict

universe u v

/-- Cells, and the position of the cell of each key. -/
structure Slots (κ : Type u) (ν : Type v) where
  positions : Dict κ Nat := {}
  cells : List ν := []

namespace Dict

theorem set_mapVal {κ : Type u} {ν μ : Type v} [DecidableEq κ] (d : Dict κ ν) (f : ν → μ) (k : κ)
    (v : ν) : (d.set k v).mapVal (fun _ => f) = (d.mapVal fun _ => f).set k (f v) := by
  apply ext_entries
  have hkeys : (d.mapVal fun _ => f).entries.map Prod.fst = d.entries.map Prod.fst := by
    simp [mapVal]
  change ((d.set k v).entries.map fun e => (e.1, f e.2)) = _
  by_cases h : k ∈ d.entries.map Prod.fst
  · rw [entries_set_of_mem h, entries_set_of_mem (hkeys.symm ▸ h)]
    simp only [mapVal, List.map_map]
    refine map_congr_left fun e _ => ?_
    by_cases he : e.1 = k <;> simp [he]
  · rw [entries_set_of_not_mem h, entries_set_of_not_mem (hkeys.symm ▸ h)]
    simp [mapVal]

/-! ## other keys -/

section Relabels

variable {κ : Type u} {κ' : Type v} {ν : Type v} [DecidableEq κ] [DecidableEq κ'] {φ : κ → κ'}
  {S : Set κ} {d : Dict κ ν} {e : Dict κ' ν} {k : κ}

/-- A dictionary with the values of another, under other keys. -/
def Relabels (φ : κ → κ') (d : Dict κ ν) (e : Dict κ' ν) : Prop :=
  e.entries = d.entries.map fun p => (φ p.1, p.2)

omit [DecidableEq κ] [DecidableEq κ'] in
theorem Relabels.mem (h : Relabels φ d e) (hφ : S.InjOn φ)
    (hd : ∀ k ∈ d.entries.map Prod.fst, k ∈ S) (hk : k ∈ S) (v : ν) : (φ k, v) ∈ e.entries ↔ (k, v)
    ∈ d.entries := by
  rw [h, List.mem_map]
  constructor
  · rintro ⟨p, hp, heq⟩
    obtain ⟨hkey, rfl⟩ := Prod.mk.inj heq
    have hmem : p.1 ∈ S := hd p.1 (List.mem_map.mpr ⟨p, hp, rfl⟩)
    rwa [← hφ hmem hk hkey]
  · exact fun hp => ⟨(k, v), hp, rfl⟩

theorem Relabels.get? (h : Relabels φ d e) (hφ : S.InjOn φ)
    (hd : ∀ k ∈ d.entries.map Prod.fst, k ∈ S) (hk : k ∈ S) : e.get? (φ k) = d.get? k :=
  ext_get? fun v => (h.mem hφ hd hk v).trans get?_eq_some.symm

theorem Relabels.set (h : Relabels φ d e) (hφ : S.InjOn φ)
    (hd : ∀ k ∈ d.entries.map Prod.fst, k ∈ S) (hk : k ∈ S) (v : ν) :
    Relabels φ (d.set k v) (e.set (φ k) v) := by
  have hkeys : φ k ∈ e.entries.map Prod.fst ↔ k ∈ d.entries.map Prod.fst := by
    rw [mem_keys_iff, mem_keys_iff, h.get? hφ hd hk]
  unfold Relabels
  by_cases hmem : k ∈ d.entries.map Prod.fst
  · rw [entries_set_of_mem hmem, entries_set_of_mem (hkeys.mpr hmem), h, List.map_map, List.map_map]
    refine map_congr_left fun p hp => ?_
    have hp : p.1 ∈ S := hd p.1 (List.mem_map.mpr ⟨p, hp, rfl⟩)
    by_cases hkey : p.1 = k
    · simp [hkey]
    · have hne : φ p.1 ≠ φ k := fun heq => hkey (hφ hp hk heq)
      simp [hkey, hne]
  · rw [entries_set_of_not_mem hmem, entries_set_of_not_mem fun hφk => hmem (hkeys.mp hφk), h,
      map_append]
    rfl

theorem Relabels.foldl {α : Type*} {key : α → κ} {f : α → ν → ν} {fresh : ν} {xs : List α}
    (h : Relabels φ d e) (hφ : S.InjOn φ) (hd : ∀ k ∈ d.entries.map Prod.fst, k ∈ S)
    (hxs : ∀ x ∈ xs, key x ∈ S) :
    Relabels φ (xs.foldl (fun d x => d.set (key x) (f x ((d.get? (key x)).getD fresh))) d)
      (xs.foldl (fun e x => e.set (φ (key x)) (f x ((e.get? (φ (key x))).getD fresh))) e) := by
  induction xs generalizing d e with
  | nil => exact h
  | cons x xs ih =>
    have hx := hxs x mem_cons_self
    rw [foldl_cons, foldl_cons, h.get? hφ hd hx]
    refine ih (h.set hφ hd hx _) (fun k hk => ?_) fun y hy => hxs y (mem_cons_of_mem _ hy)
    obtain rfl | hk := mem_keys_set.mp hk
    · exact hx
    · exact hd k hk

omit [DecidableEq κ'] in
theorem mem_keys_foldl {α : Type*} {key : α → κ} {f : α → ν → ν} {fresh : ν} {xs : List α}
    {d : Dict κ ν} :
    k ∈ (xs.foldl (fun d x => d.set (key x) (f x ((d.get? (key x)).getD fresh))) d).entries.map
        Prod.fst ↔ k ∈ d.entries.map Prod.fst ∨ k ∈ xs.map key := by
  induction xs generalizing d with
  | nil => simp
  | cons x xs ih =>
    rw [foldl_cons, ih, mem_keys_set, map_cons, mem_cons]
    tauto

end Relabels

end Dict

namespace Slots

variable {κ : Type u} {ν : Type v} [DecidableEq κ]

/-- The position of a key; a new key has a new cell, at the end. -/
def locate (s : Slots κ ν) (k : κ) (fresh : ν) : Slots κ ν × Nat :=
  match s.positions.get? k with
  | some position => (s, position)
  | none =>
    ({ positions := s.positions.set k s.cells.length, cells := s.cells ++ [fresh] }, s.cells.length)

def upsert (s : Slots κ ν) (k : κ) (fresh : ν) (f : ν → ν) : Slots κ ν :=
  let (s, position) := s.locate k fresh
  { s with cells := s.cells.modify position f }

/-- The slots hold the values of a dictionary, in its order. -/
structure Holds (s : Slots κ ν) (d : Dict κ ν) : Prop where
  cells : s.cells = d.entries.map Prod.snd
  positions : s.positions.entries = (d.entries.map Prod.fst).zipIdx

variable {s : Slots κ ν} {d : Dict κ ν} {k : κ}

omit [DecidableEq κ] in
theorem Holds.nil : Holds ({} : Slots κ ν) {} := ⟨rfl, rfl⟩

theorem modify_last (cells : List ν) (fresh : ν) (f : ν → ν) :
    (cells ++ [fresh]).modify cells.length f = cells ++ [f fresh] := by
  induction cells with
  | nil => rfl
  | cons cell cells ih => simp [ih]

theorem modify_values (h : k ∈ d.entries.map Prod.fst) {position : Nat}
    (hposition : (d.entries.map Prod.fst)[position]? = some k) (f : ν → ν) (fresh : ν) :
    (d.entries.map Prod.snd).modify position f =
      (d.set k (f ((d.get? k).getD fresh))).entries.map Prod.snd := by
  obtain ⟨e, he, hek⟩ : ∃ e, d.entries[position]? = some e ∧ e.1 = k := by
    simpa [List.getElem?_map] using hposition
  have hget : d.get? k = some e.2 := by
    rw [get?_eq_some, ← hek]
    exact mem_of_getElem? he
  rw [entries_set_of_mem h, hget]
  refine ext_getElem? fun i => ?_
  rw [List.getElem?_modify, List.getElem?_map, List.getElem?_map, List.getElem?_map]
  cases hi : d.entries[i]? with
  | none => simp
  | some e' =>
    by_cases hsame : position = i
    · subst hsame
      obtain rfl : e = e' := by simpa [he] using hi
      simp [hek]
    · have hne : e'.1 ≠ k := fun heq => hsame <| by
        have hi' : (d.entries.map Prod.fst)[i]? = some k := by simp [hi, heq]
        have hlt : position < (d.entries.map Prod.fst).length :=
          (List.getElem?_eq_some_iff.mp hposition).1
        exact (List.getElem?_inj hlt d.nodup).mp (hposition.trans hi'.symm)
      simp [hsame, hne]

theorem Holds.upsert (h : s.Holds d) (k : κ) (fresh : ν) (f : ν → ν) :
    (s.upsert k fresh f).Holds (d.set k (f ((d.get? k).getD fresh))) := by
  have hget : ∀ position, s.positions.get? k = some position ↔
      (d.entries.map Prod.fst)[position]? = some k := fun position => by
    rw [get?_eq_some, h.positions, mem_zipIdx_iff_getElem?]
  unfold Slots.upsert locate
  cases hposition : s.positions.get? k with
  | some position =>
    have hkey := (hget position).mp hposition
    have hmem : k ∈ d.entries.map Prod.fst := mem_of_getElem? hkey
    constructor
    · change s.cells.modify position f = _
      rw [h.cells, modify_values hmem hkey]
    · rw [keys_set_of_mem hmem]
      exact h.positions
  | none =>
    have hmem : k ∉ d.entries.map Prod.fst := fun hmem => by
      obtain ⟨position, hkey⟩ := mem_iff_getElem?.mp hmem
      rw [(hget position).mpr hkey] at hposition
      contradiction
    have hnone : d.get? k = none := get?_eq_none.mpr hmem
    have hpositions : k ∉ s.positions.entries.map Prod.fst := by
      rw [h.positions, zipIdx_map_fst]
      exact hmem
    constructor
    · change (s.cells ++ [fresh]).modify s.cells.length f = _
      rw [modify_last, entries_set_of_not_mem hmem, hnone, h.cells, map_append]
      rfl
    · change (s.positions.set k s.cells.length).entries = _
      rw [entries_set_of_not_mem hpositions, entries_set_of_not_mem hmem, h.positions,
        map_append, zipIdx_append, h.cells]
      simp

theorem Holds.foldl {α : Type*} {key : α → κ} {fresh : ν} {f : α → ν → ν} {xs : List α}
    (h : s.Holds d) : (xs.foldl (fun s x => s.upsert (key x) fresh (f x)) s).Holds
      (xs.foldl (fun d x => d.set (key x) (f x ((d.get? (key x)).getD fresh))) d) := by
  induction xs generalizing s d with
  | nil => exact h
  | cons x xs ih => exact ih (h.upsert (key x) fresh (f x))

end Slots

end Codexon
