import Mathlib.Data.List.Induction
import Mathlib.Data.List.Nodup

/-!
# Codexon.Dict

Python dictionaries: entries in insertion order under distinct keys.
Assignment keeps the place of an existing key.
-/

namespace Codexon

open List

universe u v

/-- A dictionary. -/
structure Dict (κ : Type u) (ν : Type v) where
  entries : List (κ × ν) := []
  nodup : (entries.map Prod.fst).Nodup := by first | exact List.nodup_nil | simp
deriving DecidableEq

namespace Dict

variable {κ : Type u} {ν : Type v} [DecidableEq κ]

def get? (d : Dict κ ν) (k : κ) : Option ν := (d.entries.find? (·.1 = k)).map (·.2)

/-- `d[k] = v`. -/
def set (d : Dict κ ν) (k : κ) (v : ν) : Dict κ ν :=
  if h : k ∈ d.entries.map Prod.fst then
    { entries := d.entries.map fun e => if e.1 = k then (k, v) else e
      nodup := by
        have hkeys : (d.entries.map fun e => if e.1 = k then (k, v) else e).map Prod.fst =
            d.entries.map Prod.fst := by
          rw [List.map_map]
          refine map_congr_left fun e _ => ?_
          by_cases he : e.1 = k <;> simp [he]
        rw [hkeys]
        exact d.nodup }
  else
    { entries := d.entries ++ [(k, v)]
      nodup := by
        rw [map_append]
        exact nodup_append.mpr ⟨d.nodup, nodup_singleton k, fun a ha b hb hab => by
          obtain rfl : b = k := by simpa using hb
          exact h (hab ▸ ha)⟩ }

def update (d : Dict κ ν) (pairs : List (κ × ν)) : Dict κ ν :=
  pairs.foldl (fun d p => d.set p.1 p.2) d

/-- `d.pop(k, None)`. -/
def erase (d : Dict κ ν) (k : κ) : Dict κ ν :=
  ⟨d.entries.filter (·.1 ≠ k), d.nodup.sublist (filter_sublist.map _)⟩

/-- `{k: f(v) for k, v in d.items() if p(f(v))}`. -/
def restrict (d : Dict κ ν) (f : ν → ν) (p : ν → Bool) : Dict κ ν where
  entries := (d.entries.map fun e => (e.1, f e.2)).filter fun e => p e.2
  nodup := by
    have hkeys : (d.entries.map fun e => (e.1, f e.2)).map Prod.fst = d.entries.map Prod.fst := by
      rw [List.map_map]
      rfl
    have hall : ((d.entries.map fun e => (e.1, f e.2)).map Prod.fst).Nodup := hkeys ▸ d.nodup
    exact hall.sublist (filter_sublist.map _)

/-- `{k: f(k, v) for k, v in d.items()}`. -/
def mapVal {μ : Type*} (d : Dict κ ν) (f : κ → ν → μ) : Dict κ μ where
  entries := d.entries.map fun e => (e.1, f e.1 e.2)
  nodup := by
    rw [List.map_map]
    exact d.nodup

variable {d : Dict κ ν}

theorem get?_eq_some {k : κ} {v : ν} : d.get? k = some v ↔ (k, v) ∈ d.entries := by
  obtain ⟨entries, nodup⟩ := d
  simp only [get?]
  induction entries with
  | nil => simp
  | cons e entries ih =>
    obtain ⟨k', v'⟩ := e
    rw [map_cons, nodup_cons] at nodup
    by_cases hk : k' = k
    · subst hk
      have habsent : (k', v) ∉ entries := fun h => nodup.1 (List.mem_map.mpr ⟨_, h, rfl⟩)
      simp [habsent, eq_comm]
    · have hne : (k, v) ≠ (k', v') := fun h => hk (Prod.mk.inj h).1.symm
      rw [find?_cons_of_neg (by simpa using hk), ih nodup.2, mem_cons]
      simp [hne]

theorem ext_get? {k : κ} {o : Option ν} (h : ∀ v, (k, v) ∈ d.entries ↔ o = some v) : d.get? k = o :=
  Option.ext fun v => get?_eq_some.trans (h v)

theorem get?_set (d : Dict κ ν) (k k' : κ) (v : ν) :
    (d.set k v).get? k' = if k' = k then some v else d.get? k' := by
  refine ext_get? fun w => ?_
  by_cases hmem : k ∈ d.entries.map Prod.fst
  · simp only [set, hmem, dif_pos, List.mem_map]
    by_cases hk : k' = k
    · subst hk
      obtain ⟨e, he, hek⟩ := List.mem_map.mp hmem
      simp only [if_true, Option.some.injEq]
      constructor
      · rintro ⟨e', -, heq⟩
        split at heq
        · exact (Prod.mk.inj heq).2
        · next hne => exact absurd (by rw [heq]) hne
      · rintro rfl
        exact ⟨e, he, by rw [if_pos hek]⟩
    · rw [if_neg hk, get?_eq_some]
      constructor
      · rintro ⟨e', he', heq⟩
        split at heq
        · exact absurd (Prod.mk.inj heq).1.symm hk
        · exact heq ▸ he'
      · exact fun h => ⟨(k', w), h, by rw [if_neg hk]⟩
  · simp only [set, hmem, dif_neg, not_false_iff, mem_append, mem_singleton]
    by_cases hk : k' = k
    · subst hk
      have habsent : (k', w) ∉ d.entries := fun h => hmem (List.mem_map.mpr ⟨_, h, rfl⟩)
      simp [habsent, eq_comm]
    · rw [if_neg hk, get?_eq_some]
      simp [hk]

theorem entries_set_of_mem {k : κ} {v : ν} (h : k ∈ d.entries.map Prod.fst) :
    (d.set k v).entries = d.entries.map fun e => if e.1 = k then (k, v) else e := by
  simp only [set, h, dif_pos]

theorem entries_set_of_not_mem {k : κ} {v : ν}
    (h : k ∉ d.entries.map Prod.fst) : (d.set k v).entries = d.entries ++ [(k, v)] := by
  simp only [set, h, dif_neg, not_false_iff]

theorem get?_eq_none {k : κ} : d.get? k = none ↔ k ∉ d.entries.map Prod.fst := by
  simp only [get?, Option.map_eq_none_iff, List.find?_eq_none, List.mem_map, decide_eq_true_eq]
  grind

theorem mem_keys_iff {k : κ} : k ∈ d.entries.map Prod.fst ↔ (d.get? k).isSome := by
  cases h : d.get? k with
  | none => simpa using get?_eq_none.mp h
  | some v => simpa using ⟨v, get?_eq_some.mp h⟩

theorem length_set (d : Dict κ ν) (k : κ) (v : ν) :
    (d.set k v).entries.length = d.entries.length + if (d.get? k).isSome then 0 else 1 := by
  by_cases hk : k ∈ d.entries.map Prod.fst
  · rw [entries_set_of_mem hk, if_pos (mem_keys_iff.mp hk), length_map, Nat.add_zero]
  · rw [entries_set_of_not_mem hk, if_neg fun h => hk (mem_keys_iff.mpr h), length_append,
      length_singleton]

theorem get?_foldl_set {α : Type*} (key : α → κ) (val : α → Option ν) {xs : List α}
    (hdistinct : (xs.map key).Nodup) (d : Dict κ ν) (k : κ) :
    (xs.foldl (fun d x => (val x).elim d (d.set (key x))) d).get? k =
      match xs.find? (fun x => key x = k) with
      | some x => (val x).or (d.get? k)
      | none => d.get? k := by
  induction xs generalizing d with
  | nil => rfl
  | cons x xs ih =>
    rw [map_cons, nodup_cons] at hdistinct
    rw [foldl_cons, ih hdistinct.2]
    by_cases hkey : key x = k
    · have hnone : xs.find? (fun y => key y = k) = none := by
        rw [List.find?_eq_none]
        intro y hy
        have hne : key y ≠ key x := fun heq => hdistinct.1 (List.mem_map.mpr ⟨y, hy, heq⟩)
        simpa [← hkey] using hne
      rw [hnone, find?_cons_of_pos (by simpa using hkey)]
      cases hval : val x with
      | none => simp [hval]
      | some v => simp [hval, get?_set, hkey]
    · rw [find?_cons_of_neg (by simpa using hkey)]
      have hother : ((val x).elim d (d.set (key x))).get? k = d.get? k := by
        cases val x with
        | none => rfl
        | some v =>
          refine (get?_set d (key x) k v).trans ?_
          rw [if_neg (Ne.symm hkey)]
      rw [hother]

theorem find?_key {α : Type*} (key : α → κ) {xs : List α} (hdistinct : (xs.map key).Nodup) {x : α}
    (hx : x ∈ xs) : xs.find? (fun y => key y = key x) = some x := by
  cases hfind : xs.find? fun y => key y = key x with
  | none =>
    rw [List.find?_eq_none] at hfind
    exact absurd (decide_eq_true rfl) (hfind x hx)
  | some y =>
    have hkey : key y = key x := by simpa using find?_some hfind
    rw [inj_on_of_nodup_map hdistinct (mem_of_find?_eq_some hfind) hx hkey]

theorem get?_erase (d : Dict κ ν) (k k' : κ) :
    (d.erase k).get? k' = if k' = k then none else d.get? k' := by
  refine ext_get? fun w => ?_
  simp only [erase, List.mem_filter, decide_eq_true_eq]
  split
  · next h => simp [h]
  · next h => simp [h, get?_eq_some]

theorem get?_mapVal {μ : Type*} (d : Dict κ ν) (f : κ → ν → μ) (k : κ) :
    (d.mapVal f).get? k = (d.get? k).map (f k) := by
  refine ext_get? fun w => ?_
  simp only [mapVal, List.mem_map, Prod.mk.injEq, Option.map_eq_some_iff, get?_eq_some]
  constructor
  · rintro ⟨e, he, rfl, rfl⟩
    exact ⟨e.2, he, rfl⟩
  · rintro ⟨v, hv, rfl⟩
    exact ⟨(k, v), hv, rfl, rfl⟩

theorem get?_restrict (d : Dict κ ν) (f : ν → ν) (p : ν → Bool) (k : κ) :
    (d.restrict f p).get? k = ((d.get? k).map f).filter p := by
  refine ext_get? fun w => ?_
  simp only [restrict, List.mem_filter, List.mem_map, Prod.mk.injEq, Option.filter_eq_some_iff,
    Option.map_eq_some_iff, get?_eq_some]
  constructor
  · rintro ⟨⟨e, he, rfl, rfl⟩, hp⟩
    exact ⟨⟨e.2, he, rfl⟩, hp⟩
  · rintro ⟨⟨v, hv, rfl⟩, hp⟩
    exact ⟨⟨(k, v), hv, rfl, rfl⟩, hp⟩

theorem mem_set {k : κ} {v : ν} {e : κ × ν} (h : e ∈ (d.set k v).entries) :
    e ∈ d.entries ∨ e = (k, v) := by
  unfold set at h
  grind

theorem mem_update {pairs : List (κ × ν)} {e : κ × ν} (h : e ∈ (d.update pairs).entries) :
    e ∈ d.entries ∨ e ∈ pairs := by
  induction pairs generalizing d with
  | nil => exact .inl h
  | cons p pairs ih =>
    rcases ih (d := d.set p.1 p.2) h with h | h
    · exact (mem_set h).imp_right fun he => mem_cons.mpr (.inl he)
    · exact .inr (mem_cons_of_mem p h)

theorem entries_update (d : Dict κ ν) {pairs : List (κ × ν)}
    (hnodup : (d.entries.map Prod.fst ++ pairs.map Prod.fst).Nodup) :
    (d.update pairs).entries = d.entries ++ pairs := by
  induction pairs generalizing d with
  | nil => simp [update]
  | cons p pairs ih =>
    have hfresh : p.1 ∉ d.entries.map Prod.fst := by
      intro hmem
      exact (nodup_append.mp hnodup).2.2 p.1 hmem p.1 mem_cons_self rfl
    have hset := entries_set_of_not_mem (v := p.2) hfresh
    show ((d.set p.1 p.2).update pairs).entries = _
    rw [ih (d.set p.1 p.2) (by simpa [hset] using hnodup), hset]
    simp

/-! ## lists -/

/-- `d.setdefault(k, []).append(v)`. -/
def append (d : Dict κ (List ν)) (k : κ) (v : ν) : Dict κ (List ν) :=
  d.set k ((d.get? k).getD [] ++ [v])

theorem get?_foldl_append (pairs : List (κ × ν)) (k : κ) :
    (pairs.foldl (fun d pair => d.append pair.1 pair.2) ({} : Dict κ (List ν))).get? k =
      let values := (pairs.filter fun pair => pair.1 = k).map (·.2)
      if values = [] then none else some values := by
  induction pairs using List.reverseRecOn with
  | nil => rfl
  | append_singleton pairs pair ih =>
    rw [foldl_append, foldl_cons, foldl_nil, append, get?_set]
    by_cases hk : k = pair.1
    · have hvalues : ∀ values : List ν,
          (if values = [] then none else some values).getD [] = values := by
        intro values
        by_cases hnil : values = [] <;> simp [hnil]
      subst hk
      rw [if_pos rfl, ih]
      dsimp only
      rw [hvalues]
      simp
    · have hother : (pairs ++ [pair]).filter (fun p => p.1 = k) =
          pairs.filter fun p => p.1 = k := by simp [Ne.symm hk]
      rw [if_neg hk, ih, hother]

/-! ## other keys -/

section View

universe w x

variable {κ' : Type w} {μ : Type x} [DecidableEq κ'] {φ : κ → κ'} (f : ν → μ)

def view (d : Dict κ ν) (φ : κ → κ') (f : ν → μ) : List (κ' × μ) :=
  d.entries.map fun e => (φ e.1, f e.2)

/-- An assignment, in a view. -/
def put (entries : List (κ' × μ)) (k : κ') (v : μ) : List (κ' × μ) :=
  if k ∈ entries.map Prod.fst then entries.map fun e => if e.1 = k then (k, v) else e
  else entries ++ [(k, v)]

theorem view_get? (hφ : Function.Injective φ) (d : Dict κ ν) (k : κ) :
    (d.get? k).map f = ((d.view φ f).find? (·.1 = φ k)).map (·.2) := by
  rw [view, List.find?_map, get?]
  have hsame : ((fun e : κ' × μ => decide (e.1 = φ k)) ∘ fun e : κ × ν => (φ e.1, f e.2)) =
      fun e => decide (e.1 = k) := by
    funext e
    simp [hφ.eq_iff]
  rw [hsame]
  cases d.entries.find? fun e => e.1 = k <;> rfl

theorem view_set (hφ : Function.Injective φ) (d : Dict κ ν) (k : κ) (v : ν) :
    (d.set k v).view φ f = put (d.view φ f) (φ k) (f v) := by
  have hmem : φ k ∈ (d.view φ f).map Prod.fst ↔ k ∈ d.entries.map Prod.fst := by
    simp [view, hφ.eq_iff]
  unfold set put
  by_cases hk : k ∈ d.entries.map Prod.fst
  · rw [dif_pos hk, if_pos (hmem.mpr hk)]
    simp only [view, List.map_map]
    refine map_congr_left fun e _ => ?_
    by_cases he : e.1 = k <;> simp [he, hφ.eq_iff]
  · rw [dif_neg hk, if_neg (mt hmem.mp hk)]
    simp [view]

end View

end Dict

end Codexon
