import Codexon.Dict
import Mathlib.Algebra.Order.Ring.Int

/-!
# Codexon.DictMerge

Dictionaries whose values are combined: `merge` enters a value under a key and combines
it with the one that is there.  Where the combination is associative, pieces may be
collected in dictionaries of their own first (`merges_merges`), in any grouping.
-/

namespace Codexon

open List

universe u v

namespace Dict

variable {κ : Type u} {ν : Type v} [DecidableEq κ]

variable {d : Dict κ ν}

omit [DecidableEq κ] in
theorem ext_entries {e : Dict κ ν} (h : d.entries = e.entries) : d = e := by
  cases d
  cases e
  simpa using h

theorem keys_set_of_mem {k : κ} {v : ν} (h : k ∈ d.entries.map Prod.fst) :
    (d.set k v).entries.map Prod.fst = d.entries.map Prod.fst := by
  rw [entries_set_of_mem h, List.map_map]
  refine map_congr_left fun e _ => ?_
  by_cases he : e.1 = k <;> simp [he]

theorem mem_keys_set {k k' : κ} {v : ν} :
    k' ∈ (d.set k v).entries.map Prod.fst ↔ k' = k ∨ k' ∈ d.entries.map Prod.fst := by
  by_cases h : k ∈ d.entries.map Prod.fst
  · rw [keys_set_of_mem h]
    grind
  · rw [entries_set_of_not_mem h]
    grind

theorem map_of_not_mem {es : List (κ × ν)} {k : κ} {v : ν} (h : k ∉ es.map Prod.fst) :
    (es.map fun e => if e.1 = k then (k, v) else e) = es := by
  induction es with
  | nil => rfl
  | cons e es ih =>
    rw [map_cons, mem_cons, not_or] at h
    rw [map_cons, ih h.2, if_neg (Ne.symm h.1)]

theorem set_set (d : Dict κ ν) (k : κ) (v w : ν) : (d.set k w).set k v = d.set k v := by
  apply ext_entries
  have hmem : k ∈ (d.set k w).entries.map Prod.fst := mem_keys_set.mpr (.inl rfl)
  rw [entries_set_of_mem hmem]
  by_cases h : k ∈ d.entries.map Prod.fst
  · rw [entries_set_of_mem h, entries_set_of_mem h, List.map_map]
    refine map_congr_left fun e _ => ?_
    by_cases he : e.1 = k <;> simp [he]
  · rw [entries_set_of_not_mem h, entries_set_of_not_mem h, map_append, map_of_not_mem h]
    simp

theorem set_comm {k k' : κ} {v v' : ν} (hne : k ≠ k')
    (h : k ∈ d.entries.map Prod.fst) : (d.set k' v').set k v = (d.set k v).set k' v' := by
  apply ext_entries
  rw [entries_set_of_mem (mem_keys_set.mpr (.inr h))]
  by_cases h' : k' ∈ d.entries.map Prod.fst
  · rw [entries_set_of_mem h', entries_set_of_mem (mem_keys_set.mpr (.inr h')),
      entries_set_of_mem h, List.map_map, List.map_map]
    refine map_congr_left fun e _ => ?_
    by_cases he : e.1 = k <;> by_cases he' : e.1 = k' <;> grind
  · have hnew : k' ∉ (d.set k v).entries.map Prod.fst := by
      rw [mem_keys_set]
      grind
    rw [entries_set_of_not_mem h', entries_set_of_not_mem hnew, entries_set_of_mem h, map_append]
    simp [hne.symm]

/-! ## merging -/

section merge

variable (op : ν → ν → ν)

/-- The value of a pair under its key, combined with the one that is there. -/
def merge (d : Dict κ ν) (p : κ × ν) : Dict κ ν :=
  d.set p.1 (match d.get? p.1 with
    | none => p.2
    | some old => op old p.2)

def merges (d : Dict κ ν) (ps : List (κ × ν)) : Dict κ ν := ps.foldl (merge op) d

@[simp] theorem merges_nil (d : Dict κ ν) : merges op d [] = d := rfl

@[simp] theorem merges_cons (d : Dict κ ν) (p : κ × ν) (ps : List (κ × ν)) :
    merges op d (p :: ps) = merges op (merge op d p) ps := rfl

theorem merges_append (d : Dict κ ν) (ps qs : List (κ × ν)) :
    merges op d (ps ++ qs) = merges op (merges op d ps) qs := foldl_append

theorem mem_keys_merge {d : Dict κ ν} {p : κ × ν} {k : κ} :
    k ∈ (merge op d p).entries.map Prod.fst ↔ k = p.1 ∨ k ∈ d.entries.map Prod.fst :=
  mem_keys_set

theorem merge_comm {d : Dict κ ν} {p q : κ × ν} (hne : p.1 ≠ q.1)
    (h : p.1 ∈ d.entries.map Prod.fst) : merge op (merge op d q) p = merge op (merge op d p) q := by
  simp only [merge, get?_set, if_neg hne, if_neg hne.symm]
  exact set_comm hne h

theorem merges_merge_comm {d : Dict κ ν} {p : κ × ν} {ps : List (κ × ν)}
    (hps : p.1 ∉ ps.map Prod.fst) (h : p.1 ∈ d.entries.map Prod.fst) :
    merge op (merges op d ps) p = merges op (merge op d p) ps := by
  induction ps generalizing d with
  | nil => rfl
  | cons q ps ih =>
    rw [map_cons, mem_cons, not_or] at hps
    rw [merges_cons, merges_cons, ← merge_comm op hps.1 h]
    exact ih hps.2 ((mem_keys_merge op).mpr (.inr h))

theorem merge_merge (hop : ∀ a b c, op (op a b) c = op a (op b c)) (d : Dict κ ν) (k : κ)
    (v w : ν) : merge op (merge op d (k, w)) (k, v) = merge op d (k, op w v) := by
  simp only [merge, get?_set, if_true, set_set]
  cases d.get? k with
  | none => rfl
  | some old => simp only [hop]

/-- **Pieces collected first**: what a dictionary of merged pairs adds is what the pairs
add one by one. -/
theorem merges_merges (hop : ∀ a b c, op (op a b) c = op a (op b c)) (d b : Dict κ ν)
    (ps : List (κ × ν)) :
    merges op d (merges op b ps).entries = merges op (merges op d b.entries) ps := by
  induction ps generalizing b with
  | nil => rfl
  | cons p ps ih =>
    rw [merges_cons, merges_cons, ih]
    congr 1
    obtain ⟨k, v⟩ := p
    cases hget : b.get? k with
    | none =>
      have hnew := get?_eq_none.mp hget
      simp only [merge, hget, entries_set_of_not_mem hnew, merges_append]
      rfl
    | some w =>
      obtain ⟨l, r, hentries⟩ := append_of_mem (get?_eq_some.mp hget)
      have hnodup := b.nodup
      rw [hentries, map_append, map_cons, nodup_append] at hnodup
      have hl : k ∉ l.map Prod.fst := by grind
      have hr : k ∉ r.map Prod.fst := by grind
      have hset : (b.set k (op w v)).entries = l ++ (k, op w v) :: r := by
        rw [entries_set_of_mem (by rw [mem_keys_iff, hget]; rfl), hentries, map_append,
          map_cons, map_of_not_mem hl, map_of_not_mem hr, if_pos rfl]
      have hplaced : merge op b (k, v) = b.set k (op w v) := by simp only [merge, hget]
      rw [hplaced, hset, hentries, merges_append, merges_append, merges_cons, merges_cons,
        merges_merge_comm op (p := (k, v)) hr
          ((mem_keys_merge op (p := (k, w))).mpr (.inl rfl)),
        merge_merge op hop]

theorem merges_entries (d : Dict κ ν) : merges op {} d.entries = d := by
  obtain ⟨entries, hnodup⟩ := d
  have hgo : ∀ (e : Dict κ ν) (es : List (κ × ν)),
      ((e.entries ++ es).map Prod.fst).Nodup → (merges op e es).entries = e.entries ++ es := by
    intro e es
    induction es generalizing e with
    | nil => simp
    | cons p es ih =>
      intro hdistinct
      have hnew : p.1 ∉ e.entries.map Prod.fst := by
        rw [map_append, nodup_append] at hdistinct
        grind
      have hmerge : (merge op e p).entries = e.entries ++ [p] := by
        simp only [merge, get?_eq_none.mpr hnew, entries_set_of_not_mem hnew]
      rw [merges_cons, ih _ (by rw [hmerge]; simpa using hdistinct), hmerge]
      simp
  exact ext_entries (by simpa using hgo {} entries (by simpa using hnodup))

end merge

end Dict

/-!
## built dictionaries

Dictionaries made from the entries of another one, in its order: some entries are left
out, the others get a value of their own.
-/

universe w

namespace Dict

variable {κ : Type u} {ν : Type v} {μ : Type w} [DecidableEq κ]

def keys (d : Dict κ ν) : List κ := d.entries.map Prod.fst

/-- `{k: f(k, v) for k, v in d.items()}`, without the entries for which there is none. -/
def build (d : Dict κ ν) (f : κ → ν → Option μ) : Dict κ μ where
  entries := d.entries.filterMap fun e => (f e.1 e.2).map (e.1, ·)
  nodup := by
    have hsub : ((d.entries.filterMap fun e => (f e.1 e.2).map (e.1, ·)).map Prod.fst).Sublist
        (d.entries.map Prod.fst) := by
      rw [map_filterMap]
      have hkey : (fun e : κ × ν => ((f e.1 e.2).map (e.1, ·)).map Prod.fst) =
          fun e => ((f e.1 e.2).map fun _ => e.1) := by
        funext e
        cases f e.1 e.2 <;> rfl
      rw [hkey]
      induction d.entries with
      | nil => exact .slnil
      | cons e es ih =>
        cases h : f e.1 e.2 with
        | none => simpa [h] using ih.cons e.1
        | some v => simpa [h] using ih
    exact d.nodup.sublist hsub

theorem get?_build (d : Dict κ ν) (f : κ → ν → Option μ) (k : κ) :
    (d.build f).get? k = (d.get? k).bind (f k) := by
  refine ext_get? fun w => ?_
  simp only [build, mem_filterMap, Option.map_eq_some_iff, Prod.mk.injEq,
    Option.bind_eq_some_iff, get?_eq_some]
  constructor
  · rintro ⟨e, he, v, hv, rfl, rfl⟩
    exact ⟨e.2, he, hv⟩
  · rintro ⟨v, hv, hw⟩
    exact ⟨(k, v), hv, w, hw, rfl, rfl⟩

theorem mem_keys {d : Dict κ ν} {k : κ} : k ∈ d.keys ↔ (d.get? k).isSome := mem_keys_iff

omit [DecidableEq κ] in
theorem nodup_keys (d : Dict κ ν) : d.keys.Nodup := d.nodup

theorem keys_build (d : Dict κ ν) (f : κ → ν → Option μ) :
    (d.build f).keys = d.keys.filter fun k => ((d.get? k).bind (f k)).isSome := by
  have hget : ∀ e ∈ d.entries, d.get? e.1 = some e.2 := fun e he => get?_eq_some.mpr he
  unfold keys build
  simp only
  rw [map_filterMap, filter_map]
  generalize d.entries = es at hget ⊢
  induction es with
  | nil => rfl
  | cons e es ih =>
    have hrest := ih fun e' he' => hget e' (mem_cons_of_mem e he')
    have hhead := hget e mem_cons_self
    cases h : f e.1 e.2 <;> simp_all

theorem map_entries_congr {α : Type*} {d : Dict κ ν} {e : Dict κ μ} {f : κ → ν → α} {g : κ → μ → α}
    (hkeys : d.keys = e.keys) (h : ∀ k v w, d.get? k = some v → e.get? k = some w → f k v = g k w) :
    (d.entries.map fun x => f x.1 x.2) = e.entries.map fun x => g x.1 x.2 := by
  have hlength : d.entries.length = e.entries.length := by
    simpa [keys] using congrArg List.length hkeys
  refine ext_getElem (by simpa using hlength) fun i hi hi' => ?_
  simp only [length_map] at hi hi'
  have hkey : (d.entries[i]).1 = (e.entries[i]).1 := by
    have := List.getElem_of_eq hkeys (i := i) (by simpa [keys] using hi)
    simpa [keys] using this
  have hleft : d.get? (d.entries[i]).1 = some (d.entries[i]).2 :=
    get?_eq_some.mpr (List.getElem_mem hi)
  have hright : e.get? (e.entries[i]).1 = some (e.entries[i]).2 :=
    get?_eq_some.mpr (List.getElem_mem hi')
  simp only [List.getElem_map]
  rw [← hkey] at hright ⊢
  exact h _ _ _ hleft hright

end Dict

/-!
## sums

Sums over the values of a dictionary, and how an assignment and a deletion change
them.
-/

namespace Dict

variable {κ : Type u} {ν : Type v} [DecidableEq κ]

def sumVal (f : ν → Int) (d : Dict κ ν) : Int := (d.entries.map fun e => f e.2).sum

theorem sum_map_replace (f : ν → Int) {entries : List (κ × ν)}
    (hnodup : (entries.map Prod.fst).Nodup)
    {k : κ} {old : ν} (hold : (k, old) ∈ entries) (v : ν) :
    ((entries.map fun e => if e.1 = k then (k, v) else e).map fun e => f e.2).sum =
      (entries.map fun e => f e.2).sum - f old + f v := by
  induction entries with
  | nil => cases hold
  | cons e entries ih =>
    rw [map_cons, nodup_cons] at hnodup
    rcases mem_cons.mp hold with rfl | hold
    · have hrest : entries.map (fun e => if e.1 = k then (k, v) else e) = entries := by
        refine (map_congr_left fun e he => ?_).trans (map_id entries)
        rw [if_neg]
        · rfl
        · intro hkey
          have hmem := mem_map_of_mem (f := Prod.fst) he
          rw [hkey] at hmem
          exact hnodup.1 hmem
      simp only [map_cons, if_true, hrest, sum_cons]
      omega
    · have hne : e.1 ≠ k := by
        intro hkey
        exact hnodup.1 (hkey ▸ mem_map_of_mem hold)
      have hsum := ih hnodup.2 hold
      simp only [map_cons, if_neg hne, sum_cons]
      omega

theorem sumVal_set (f : ν → Int) (d : Dict κ ν) (k : κ) (v : ν) :
    (d.set k v).sumVal f = d.sumVal f - ((d.get? k).map f).getD 0 + f v := by
  cases hget : d.get? k with
  | none =>
    have hmem : k ∉ d.entries.map Prod.fst := by
      intro hmem
      obtain ⟨e, he, rfl⟩ := List.mem_map.mp hmem
      have hsome : d.get? e.1 = some e.2 := get?_eq_some.mpr he
      rw [hget] at hsome
      cases hsome
    simp [sumVal, set, hmem]
  | some old =>
    have hold := get?_eq_some.mp hget
    have hmem : k ∈ d.entries.map Prod.fst := mem_map_of_mem hold
    have hsum := sum_map_replace f d.nodup hold v
    simp only [sumVal, set, hmem, dif_pos, Option.map_some, Option.getD_some]
    exact hsum

theorem sum_map_erase (f : ν → Int) {entries : List (κ × ν)} (hnodup : (entries.map Prod.fst).Nodup)
    {k : κ} {old : ν} (hold : (k, old) ∈ entries) :
    ((entries.filter (·.1 ≠ k)).map fun e => f e.2).sum =
      (entries.map fun e => f e.2).sum - f old := by
  induction entries with
  | nil => cases hold
  | cons e entries ih =>
    rw [map_cons, nodup_cons] at hnodup
    rcases mem_cons.mp hold with rfl | hold
    · have hrest : entries.filter (fun e => decide (e.1 ≠ k)) = entries := by
        apply filter_eq_self.mpr
        intro e he
        rw [decide_eq_true_eq]
        intro hkey
        have hmem := mem_map_of_mem (f := Prod.fst) he
        rw [hkey] at hmem
        exact hnodup.1 hmem
      rw [filter_cons_of_neg (by simp), hrest, map_cons, sum_cons]
      simp only
      omega
    · have hne : e.1 ≠ k := by
        intro hkey
        exact hnodup.1 (hkey ▸ mem_map_of_mem hold)
      have hsum := ih hnodup.2 hold
      rw [filter_cons_of_pos (by simpa using hne), map_cons, map_cons, sum_cons,
        sum_cons]
      omega

theorem sumVal_erase (f : ν → Int) (d : Dict κ ν) (k : κ) :
    (d.erase k).sumVal f = d.sumVal f - ((d.get? k).map f).getD 0 := by
  cases hget : d.get? k with
  | none =>
    have hkeep : d.entries.filter (fun e => decide (e.1 ≠ k)) = d.entries := by
      apply filter_eq_self.mpr
      intro e he
      rw [decide_eq_true_eq]
      rintro rfl
      have hsome : d.get? e.1 = some e.2 := get?_eq_some.mpr he
      rw [hget] at hsome
      cases hsome
    simp only [sumVal, erase, hkeep, Option.map_none, Option.getD_none, sub_zero]
  | some old =>
    have hsum := sum_map_erase f d.nodup (get?_eq_some.mp hget)
    simp only [sumVal, erase, Option.map_some, Option.getD_some]
    exact hsum

end Dict

end Codexon
