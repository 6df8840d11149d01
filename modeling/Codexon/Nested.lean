import Mathlib.Data.List.Induction
import Mathlib.Data.List.Nodup

/-!
# Codexon.Nested

Dictionaries in dictionaries, and values that are set under paths of keys.

What a dictionary has under each path (`look`) decides it up to the order of its items, and after
values were set under paths none of which leads through another, it has the last of each.
-/

namespace Codexon

open List

/-- A value, or a dictionary by its items. -/
inductive Nested (κ σ : Type) where
  | leaf (v : σ)
  | dict (items : List (κ × Nested κ σ))

namespace Nested

variable {κ σ : Type} [DecidableEq κ]

abbrev Items (κ σ : Type) := List (κ × Nested κ σ)

/-- `d.get(k)` -/
def find : Items κ σ → κ → Option (Nested κ σ)
  | [], _ => none
  | (k', v) :: rest, k => if k' = k then some v else find rest k

/-- `d[k] = v` -/
def put : Items κ σ → κ → Nested κ σ → Items κ σ
  | [], k, v => [(k, v)]
  | (k', w) :: rest, k, v => if k' = k then (k, v) :: rest else (k', w) :: put rest k v

/--
Set a value under a path, with the dictionaries on the way made where there are none.  It fails
where a value is in the way.
-/
def insert : Items κ σ → List κ → σ → Option (Items κ σ)
  | _, [], _ => none
  | items, [k], v => some (put items k (leaf v))
  | items, k :: rest, v =>
    match find items k with
    | some (dict sub) => (insert sub rest v).map fun sub => put items k (dict sub)
    | some (leaf _) => none
    | none => (insert [] rest v).map fun sub => put items k (dict sub)

/-- Set values one after the other. -/
def inserts (items : Items κ σ) (pairs : List (List κ × σ)) : Option (Items κ σ) :=
  pairs.foldlM (fun items pair => insert items pair.1 pair.2) items

/-- `d == e` for dictionaries; the order of the items does not matter. -/
inductive Same : Nested κ σ → Nested κ σ → Prop
  | leaf (v : σ) : Same (leaf v) (leaf v)
  | dict {xs ys : Items κ σ} (keys : ∀ k, (find xs k).isSome = (find ys k).isSome)
      (values : ∀ k a b, find xs k = some a → find ys k = some b → Same a b) :
      Same (dict xs) (dict ys)

/-! ## looking under a path -/

/-- What is under a path: nothing, a dictionary (`some none`) or a value. -/
def look : Items κ σ → List κ → Option (Option σ)
  | _, [] => some none
  | items, k :: rest =>
    match find items k with
    | some (dict sub) => look sub rest
    | some (leaf v) => if rest = [] then some (some v) else none
    | none => none

@[simp] theorem look_nil (items : Items κ σ) : look items [] = some none := by
  unfold look
  rfl

theorem look_cons (items : Items κ σ) (k : κ) (rest : List κ) : look items (k :: rest) =
    match find items k with
    | some (dict sub) => look sub rest
    | some (leaf v) => if rest = [] then some (some v) else none
    | none => none := by
  conv_lhs => unfold look

theorem look_empty (path : List κ) :
    look ([] : Items κ σ) path = if path = [] then some none else none := by
  cases path with
  | nil => simp
  | cons k rest => simp [look_cons, find]

@[simp] theorem find_put (items : Items κ σ) (k k' : κ) (v : Nested κ σ) :
    find (put items k v) k' = if k' = k then some v else find items k' := by
  induction items with
  | nil => simp [put, find, eq_comm]
  | cons entry rest ih =>
    obtain ⟨l, w⟩ := entry
    by_cases hl : l = k
    · subst hl
      by_cases hk : k' = l
      · simp [put, find, hk]
      · simp [put, find, hk, Ne.symm hk]
    · by_cases hk : l = k'
      · subst hk
        simp [put, find, hl]
      · simp [put, find, hl, hk, ih]

theorem look_insert {path : List κ} (v : σ) (hpath : path ≠ []) {items : Items κ σ}
    (hfree : ∀ q w, q <+: path → q ≠ path → look items q ≠ some (some w)) :
    ∃ items', insert items path v = some items' ∧ ∀ q, look items' q =
      if q = path then some (some v)
      else if q <+: path then some none
      else if path <+: q then none
      else look items q := by
  induction path generalizing items with
  | nil => exact absurd rfl hpath
  | cons k rest ih =>
    have hother : ∀ (w : Nested κ σ) (k' : κ) (q : List κ), k' ≠ k →
        look (put items k w) (k' :: q) = look items (k' :: q) := by
      intro w k' q hk
      rw [look_cons, look_cons, find_put, if_neg hk]
    cases rest with
    | nil =>
      refine ⟨put items k (leaf v), by simp [insert], fun q => ?_⟩
      cases q with
      | nil => simp
      | cons k' q =>
        by_cases hk : k' = k
        · subst hk
          by_cases hq : q = [] <;> simp [look_cons, hq]
        · rw [hother _ _ _ hk]
          simp [cons_prefix_cons, hk, Ne.symm hk]
    | cons l rest =>
      -- the dictionary under `k`, which is made when there is none
      have hsub : ∃ sub, (∀ q, q ≠ [] → look items (k :: q) = look sub q) ∧
          insert items (k :: l :: rest) v =
            (insert sub (l :: rest) v).map fun sub => put items k (dict sub) := by
        cases hfind : find items k with
        | none => exact ⟨[], fun q hq => by simp [look_cons, hfind, look_empty, hq],
            by simp [insert, hfind]⟩
        | some value =>
          cases value with
          | leaf w =>
            have hleaf : look items [k] = some (some w) := by simp [look_cons, hfind]
            exact absurd hleaf (hfree [k] w (by simp) (by simp))
          | dict sub => exact ⟨sub, fun q _ => by simp [look_cons, hfind],
              by simp [insert, hfind]⟩
      obtain ⟨sub, hlook, hinsert⟩ := hsub
      have hsubfree : ∀ q w, q <+: l :: rest → q ≠ l :: rest →
          look sub q ≠ some (some w) := by
        intro q w hq hne
        by_cases hnil : q = []
        · simp [hnil]
        · rw [← hlook q hnil]
          refine hfree (k :: q) w ?_ (by simpa using hne)
          simpa [cons_prefix_cons] using hq
      obtain ⟨sub', hsub', hspec⟩ := ih (by simp) hsubfree
      refine ⟨put items k (dict sub'), by rw [hinsert, hsub', Option.map_some], fun q => ?_⟩
      cases q with
      | nil => simp
      | cons k' q =>
        by_cases hk : k' = k
        · subst hk
          rw [look_cons, find_put, if_pos rfl]
          change look sub' q = _
          rw [hspec q]
          by_cases hnil : q = []
          · simp [hnil]
          · simp [cons_prefix_cons, hlook q hnil]
        · rw [hother _ _ _ hk]
          simp [cons_prefix_cons, hk, Ne.symm hk]

/-! ## equality -/

theorem sizeOf_find {items : Items κ σ} {k : κ} {value : Nested κ σ}
    (h : find items k = some value) : sizeOf value < sizeOf items := by
  induction items with
  | nil => simp [find] at h
  | cons entry rest ih =>
    obtain ⟨l, w⟩ := entry
    by_cases hl : l = k
    · obtain rfl : w = value := by simpa [find, hl] using h
      simp only [List.cons.sizeOf_spec, Prod.mk.sizeOf_spec]
      omega
    · have hrest := ih (by simpa [find, hl] using h)
      simp only [List.cons.sizeOf_spec]
      omega

theorem same_of_look (xs ys : Items κ σ) (h : ∀ path, look xs path = look ys path) :
    Same (dict xs) (dict ys) := by
  refine .dict (fun k => ?_) fun k a b ha hb => ?_
  · have hk := h [k]
    rw [look_cons, look_cons] at hk
    cases hx : find xs k with
    | none =>
      rw [hx] at hk
      cases hy : find ys k with
      | none => rfl
      | some b => cases b <;> simp [hy] at hk
    | some a =>
      rw [hx] at hk
      cases hy : find ys k with
      | none => cases a <;> simp [hy] at hk
      | some b => rfl
  · have hpath (path : List κ) := h (k :: path)
    simp only [look_cons, ha, hb] at hpath
    match a, b with
    | .leaf v, .leaf w =>
      obtain rfl : v = w := by simpa using hpath []
      exact .leaf v
    | .leaf v, .dict sub => simpa using hpath []
    | .dict sub, .leaf w => simpa using hpath []
    | .dict sub, .dict sub' =>
      have hsize := sizeOf_find ha
      exact same_of_look sub sub' hpath
termination_by sizeOf xs
decreasing_by
  simp only [dict.sizeOf_spec] at hsize
  omega

/-! ## the last value -/

def last {α : Type} [DecidableEq α] (pairs : List (α × σ)) (a : α) : Option σ :=
  pairs.foldl (fun found pair => if pair.1 = a then some pair.2 else found) none

section Last

variable {α : Type} [DecidableEq α]

@[simp] theorem last_nil (a : α) : last ([] : List (α × σ)) a = none := rfl

@[simp] theorem last_append_singleton (pairs : List (α × σ)) (pair : α × σ) (a : α) :
    last (pairs ++ [pair]) a = if pair.1 = a then some pair.2 else last pairs a := by
  simp [last]

theorem last_eq_none {pairs : List (α × σ)} {a : α} :
    last pairs a = none ↔ a ∉ pairs.map Prod.fst := by
  induction pairs using List.reverseRecOn with
  | nil => simp
  | append_singleton pairs pair ih =>
    by_cases h : pair.1 = a
    · simp [h]
    · simp [h, ih, Ne.symm h]

theorem last_map {β : Type} [DecidableEq β] {f : α → β} {pairs : List (α × σ)} {a : α}
    (hf : ∀ b ∈ pairs.map Prod.fst, f b = f a → b = a) :
    last (pairs.map fun pair => (f pair.1, pair.2)) (f a) = last pairs a := by
  induction pairs using List.reverseRecOn with
  | nil => rfl
  | append_singleton pairs pair ih =>
    rw [map_append, map_singleton, last_append_singleton, last_append_singleton,
      ih fun b hb => hf b (by simp only [map_append, mem_append]; exact .inl hb)]
    by_cases h : pair.1 = a
    · simp [h]
    · have hne : f pair.1 ≠ f a := fun heq => h (hf _ (by simp) heq)
      simp [h, hne]

theorem last_of_nodup {pairs : List (α × σ)} (h : (pairs.map Prod.fst).Nodup) {a : α} {v : σ} :
    last pairs a = some v ↔ (a, v) ∈ pairs := by
  induction pairs using List.reverseRecOn with
  | nil => simp
  | append_singleton pairs pair ih =>
    rw [map_append, nodup_append'] at h
    obtain ⟨b, w⟩ := pair
    by_cases hb : b = a
    · subst hb
      have hnew : ∀ v, (b, v) ∉ pairs := fun v hv =>
        h.2.2 (List.mem_map.mpr ⟨_, hv, rfl⟩) (by simp)
      simp [hnew, eq_comm]
    · simp [hb, ih h.1, Ne.symm hb]

end Last

def under (pairs : List (List κ × σ)) (path : List κ) : Option (Option σ) :=
  match last pairs path with
  | some v => some (some v)
  | none => if path = [] ∨ ∃ q ∈ pairs.map Prod.fst, path <+: q then some none else none

variable {pairs : List (List κ × σ)}

theorem under_eq_leaf {path : List κ} {v : σ} :
    under pairs path = some (some v) ↔ last pairs path = some v := by
  unfold under
  cases hlast : last pairs path with
  | some w => simp
  | none =>
    simp only [reduceCtorEq, iff_false]
    split <;> simp

theorem under_eq_dict {path : List κ} (h : under pairs path = some none) :
    path = [] ∨ ∃ q v, path <+: q ∧ last pairs q = some v := by
  unfold under at h
  cases hlast : last pairs path with
  | some v => simp [hlast] at h
  | none =>
    simp only [hlast] at h
    by_cases hway : path = [] ∨ ∃ q ∈ pairs.map Prod.fst, path <+: q
    · obtain hnil | ⟨q, hq, hpre⟩ := hway
      · exact .inl hnil
      · obtain ⟨v, hv⟩ := Option.ne_none_iff_exists'.mp (mt last_eq_none.mp (not_not.mpr hq))
        exact .inr ⟨q, v, hpre, hv⟩
    · rw [if_neg hway] at h
      simp at h

theorem under_congr {pairs' : List (List κ × σ)}
    (h : ∀ path, last pairs path = last pairs' path) (path : List κ) :
    under pairs path = under pairs' path := by
  have hkeys (q : List κ) : q ∈ pairs.map Prod.fst ↔ q ∈ pairs'.map Prod.fst := by
    rw [← not_iff_not, ← last_eq_none, ← last_eq_none, h q]
  simp only [under, h path, hkeys]

/-- Paths none of which is empty or leads through another. -/
structure Apart (F : List κ → Prop) : Prop where
  ne_nil : ∀ p, F p → p ≠ []
  prefix_eq : ∀ p q, F p → F q → p <+: q → p = q

theorem look_inserts {F : List κ → Prop} (hF : Apart F) (hpairs : ∀ p ∈ pairs.map Prod.fst, F p) :
    ∃ items, inserts [] pairs = some items ∧ ∀ path, look items path = under pairs path := by
  induction pairs using List.reverseRecOn with
  | nil => exact ⟨[], rfl, fun path => by simp [look_empty, under]⟩
  | append_singleton pairs pair ih =>
    obtain ⟨items, hitems, hlook⟩ := ih fun p hp => hpairs p (by
      rw [map_append]
      exact mem_append_left _ hp)
    have hpair : F pair.1 := hpairs pair.1 (by simp)
    have hold : ∀ q, last pairs q ≠ none → F q := by
      intro q hq
      rw [ne_eq, last_eq_none, not_not] at hq
      exact hpairs q (by rw [map_append]; exact mem_append_left _ hq)
    have hfree : ∀ q w, q <+: pair.1 → q ≠ pair.1 → look items q ≠ some (some w) := by
      intro q w hq hne hw
      rw [hlook, under] at hw
      cases hlast : last pairs q with
      | some v => exact hne (hF.prefix_eq q _ (hold q (by simp [hlast])) hpair hq)
      | none =>
        simp only [hlast] at hw
        split at hw <;> simp at hw
    obtain ⟨items', hinsert, hspec⟩ := look_insert pair.2 (hF.ne_nil _ hpair) hfree
    refine ⟨items', ?_, fun path => ?_⟩
    · rw [inserts, foldlM_append]
      change (inserts [] pairs).bind _ = _
      rw [hitems]
      simpa using hinsert
    rw [hspec path, under, last_append_singleton]
    by_cases heq : path = pair.1
    · simp [heq]
    rw [if_neg heq, if_neg (Ne.symm heq)]
    by_cases hpre : path <+: pair.1
    · have hnone : last pairs path = none := by
        by_contra hsome
        exact heq (hF.prefix_eq path _ (hold path hsome) hpair hpre)
      have hany : path = [] ∨ ∃ q ∈ (pairs ++ [pair]).map Prod.fst, path <+: q :=
        .inr ⟨pair.1, by simp, hpre⟩
      rw [if_pos hpre, hnone]
      simp only [hany, if_true]
    rw [if_neg hpre]
    by_cases hext : pair.1 <+: path
    · have hnone : last pairs path = none := by
        by_contra hsome
        exact heq (hF.prefix_eq _ path hpair (hold path hsome) hext).symm
      have hnot : ¬ (path = [] ∨ ∃ q ∈ (pairs ++ [pair]).map Prod.fst, path <+: q) := by
        rintro (rfl | ⟨q, hq, hpath⟩)
        · exact hpre nil_prefix
        · obtain rfl := hF.prefix_eq _ q hpair (hpairs q hq) (hext.trans hpath)
          exact hpre hpath
      rw [if_pos hext, hnone]
      simp only [hnot, if_false]
    · rw [if_neg hext, hlook, under]
      have hsame : (∃ q ∈ (pairs ++ [pair]).map Prod.fst, path <+: q) ↔
          ∃ q ∈ pairs.map Prod.fst, path <+: q := by
        simp [hpre]
      simp only [hsame]

end Nested

end Codexon
