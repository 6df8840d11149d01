import Codexon.CatalogLineage

/-!
# Codexon.CatalogLineage.Agreement

The lineage of the tables is that of the plain dictionaries: both keep the parents of the sessions
whose chain of parents ends.
-/

namespace Codexon.CatalogLineage

open Closure (Reach Ends search_spec walk_spec chain_of_ends ends_parent)

/-! ## chains of parents -/

def up (rows : Dict Key (Option PyStr)) (key : Key) : Option Key :=
  (rows.get? key).bind fun parent =>
    parent.bind fun sid => if (rows.get? (key.1, sid)).isSome then some (key.1, sid) else none

noncomputable def lineage (rows : Dict Key (Option PyStr)) (key : Key) : Option Key :=
  open Classical in if Ends (up rows) key then up rows key else none

section Rows

variable {rows : Dict Key (Option PyStr)} {key p : Key}

theorem up_eq_some : up rows key = some p ↔
    rows.get? key = some (some p.2) ∧ key.1 = p.1 ∧ (rows.get? p).isSome := by
  unfold up
  cases hkey : rows.get? key with
  | none => simp
  | some parent =>
    cases parent with
    | none => simp
    | some sid =>
      obtain ⟨home, id⟩ := p
      by_cases hsome : (rows.get? (key.1, sid)).isSome
      · simp only [Option.bind_some, hsome, if_true, Option.some.injEq, Prod.mk.injEq]
        constructor
        · rintro ⟨rfl, rfl⟩
          exact ⟨rfl, rfl, hsome⟩
        · rintro ⟨rfl, rfl, -⟩
          exact ⟨rfl, rfl⟩
      · simp only [Option.bind_some, hsome, Option.some.injEq]
        constructor
        · simp
        · rintro ⟨rfl, rfl, hp⟩
          exact absurd hp hsome

theorem mem_keys_of_up (h : up rows key = some p) : key ∈ rows.keys := by
  rw [Dict.mem_keys, (up_eq_some.mp h).1]
  rfl

theorem mem_children {c : Key} :
    c ∈ children rows p ↔ rows.get? c = some (some p.2) ∧ c.1 = p.1 := by
  simp only [children, List.mem_map, List.mem_filter, decide_eq_true_eq]
  constructor
  · rintro ⟨⟨k, parent⟩, ⟨hmem, hhome, rfl⟩, rfl⟩
    exact ⟨Dict.get?_eq_some.mpr hmem, hhome⟩
  · rintro ⟨hget, hhome⟩
    exact ⟨(c, some p.2), ⟨Dict.get?_eq_some.mp hget, hhome, rfl⟩, rfl⟩

theorem mem_recursive {start : List Key} (hnodup : start.Nodup)
    (hstart : ∀ k ∈ start, k ∈ rows.keys) {k : Key} : k ∈ recursive rows start ↔ Reach
    (children rows) start k := by
  have hdomain : ∀ a ∈ rows.keys, ∀ b ∈ children rows a, b ∈ rows.keys := by
    intro a _ b hb
    rw [Dict.mem_keys, (mem_children.mp hb).1]
    rfl
  have hfuel : rows.keys.length ≤ rows.entries.length := by simp [Dict.keys]
  obtain ⟨result, hresult, -, hmem⟩ := search_spec false hstart hnodup hdomain hfuel
  rw [recursive, hresult, Option.getD_some]
  exact hmem k

theorem hasParent_iff {parent : Option PyStr} (h : rows.get? key = some parent) :
    hasParent rows key parent = (up rows key).isSome := by
  unfold hasParent up
  rw [h]
  cases parent with
  | none => rfl
  | some sid =>
    by_cases hsome : (rows.get? (key.1, sid)).isSome <;> simp [hsome]

theorem mem_rooted : key ∈ rooted rows ↔ key ∈ rows.keys ∧ Ends (up rows) key := by
  have hroots {k : Key} : k ∈ (rows.entries.filter fun node =>
      !hasParent rows node.1 node.2).map Prod.fst ↔ k ∈ rows.keys ∧ up rows k = none := by
    simp only [List.mem_map, List.mem_filter, Bool.not_eq_true', Dict.mem_keys]
    constructor
    · rintro ⟨⟨k, parent⟩, ⟨hmem, hnone⟩, rfl⟩
      have hget := Dict.get?_eq_some.mpr hmem
      rw [hasParent_iff hget] at hnone
      exact ⟨by rw [hget]; rfl, by simpa using hnone⟩
    · rintro ⟨hsome, hnone⟩
      obtain ⟨parent, hget⟩ := Option.isSome_iff_exists.mp hsome
      exact ⟨(k, parent), ⟨Dict.get?_eq_some.mp hget, by rw [hasParent_iff hget, hnone]; rfl⟩, rfl⟩
  have hnodup : ((rows.entries.filter fun node =>
      !hasParent rows node.1 node.2).map Prod.fst).Nodup :=
    rows.nodup.sublist (List.filter_sublist.map _)
  rw [rooted, mem_recursive hnodup fun k hk => (hroots.mp hk).1]
  constructor
  · intro hreach
    induction hreach with
    | start hk => exact ⟨(hroots.mp hk).1, .root (hroots.mp hk).2⟩
    | @next a b _ hb ih =>
      obtain ⟨hget, hhome⟩ := mem_children.mp hb
      have hup : up rows b = some a := up_eq_some.mpr ⟨hget, hhome, Dict.mem_keys.mp ih.1⟩
      exact ⟨mem_keys_of_up hup, .child hup ih.2⟩
  · rintro ⟨hkey, hends⟩
    induction hends with
    | root hnone => exact .start (hroots.mpr ⟨hkey, hnone⟩)
    | @child a b hup _ ih =>
      obtain ⟨hget, hhome, hsome⟩ := up_eq_some.mp hup
      exact .next (ih (Dict.mem_keys.mpr hsome)) (mem_children.mpr ⟨hget, hhome⟩)

end Rows

/-! ## the tables -/

theorem get?_nodes (w : Work) (key : Key) : (fillNodes w).get? key =
    ((nodeParents w).get? key).map fun parent =>
      { parent := parent, valid := key ∈ rooted (nodeParents w) } := Dict.get?_mapVal _ _ _

theorem parentOf_nodes (w : Work) {key : Key} {parent : Option PyStr}
    (h : (nodeParents w).get? key = some parent) :
    parentOf (fillNodes w) key { parent := parent, valid := key ∈ rooted (nodeParents w) } =
      lineage (nodeParents w) key := by
  have hmem : key ∈ (nodeParents w).keys := by
    rw [Dict.mem_keys, h]
    rfl
  have hrooted : key ∈ rooted (nodeParents w) ↔ Ends (up (nodeParents w)) key := by
    simp [mem_rooted, hmem]
  unfold parentOf lineage
  by_cases hends : Ends (up (nodeParents w)) key
  · simp only [hrooted, hends, decide_true, if_true, up, h, Option.bind_some, get?_nodes,
      Option.isSome_map]
  · simp [hrooted, hends]

theorem parent_finish (w : Work) (demand : Option Demand) (key : Key) :
    (w.finish demand).parent key = lineage (nodeParents w) key := by
  have hnodes : (w.finish demand).nodes = fillNodes w := by
    cases demand <;> rfl
  rw [Work.parent, hnodes, get?_nodes]
  cases h : (nodeParents w).get? key with
  | none =>
    have hup : up (nodeParents w) key = none := by simp [up, h]
    simp [lineage, hup]
  | some parent => exact parentOf_nodes w h

theorem mem_parentKeys (w : Work) (demand : Option Demand) (key : Key) :
    key ∈ (w.finish demand).parentKeys ↔ (lineage (nodeParents w) key).isSome := by
  have hnodes : (w.finish demand).nodes = fillNodes w := by
    cases demand <;> rfl
  rw [Work.parentKeys, List.mem_insertionSort, hnodes]
  simp only [List.mem_map, List.mem_filter]
  constructor
  · rintro ⟨⟨k, node⟩, ⟨hmem, hsome⟩, rfl⟩
    have hget := Dict.get?_eq_some.mpr hmem
    rw [get?_nodes] at hget
    obtain ⟨parent, hparent, rfl⟩ := Option.map_eq_some_iff.mp hget
    rwa [parentOf_nodes w hparent] at hsome
  · intro hsome
    cases h : (nodeParents w).get? key with
    | none =>
      have hup : up (nodeParents w) key = none := by simp [up, h]
      simp [lineage, hup] at hsome
    | some parent =>
      refine ⟨(key, _), ⟨Dict.get?_eq_some.mp (by rw [get?_nodes, h]; rfl), ?_⟩, rfl⟩
      rwa [parentOf_nodes w h]

theorem nodup_parentKeys (w : Work) : w.parentKeys.Nodup := by
  refine (List.perm_insertionSort _ _).nodup_iff.mpr ?_
  exact w.nodes.nodup.sublist (List.filter_sublist.map _)

theorem length_parentKeys (w : Work) : w.parentCount = w.parentKeys.length := by
  simp [Work.parentCount, Work.parentKeys]

/-! ## plain dictionaries -/

theorem get?_foldl_entries {ν μ : Type} (d : Dict Key ν) (e : Dict Key μ) (f : μ → ν) (key : Key) :
    (e.entries.foldl (fun d row => d.set row.1 (f row.2)) d).get? key =
      ((e.get? key).map f).or (d.get? key) := by
  have hfold := Dict.get?_foldl_set (fun row : Key × μ => row.1) (fun row => some (f row.2)) e.nodup
    d key
  simp only [Option.elim_some] at hfold
  rw [hfold]
  unfold Dict.get?
  cases e.entries.find? fun row => decide (row.1 = key) with
  | none => rfl
  | some row => rfl

def plainParents (rows : List (Key × Option PyStr)) : Dict Key (Option PyStr) :=
  rows.foldl (fun d row => d.set row.1 row.2) {}

def Plain.rows (catalog : Plain) : List (Key × Option PyStr) :=
  catalog.sessionCatalog ++ (catalog.modeSources.update catalog.owners.entries).entries

def Meta.ofRow (key : Key) (parent : Option PyStr) : Meta where
  home := key.1
  id := key.2
  parent := parent

@[simp] theorem Meta.ofRow_parent (key : Key) (parent : Option PyStr) :
    (Meta.ofRow key parent).parent = parent := rfl

theorem get?_indexed (rows : List (Key × Option PyStr)) (key : Key) :
    (indexed (rows.map fun row => Meta.ofRow row.1 row.2)).get? key =
      ((plainParents rows).get? key).map (Meta.ofRow key) := by
  induction rows using List.reverseRecOn with
  | nil => rfl
  | append_singleton rows row ih =>
    have hindexed : indexed ((rows ++ [row]).map fun row => Meta.ofRow row.1 row.2) =
        (indexed (rows.map fun row => Meta.ofRow row.1 row.2)).set row.1
          (Meta.ofRow row.1 row.2) := by
      simp [indexed, Meta.ofRow]
    have hplain : plainParents (rows ++ [row]) = (plainParents rows).set row.1 row.2 := by
      simp [plainParents]
    rw [hindexed, hplain, Dict.get?_set, Dict.get?_set]
    by_cases hkey : key = row.1
    · rw [if_pos hkey, if_pos hkey, hkey]
      rfl
    · rw [if_neg hkey, if_neg hkey, ih]

section Policy

variable {rows : List (Key × Option PyStr)}

theorem get?_parents (key : Key) :
    (parents (indexed (rows.map fun row => Meta.ofRow row.1 row.2))).get? key =
      up (plainParents rows) key := by
  unfold parents up
  rw [Dict.get?_build, get?_indexed]
  cases (plainParents rows).get? key with
  | none => rfl
  | some parent =>
    simp only [Option.map_some, Option.bind_some, Meta.ofRow_parent, get?_indexed,
      Option.isSome_map]

theorem get?_modeParents (key : Key) :
    (modeParents (rows.map fun row => Meta.ofRow row.1 row.2)).get? key =
      (lineage (plainParents rows) key).bind fun p =>
        ((plainParents rows).get? p).map (Meta.ofRow p) := by
  have hget : (parents (indexed (rows.map fun row => Meta.ofRow row.1 row.2))).get? =
      up (plainParents rows) := funext get?_parents
  unfold modeParents lineage
  rw [Dict.get?_build, hget]
  cases hup : up (plainParents rows) key with
  | none => simp
  | some first =>
    have hdomain : ∀ b, up (plainParents rows) b ≠ none →
        b ∈ (parents (indexed (rows.map fun row => Meta.ofRow row.1 row.2))).keys := by
      intro b hb
      rw [Dict.mem_keys, hget]
      exact Option.isSome_iff_ne_none.mpr hb
    have hseen : ∀ b ∈ [key], up (plainParents rows) b ≠ none ∧
        Closure.Leads (up (plainParents rows)) b first := by
      intro b hb
      obtain rfl : b = key := by simpa using hb
      exact ⟨by simp [hup], .single hup⟩
    have hfuel : (parents (indexed (rows.map fun row => Meta.ofRow row.1 row.2))).keys.length <
        (parents (indexed (rows.map fun row => Meta.ofRow row.1 row.2))).entries.length + 1 +
          [key].length := by
      simp only [Dict.keys, List.length_map, List.length_singleton]
      omega
    obtain ⟨r, hr, hends⟩ := walk_spec hdomain (List.nodup_singleton key) hseen hfuel
    have hiff : r = true ↔ Ends (up (plainParents rows)) key :=
      hends.trans (ends_parent hup).symm
    rw [Option.bind_some, hr, get?_indexed]
    by_cases hchain : Ends (up (plainParents rows)) key
    · simp [hchain, hiff.mpr hchain]
    · have hfalse : r = false := Bool.eq_false_iff.mpr (mt hiff.mp hchain)
      simp [hchain, hfalse]

theorem get?_modeParentIndex (catalog : Plain) (key : Key) :
    (modeParentIndex catalog).get? key = lineage (plainParents catalog.rows) key := by
  have hindex : (modeParentIndex catalog).get? key =
      ((modeParents (catalog.rows.map fun row => Meta.ofRow row.1 row.2)).get? key).map
        fun value => (value.home, value.id) := Dict.get?_mapVal _ _ _
  rw [hindex, get?_modeParents]
  cases h : lineage (plainParents catalog.rows) key with
  | none => rfl
  | some p =>
    have hup : up (plainParents catalog.rows) key = some p := by
      unfold lineage at h
      by_cases hends : Ends (up (plainParents catalog.rows)) key
      · rwa [if_pos hends] at h
      · simp [hends] at h
    obtain ⟨parent, hparent⟩ := Option.isSome_iff_exists.mp (up_eq_some.mp hup).2.2
    simp [hparent, Meta.ofRow]

end Policy

/-- The rows of a catalog as plain dictionaries. -/
structure SameRows (c : Catalog) (plain : Plain) : Prop where
  sessions : plain.sessionCatalog = c.sessions.entries
  owners : ∀ key, (plain.modeSources.update plain.owners.entries).get? key =
    (c.owners.get? key).map Prod.fst

theorem get?_rows {c : Catalog} {plain : Plain} (h : SameRows c plain) (key : Key) :
    (plainParents plain.rows).get? key = (nodeParents c.work).get? key := by
  have hplain : plainParents plain.rows =
      (plain.modeSources.update plain.owners.entries).entries.foldl
        (fun d row => d.set row.1 (id row.2))
        (c.sessions.entries.foldl (fun d row => d.set row.1 (id row.2)) {}) := by
    rw [plainParents, Plain.rows, h.sessions, List.foldl_append]
    rfl
  rw [hplain, get?_foldl_entries, get?_foldl_entries, h.owners]
  unfold nodeParents
  rw [get?_foldl_entries]
  simp only [Catalog.work, Dict.get?_mapVal, Option.map_map]
  cases c.owners.get? key with
  | some entry => rfl
  | none =>
    cases c.sessions.get? key with
    | some parent => rfl
    | none => rfl

theorem lineage_congr {rows rows' : Dict Key (Option PyStr)}
    (h : ∀ key, rows.get? key = rows'.get? key) : lineage rows = lineage rows' := by
  have hup : up rows = up rows' := by
    funext key
    simp [up, h]
  unfold lineage
  rw [hup]

/-! ## walks to the root -/

theorem ends_lineage (rows : Dict Key (Option PyStr)) (key : Key) : Ends (lineage rows) key := by
  by_cases hends : Ends (up rows) key
  · induction hends with
    | @root a hnone => exact .root (by simp [lineage, hnone])
    | @child a b hup hb ih =>
      have hends : Ends (up rows) a := .child hup hb
      refine .child (b := b) ?_ ih
      rw [lineage, if_pos hends, hup]
  · exact .root (by simp [lineage, hends])

end Codexon.CatalogLineage
