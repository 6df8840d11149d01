import Codexon.CatalogLineage.Agreement

/-!
# Codexon.CatalogLineage.Required

The sessions that a demand requires are the selections that are found once, and their descendants.
-/

namespace Codexon.CatalogLineage

open Closure (Reach)

/-- A selection is found once, at a session. -/
structure Resolves (sessions : Dict Key (Option PyStr)) (selection : Option PyStr × PyStr)
    (key : Key) : Prop where
  mem : key ∈ sessions.keys
  matched : matched selection key
  unique : ∀ k ∈ sessions.keys, CatalogLineage.matched selection k → k = key

/-- The sessions of a demand as it is worked on: those that are required are marked. -/
structure Marks (rows : Dict Key (Option PyStr)) (S : Key → Prop) (sessions : Dict Key Session) :
    Prop where
  keys : sessions.keys = rows.keys
  parent : ∀ key, (sessions.get? key).map Session.parent = rows.get? key
  required : ∀ key, (sessions.get? key).any Session.required ↔ key ∈ rows.keys ∧ S key

section Demand

variable {rows : Dict Key (Option PyStr)} {S : Key → Prop} {sessions : Dict Key Session}

theorem keys_mapVal {ν μ : Type} (d : Dict Key ν) (f : Key → ν → μ) :
    (d.mapVal f).keys = d.keys := by
  simp [Dict.keys, Dict.mapVal]

theorem resolves_iff {selection : Option PyStr × PyStr} {key : Key} :
    rows.keys.filter (matched selection) = [key] ↔ Resolves rows selection key := by
  have hnodup : (rows.keys.filter (matched selection)).Nodup := rows.nodup_keys.filter _
  constructor
  · intro h
    have hmem {k : Key} : k ∈ rows.keys ∧ matched selection k ↔ k = key := by
      rw [← List.mem_filter, h, List.mem_singleton]
    exact ⟨(hmem.mpr rfl).1, (hmem.mpr rfl).2, fun k hk hmatched => hmem.mp ⟨hk, hmatched⟩⟩
  · intro h
    refine List.perm_singleton.mp ((List.perm_ext_iff_of_nodup hnodup (by simp)).mpr fun k => ?_)
    rw [List.mem_filter, List.mem_singleton]
    constructor
    · rintro ⟨hk, hmatched⟩
      exact h.unique k hk hmatched
    · rintro rfl
      exact ⟨h.mem, h.matched⟩

theorem take_two {α : Type} {xs : List α} {a : α} : xs.take 2 = [a] ↔ xs = [a] := by
  match xs with
  | [] => simp
  | [b] => simp
  | b :: c :: rest => simp

section

variable (h : Marks rows S sessions)

include h

theorem Marks.mapVal {T : Key → Prop} [DecidablePred T] :
    Marks rows (fun key => S key ∨ T key)
      (sessions.mapVal fun key s => { s with required := s.required || decide (T key) }) where
  keys := (keys_mapVal _ _).trans h.keys
  parent key := by
    rw [← h.parent key, Dict.get?_mapVal, Option.map_map]
    rfl
  required key := by
    have hrequired := h.required key
    have hmem : key ∈ rows.keys ↔ (sessions.get? key).isSome := by rw [← h.keys, Dict.mem_keys]
    rw [Dict.get?_mapVal]
    rw [hmem] at hrequired ⊢
    cases hget : sessions.get? key with
    | none => simp
    | some s =>
      simp only [hget, Option.any_some, Option.isSome_some, true_and] at hrequired
      simp [hrequired]

theorem Marks.congr {T : Key → Prop} (hST : ∀ key, S key ↔ T key) :
    Marks rows T sessions where
  keys := h.keys
  parent := h.parent
  required key := by rw [h.required key, hST key]

theorem Marks.select (selection : Option PyStr × PyStr) :
    Marks rows (fun key => S key ∨ Resolves rows selection key)
      (requireSelected sessions selection) := by
  unfold requireSelected
  rw [h.keys]
  by_cases hone : ∃ key, rows.keys.filter (matched selection) = [key]
  · obtain ⟨key, hkey⟩ := hone
    have htake : (rows.keys.filter (matched selection)).take 2 = [key] := take_two.mpr hkey
    rw [htake]
    refine (h.mapVal (T := fun k => k = key)).congr fun k => or_congr_right ?_
    rw [← resolves_iff, hkey, List.singleton_inj, eq_comm]
  · have hnone {key : Key} : ¬ Resolves rows selection key := fun hkey =>
      hone ⟨key, resolves_iff.mpr hkey⟩
    have hsame : Marks rows (fun key => S key ∨ Resolves rows selection key) sessions :=
      h.congr fun key => by simp [hnone]
    split
    · rename_i key htake
      exact absurd ⟨key, take_two.mp htake⟩ hone
    · exact hsame

theorem Marks.selects (selected : List (Option PyStr × PyStr)) :
    Marks rows (fun key => S key ∨ ∃ selection ∈ selected, Resolves rows selection key)
      (selected.foldl requireSelected sessions) := by
  induction selected generalizing S sessions with
  | nil => exact h.congr fun key => by simp
  | cons selection selected ih =>
    refine (ih (h.select selection)).congr fun key => ?_
    simp only [List.mem_cons, exists_eq_or_imp, or_assoc]

theorem Marks.family :
    ∃ start : List Key, (∀ key, key ∈ start ↔ key ∈ rows.keys ∧ S key) ∧
      Marks rows (Reach (children rows) start) (requireFamily sessions) := by
  have hparents (key : Key) :
      (sessions.mapVal fun _ session => session.parent).get? key = rows.get? key := by
    rw [Dict.get?_mapVal]
    exact h.parent key
  have hkeys : (sessions.mapVal fun _ session => session.parent).keys = rows.keys :=
    (keys_mapVal _ _).trans h.keys
  have hstart (key : Key) : key ∈ (sessions.entries.filter fun row => row.2.required).map Prod.fst ↔
      key ∈ rows.keys ∧ S key := by
    rw [← h.required key]
    simp only [List.mem_map, List.mem_filter]
    constructor
    · rintro ⟨⟨k, s⟩, ⟨hmem, hrequired⟩, rfl⟩
      rw [Dict.get?_eq_some.mpr hmem]
      exact hrequired
    · intro hany
      obtain ⟨s, hget, hrequired⟩ := (Option.any_eq_true _ _).mp hany
      exact ⟨(key, s), ⟨Dict.get?_eq_some.mp hget, hrequired⟩, rfl⟩
  have hnodup : ((sessions.entries.filter fun row => row.2.required).map Prod.fst).Nodup :=
    sessions.nodup.sublist (List.filter_sublist.map _)
  have hchildren (a b : Key) : b ∈ children (sessions.mapVal fun _ session => session.parent) a ↔
      b ∈ children rows a := by
    rw [mem_children, mem_children, hparents]
  have hreach (key : Key) :
      key ∈ recursive (sessions.mapVal fun _ session => session.parent)
          ((sessions.entries.filter fun row => row.2.required).map Prod.fst) ↔
        Reach (children rows)
          ((sessions.entries.filter fun row => row.2.required).map Prod.fst) key := by
    rw [mem_recursive hnodup fun k hk => by rw [hkeys]; exact ((hstart k).mp hk).1]
    constructor
    · exact fun hr => hr.least (fun _ => .start) fun a ha b hb => ha.next ((hchildren a b).mp hb)
    · exact fun hr => hr.least (fun _ => .start) fun a ha b hb => ha.next ((hchildren a b).mpr hb)
  refine ⟨_, hstart, ?_⟩
  have hmarked := h.mapVal (T := fun key => key ∈ recursive
    (sessions.mapVal fun _ session => session.parent)
    ((sessions.entries.filter fun row => row.2.required).map Prod.fst))
  refine ⟨hmarked.keys, hmarked.parent, fun key => ?_⟩
  refine (hmarked.required key).trans (and_congr_right fun hkey => ?_)
  rw [hreach]
  constructor
  · rintro (hS | hr)
    · exact .start ((hstart key).mpr ⟨hkey, hS⟩)
    · exact hr
  · exact .inr

end

theorem marks_finish (c : Catalog) (demand : Demand) : ∃ start : List Key,
    (∀ key, key ∈ start ↔ ∃ selection ∈ demand.selected, Resolves c.sessions selection key) ∧
      Marks c.sessions (Reach (children c.sessions) start)
        (c.work.finish (some demand)).sessions := by
  have hfresh : Marks c.sessions (fun _ => False) c.work.sessions := {
    keys := keys_mapVal _ _
    parent := fun key => by
      simp only [Catalog.work, Dict.get?_mapVal, Option.map_map]
      cases c.sessions.get? key <;> rfl
    required := fun key => by
      simp only [Catalog.work, Dict.get?_mapVal, and_false, iff_false]
      cases c.sessions.get? key <;> simp }
  obtain ⟨start, hstart, hmarks⟩ := (hfresh.selects demand.selected).family
  refine ⟨start, fun key => ?_, hmarks⟩
  rw [hstart key]
  constructor
  · rintro ⟨-, hfalse | hresolves⟩
    · exact hfalse.elim
    · exact hresolves
  · rintro ⟨selection, hmem, hresolves⟩
    exact ⟨hresolves.mem, .inr ⟨selection, hmem, hresolves⟩⟩

end Demand

/-! ## the catalog -/

/-- The lineage of the tables is the policy on the same rows, and a demand requires a family. -/
theorem catalog_lineage (c : Catalog) (demand : Option Demand) (plain : Plain)
    (hrows : SameRows c plain) :
    (∀ key, (c.work.finish demand).parent key = (modeParentIndex plain).get? key) ∧
      (c.work.finish demand).parentKeys.Perm (modeParentIndex plain).keys ∧
      (c.work.finish demand).parentCount = (modeParentIndex plain).keys.length ∧
      (∀ required key, ∃ fuel context,
        modeContext (c.work.finish demand).parent required fuel key = some context) ∧
      ∀ d, demand = some d → ∀ key,
        ((c.work.finish demand).sessions.get? key).any Session.required ↔ ∀ S : Key → Prop,
            (∀ selection ∈ d.selected, ∀ k, Resolves c.sessions selection k → S k) →
            (∀ p, S p → ∀ k, c.sessions.get? k = some (some p.2) → k.1 = p.1 → S k) → S key := by
  have hlineage : lineage (plainParents plain.rows) = lineage (nodeParents c.work) :=
    lineage_congr (get?_rows hrows)
  have hparent (key : Key) : (c.work.finish demand).parent key =
      (modeParentIndex plain).get? key := by
    rw [parent_finish, get?_modeParentIndex, hlineage]
  have hperm : (c.work.finish demand).parentKeys.Perm (modeParentIndex plain).keys := by
    refine (List.perm_ext_iff_of_nodup (nodup_parentKeys _) (Dict.nodup_keys _)).mpr fun key => ?_
    rw [mem_parentKeys, Dict.mem_keys, get?_modeParentIndex, hlineage]
  refine ⟨hparent, hperm, (length_parentKeys _).trans hperm.length_eq, ?_, ?_⟩
  · intro required key
    have hfun : (c.work.finish demand).parent = lineage (nodeParents c.work) :=
      funext (parent_finish _ _)
    obtain ⟨fuel, nodes, hnodes⟩ :=
      Closure.chain_of_ends (ends_lineage (nodeParents c.work) key)
    cases required with
    | true => exact ⟨fuel, nodes.reverse, by simp [modeContext, hfun, hnodes]⟩
    | false => exact ⟨fuel, [key], rfl⟩
  · rintro d rfl key
    obtain ⟨start, hstart, hmarks⟩ := marks_finish c d
    rw [hmarks.required key, Closure.reach_iff_least]
    constructor
    · rintro ⟨-, hleast⟩ S hselected hchildren
      refine hleast S (fun k hk => ?_) fun p hp k hk => ?_
      · obtain ⟨selection, hmem, hresolves⟩ := (hstart k).mp hk
        exact hselected selection hmem k hresolves
      · obtain ⟨hget, hhome⟩ := mem_children.mp hk
        exact hchildren p hp k hget hhome
    · intro hleast
      refine hleast (fun k => k ∈ c.sessions.keys ∧ ∀ S : Key → Prop, (∀ a ∈ start, S a) →
        (∀ a, S a → ∀ b ∈ children c.sessions a, S b) → S k) ?_ ?_
      · intro selection hmem k hresolves
        exact ⟨hresolves.mem, fun S hS _ => hS k ((hstart k).mpr ⟨selection, hmem, hresolves⟩)⟩
      · rintro p ⟨-, hp⟩ k hget hhome
        refine ⟨Dict.mem_keys.mpr (by rw [hget]; rfl), fun S hS hstep => ?_⟩
        exact hstep p (hp S hS hstep) k (mem_children.mpr ⟨hget, hhome⟩)

def Catalog.plain (c : Catalog) : Plain where
  sessionCatalog := c.sessions.entries
  modeSources := {}
  owners := c.owners.mapVal fun _ entry => entry.1

theorem sameRows_plain (c : Catalog) : SameRows c c.plain where
  sessions := rfl
  owners key := by
    have hupdate := get?_foldl_entries ({} : Dict Key (Option PyStr)) c.plain.owners id key
    have hempty : ({} : Dict Key (Option PyStr)).get? key = none := rfl
    rw [hempty, Option.or_none, Option.map_id, id] at hupdate
    exact hupdate.trans (Dict.get?_mapVal _ _ _)

/-- Two sessions whose parents are each other, until the owner of one names another. -/
def sample : Catalog where
  sessions := {
    entries := [(("h", "a"), none), (("h", "b"), some "a"), (("h", "c"), some "d"),
      (("h", "d"), some "c"), (("h", "e"), some "e")]
    nodup := by decide }
  owners := { entries := [(("h", "d"), (some "a", true))], nodup := by decide }

theorem catalog_lineage_sample :
    (sample.work.finish (some ⟨[(none, "c")], false⟩)).parent ("h", "c") =
        (modeParentIndex sample.plain).get? ("h", "c") ∧
      (modeParentIndex sample.plain).get? ("h", "c") = some (py "h", py "d") ∧
      (modeParentIndex sample.plain).get? ("h", "e") = none :=
  ⟨(catalog_lineage sample _ _ (sameRows_plain sample)).1 _, by decide +kernel, by decide +kernel⟩

end Codexon.CatalogLineage
