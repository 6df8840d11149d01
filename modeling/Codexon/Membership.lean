import Codexon.Closure
import Codexon.Dict
import Codexon.Json

/-!
# Codexon.Membership

The members of a selection: `UsageIndex.index_lineage` and `resolve_selection` of
`cachemonitor/index.py`, after any changes of metadata and lineage.  There is no archive; the
ancestry of `session_catalog` and the order of `demand_members` are left out.
-/

namespace Codexon.Membership

open Closure (search Reach search_spec reach_iff_least)

/-- A home and the id of a session. -/
abbrev Key := PyStr × PyStr

/-- `metadata` holds `parent_thread_id`, where the field is there; a row of the database is the same.
The lineage of a header is its parent, or empty. -/
structure UsageIndex where
  homes : List PyStr
  metadata : Dict Key (Option (Option PyStr)) := {}
  lineage : Dict Key (Option PyStr) := {}
  lineageOverrides : Dict Key (Option PyStr) := {}
  lineageChildren : Dict Key (List Key) := {}
  owners : List Key := []
  stored : List Key := []
  catalogComplete : Bool := true

namespace UsageIndex

variable (s : UsageIndex) (key : Key)

/-- `self.metadata.get(key, {}).get('parent_thread_id')` -/
def metadataParent : Option PyStr := (s.metadata.get? key).join.join

/-- `(self.lineage.get(key) or self.metadata.get(key, {})).get('parent_thread_id')` -/
def parent : Option PyStr := (s.lineage.get? key).join.or (s.metadataParent key)

def bucket (children : Dict Key (List Key)) (parent : Key) : List Key :=
  (children.get? parent).getD []

/-- What was recorded of an owner is taken back. -/
def forget : Dict Key (List Key) :=
  match s.lineageOverrides.get? key with
  | some (some previous) =>
    let rest := (bucket s.lineageChildren (key.1, previous)).filter (· ≠ key)
    if rest = [] then s.lineageChildren.erase (key.1, previous)
    else s.lineageChildren.set (key.1, previous) rest
  | _ => s.lineageChildren

def indexLineage : UsageIndex :=
  let children := s.forget key
  let overrides := s.lineageOverrides.erase key
  let parent := s.parent key
  if parent = s.metadataParent key then
    { s with lineageOverrides := overrides, lineageChildren := children }
  else
    { s with
      lineageOverrides := overrides.set key parent
      lineageChildren :=
        match parent with
        | some sid => children.set (key.1, sid) ((bucket children (key.1, sid)).insert key)
        | none => children }

def discoverHeader (lineage : Option PyStr) : UsageIndex :=
  indexLineage { s with
    lineage := s.lineage.set key lineage
    metadata := s.metadata.set key (lineage.map some) } key

/-- A row of `threads`; the lineage fills in for a parent that is missing. -/
def discover (row : Option (Option PyStr)) : UsageIndex :=
  let truthy := row.join.any (· ≠ [])
  let meta' := if truthy then row else ((s.lineage.get? key).join.map some).or row
  indexLineage { s with metadata := s.metadata.set key meta' } key

def refreshMetadata (row : Option (Option PyStr)) : UsageIndex :=
  if (s.metadata.get? key).isSome then s.discover key row else s

/-- A `session_meta` line of a file. -/
def scanFile (lineage : Option PyStr) : UsageIndex :=
  indexLineage { s with
    lineage := if lineage.isSome then s.lineage.set key lineage else s.lineage
    metadata :=
      if (s.metadata.get? key).isSome then s.metadata else s.metadata.set key (lineage.map some) } key

/-! ## `resolve_selection` -/

def present : Bool := (s.metadata.get? key).isSome || key ∈ s.owners || key ∈ s.stored

def found (selected : Option PyStr × PyStr) : List PyStr :=
  s.homes.filter fun home => selected.1.all (· = home) && s.present (home, selected.2)

def begin (selected : List (Option PyStr × PyStr)) : List Key :=
  (selected.filterMap fun owner =>
    match s.found owner with
    | [home] => some (home, owner.2)
    | _ => none).dedup

def children : List Key :=
  let rows := (s.metadata.entries.map Prod.fst).filter fun child =>
    child.1 = key.1 && s.metadataParent child = some key.2
  (rows ++ bucket s.lineageChildren key).filter fun child => s.parent child = some key.2

end UsageIndex

/-- The calls that record something of an owner, and the owners of files and of stored events. -/
inductive Event where
  | header (key : Key) (lineage : Option PyStr)
  | thread (key : Key) (row : Option (Option PyStr))
  | refresh (key : Key) (row : Option (Option PyStr))
  | scan (key : Key) (lineage : Option PyStr)
  | owners (owners stored : List Key) (complete : Bool)

/-- An index that was opened: the metadata are those of the database, and so is the lineage. -/
def opened (homes : List PyStr) (metadata : Dict Key (Option (Option PyStr))) : UsageIndex where
  homes := homes
  metadata := metadata
  lineage := (metadata.mapVal fun _ m => m.join.filter (· ≠ [])).restrict id Option.isSome

def step (s : UsageIndex) : Event → UsageIndex
  | .header key lineage => s.discoverHeader key lineage
  | .thread key row => s.discover key row
  | .refresh key row => s.refreshMetadata key row
  | .scan key lineage => s.scanFile key lineage
  | .owners owners stored complete =>
    { s with owners := owners, stored := stored, catalogComplete := complete }

def indexed (homes : List PyStr) (metadata : Dict Key (Option (Option PyStr)))
    (events : List Event) : UsageIndex :=
  events.foldl step (opened homes metadata)

/-! ## the overrides -/

/-- An owner is recorded where its parent is not the one that its metadata says. -/
structure Indexed (s : UsageIndex) : Prop where
  overrides : ∀ key, s.lineageOverrides.get? key =
    if s.parent key = s.metadataParent key then none else some (s.parent key)
  children : ∀ parent key, key ∈ UsageIndex.bucket s.lineageChildren parent ↔
    s.lineageOverrides.get? key = some (some parent.2) ∧ key.1 = parent.1

open UsageIndex

variable {s : UsageIndex}

theorem bucket_set (d : Dict Key (List Key)) (k k' : Key) (keys : List Key) :
    bucket (d.set k keys) k' = if k' = k then keys else bucket d k' := by
  rw [bucket, Dict.get?_set]
  split <;> rfl

theorem mem_forget (h : Indexed s) (key parent child : Key) : child ∈ bucket (s.forget key) parent ↔
      child ≠ key ∧ s.lineageOverrides.get? child = some (some parent.2) ∧ child.1 = parent.1 := by
  have hbucket : child ∈ bucket (s.forget key) parent ↔
      child ≠ key ∧ child ∈ bucket s.lineageChildren parent := by
    unfold forget
    split
    · next previous hprevious =>
      have hrest : bucket (if (bucket s.lineageChildren (key.1, previous)).filter (· ≠ key) = []
          then s.lineageChildren.erase (key.1, previous)
          else s.lineageChildren.set (key.1, previous)
            ((bucket s.lineageChildren (key.1, previous)).filter (· ≠ key))) parent =
          if parent = (key.1, previous) then
            (bucket s.lineageChildren (key.1, previous)).filter (· ≠ key)
          else bucket s.lineageChildren parent := by
        split
        · next hempty =>
          rw [bucket, Dict.get?_erase, hempty]
          split <;> rfl
        · exact bucket_set ..
      dsimp only
      rw [hrest]
      split
      · next hparent => simp [hparent, and_comm]
      · next hparent =>
        refine (and_iff_right_of_imp fun hmem hkey => hparent ?_).symm
        obtain ⟨hoverride, hhome⟩ := (h.children parent child).mp hmem
        rw [hkey, hprevious] at hoverride
        rw [hkey] at hhome
        exact Prod.ext hhome.symm (Option.some.inj (Option.some.inj hoverride)).symm
    · next hnone =>
      refine (and_iff_right_of_imp fun hmem hkey => ?_).symm
      obtain ⟨hoverride, -⟩ := (h.children parent child).mp hmem
      exact hnone _ (hkey ▸ hoverride)
  rw [hbucket, h.children]

theorem Indexed.indexLineage {t : UsageIndex} {key : Key} (h : Indexed s)
    (hoverrides : t.lineageOverrides = s.lineageOverrides)
    (hchildren : t.lineageChildren = s.lineageChildren)
    (hothers : ∀ k, k ≠ key → t.parent k = s.parent k ∧ t.metadataParent k = s.metadataParent k) :
    Indexed (t.indexLineage key) := by
  have hforget : t.forget key = s.forget key := by rw [forget, forget, hoverrides, hchildren]
  have hmem := mem_forget h key
  have hget (k : Key) : (t.lineageOverrides.erase key).get? k =
      if k = key then none else if t.parent k = t.metadataParent k then none else
        some (t.parent k) := by
    rw [Dict.get?_erase, hoverrides, h.overrides]
    by_cases hk : k = key
    · simp [hk]
    · rw [if_neg hk, if_neg hk, (hothers k hk).1, (hothers k hk).2]
  have hold (k parent : Key) : k ∈ bucket (t.forget key) parent ↔
      (t.lineageOverrides.erase key).get? k = some (some parent.2) ∧ k.1 = parent.1 := by
    rw [hforget, hmem, Dict.get?_erase, hoverrides]
    by_cases hk : k = key <;> simp [hk]
  unfold UsageIndex.indexLineage
  dsimp only
  split
  · next heq =>
    refine ⟨fun k => ?_, fun parent k => hold k parent⟩
    show (t.lineageOverrides.erase key).get? k =
      if t.parent k = t.metadataParent k then none else some (t.parent k)
    rw [hget]
    by_cases hk : k = key
    · subst hk
      simp [heq]
    · simp [hk]
  · next hne =>
    refine ⟨fun k => ?_, fun parent k => ?_⟩
    · show ((t.lineageOverrides.erase key).set key (t.parent key)).get? k =
        if t.parent k = t.metadataParent k then none else some (t.parent k)
      rw [Dict.get?_set, hget]
      by_cases hk : k = key
      · subst hk
        simp [hne]
      · simp [hk]
    · dsimp only
      rw [Dict.get?_set]
      cases hparent : t.parent key with
      | none =>
        dsimp only
        rw [hold]
        by_cases hk : k = key
        · subst hk
          simp [Dict.get?_erase]
        · rw [if_neg hk]
      | some sid =>
        dsimp only
        rw [bucket_set]
        by_cases hplace : parent = (key.1, sid)
        · subst hplace
          rw [if_pos rfl, List.mem_insert_iff, hold]
          by_cases hk : k = key <;> simp [hk]
        · rw [if_neg hplace, hold]
          by_cases hk : k = key
          · subst hk
            have hother : ¬ (sid = parent.2 ∧ k.1 = parent.1) := by
              rintro ⟨hsid, hhome⟩
              exact hplace (Prod.ext hhome.symm hsid.symm)
            simpa [Dict.get?_erase] using not_and.mp hother
          · rw [if_neg hk]

theorem parents_set {m : Dict Key (Option (Option PyStr))} {l : Dict Key (Option PyStr)} {k : Key}
    (hm : m.get? k = s.metadata.get? k) (hl : l.get? k = s.lineage.get? k) :
    ({ s with lineage := l, metadata := m } : UsageIndex).parent k = s.parent k ∧
      ({ s with lineage := l, metadata := m } : UsageIndex).metadataParent k =
        s.metadataParent k := by
  simp [parent, metadataParent, hm, hl]

theorem Indexed.discover (h : Indexed s) (key : Key) (row : Option (Option PyStr)) :
    Indexed (s.discover key row) :=
  h.indexLineage rfl rfl fun k hk =>
    parents_set (by rw [Dict.get?_set, if_neg hk]) rfl

theorem Indexed.step (h : Indexed s) (event : Event) : Indexed (step s event) := by
  cases event with
  | header key lineage =>
    exact h.indexLineage rfl rfl fun k hk =>
      parents_set (by rw [Dict.get?_set, if_neg hk]) (by rw [Dict.get?_set, if_neg hk])
  | thread key row => exact h.discover key row
  | refresh key row =>
    unfold Membership.step refreshMetadata
    dsimp only
    split
    · exact h.discover key row
    · exact h
  | scan key lineage =>
    refine h.indexLineage rfl rfl fun k hk => parents_set ?_ ?_
    · split
      · rfl
      · rw [Dict.get?_set, if_neg hk]
    · split
      · rw [Dict.get?_set, if_neg hk]
      · rfl
  | owners owners stored complete => exact ⟨h.overrides, h.children⟩

theorem Indexed.mem_children (h : Indexed s) (key child : Key) :
    child ∈ s.children key ↔ child.1 = key.1 ∧ s.parent child = some key.2 := by
  unfold UsageIndex.children
  dsimp only
  rw [List.mem_filter, List.mem_append, List.mem_filter, h.children, h.overrides, decide_eq_true_eq,
    Bool.and_eq_true, decide_eq_true_eq, decide_eq_true_eq]
  refine ⟨fun ⟨hchild, hparent⟩ => ⟨hchild.elim (·.2.1) (·.2), hparent⟩, fun ⟨hhome, hparent⟩ =>
    ⟨?_, hparent⟩⟩
  by_cases hsame : s.parent child = s.metadataParent child
  · refine .inl ⟨?_, hhome, hsame ▸ hparent⟩
    rw [hsame, metadataParent] at hparent
    refine Dict.mem_keys_iff.mpr ?_
    cases hmeta : s.metadata.get? child with
    | none => simp [hmeta] at hparent
    | some m => rfl
  · exact .inr ⟨by rw [if_neg hsame, hparent], hhome⟩

def Selected (s : UsageIndex) (selected : List (Option PyStr × PyStr)) (key : Key) : Prop :=
  ∃ owner ∈ selected, s.found owner = [key.1] ∧ owner.2 = key.2

end Codexon.Membership
