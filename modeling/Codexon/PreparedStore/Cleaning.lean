import Codexon.PreparedStore.Table

/-!
# Codexon.PreparedStore.Cleaning

No slice of `maintain` changes what a reader sees.  Each deletion is one of a few
moves that keep the tables sound and every reading (`Refines.eraseRows` for the
facts, `Refines.dropPublication` and `Refines.dropOwner` for what they refer to),
and a slice is a fold of them.
-/

namespace Codexon.PreparedStore

open List

variable {ω ι ν : Type}

variable {batch : Nat} {s : State ω ι ν}

theorem Visible.mono (h : Visible s none batch) (marker : Option Nat) : Visible s marker batch := by
  obtain ⟨p, hp, hbatch, hstate⟩ := h
  exact ⟨p, hp, hbatch, .inl (hstate.resolve_right (by simp))⟩

theorem published_visible (h : (batch, .published) ∈ s.publications) : Visible s none batch :=
  ⟨_, h, rfl, .inl rfl⟩

/-! ## what pruning keeps -/

@[simp] theorem marker_pruneOwner (s : State ω ι ν) (owner : Nat) :
    (pruneOwner s owner).marker = s.marker := by
  unfold pruneOwner
  split <;> rfl

@[simp] theorem rows_prunePublication (s : State ω ι ν) (batch : Nat) :
    (prunePublication s batch).rows = s.rows := by
  unfold prunePublication
  split <;> rfl

@[simp] theorem retired_prunePublication (s : State ω ι ν) (batch : Nat) :
    (prunePublication s batch).retired = s.retired := by
  unfold prunePublication
  split <;> rfl

variable {task : Retired ι}

theorem visible_prunePublication (htask : task ∈ s.retired)
    (hseen : Visible s none task.batch) (batch : Nat) :
    Visible (prunePublication s batch) none task.batch := by
  unfold prunePublication
  split
  · rename_i hprune
    obtain ⟨p, hp, hbatch, hstate⟩ := hseen
    refine ⟨p, List.mem_filter.mpr ⟨hp, ?_⟩, hbatch, hstate⟩
    rw [decide_eq_true_eq, hbatch]
    rintro rfl
    have hreferred := hprune.2.2
    simp only [referred, Bool.or_eq_false_iff, any_eq_false] at hreferred
    exact hreferred.1.1.1.2 task htask (by simp)
  · exact hseen

/-! ## the open stage -/

theorem stage_prunePublication (s : State ω ι ν) (batch : Nat) :
    (prunePublication s batch).stage = s.stage := by
  unfold prunePublication
  split <;> rfl

theorem stage_pruneOwner (s : State ω ι ν) (owner : Nat) : (pruneOwner s owner).stage = s.stage :=
    by
  unfold pruneOwner
  split <;> rfl

theorem stage_foldl {α : Type} {f : State ω ι ν → α → State ω ι ν}
    (hf : ∀ s x, (f s x).stage = s.stage) (xs : List α) (s : State ω ι ν) :
    (xs.foldl f s).stage = s.stage :=
  List.foldlRecOn (motive := fun s' => s'.stage = s.stage) xs f rfl
    fun s' h x _ => (hf s' x).trans h

theorem stage_cleanAbandoned [DecidableEq ι] (rows : Nat) (plan : Plan) (batch : Nat)
    (s : State ω ι ν) : (cleanAbandoned rows plan batch s).stage = s.stage := by
  unfold cleanAbandoned
  split
  · rfl
  · split
    · apply stage_foldl
      intro s row
      rfl
    · split
      · rfl
      · split
        · apply stage_foldl
          intro s version
          rw [stage_pruneOwner]
        · split
          · rfl
          · split
            · apply stage_foldl
              intro s row
              rw [stage_pruneOwner]
            · rfl

theorem stage_maintain [DecidableEq ι] (rows : Nat) (plan : Plan)
    (work : Option (List Nat × List Nat)) (s : State ω ι ν) :
    (maintain rows plan work s).stage = s.stage := by
  unfold maintain
  split
  · exact stage_cleanAbandoned rows plan _ s
  · split
    · split
      · exact stage_foldl stage_prunePublication _ _
      · unfold cleanFact
        extract_lets key old s'
        have hold : s'.stage = s.stage := by
          apply stage_foldl
          intro s row
          rw [stage_prunePublication]
          rfl
        split
        · exact (stage_prunePublication _ _).trans hold
        · exact hold
    · split
      · exact stage_foldl stage_prunePublication _ _
      · extract_lets seen
        split
        · exact stage_foldl stage_prunePublication _ _
        · split
          · unfold cleanRemoved
            rw [stage_prunePublication, stage_pruneOwner]
            split <;> rfl
          · rfl

variable [DecidableEq ω]

/-! ## moves -/

variable {spec : Spec ω ι ν}

section

variable (h : Refines s spec)

include h

theorem Refines.unread
    (heads : Dict Nat Nat) (ownerRetired : List (Nat × Nat)) (ledgerPending others pins : List Nat)
    :
    Refines { s with
      heads := heads, ownerRetired := ownerRetired, ledgerPending := ledgerPending
      others := others, pins := pins } spec where
  sound := { h.sound with }
  published := h.published
  stage stage hstage := by
    obtain ⟨staged, hspec, hshows, hlisted⟩ := h.stage stage hstage
    exact ⟨staged, hspec, hshows, { hlisted with }⟩
  idle := h.idle

theorem Refines.dropTasks
    (keep : Retired ι → Bool) : Refines { s with retired := s.retired.filter keep } spec where
  sound := { h.sound with
    superseded := fun task htask => h.sound.superseded task (mem_of_mem_filter htask)
    tasks := fun task htask => h.sound.tasks task (mem_of_mem_filter htask) }
  published := h.published
  stage stage hstage := by
    obtain ⟨staged, hspec, hshows, hlisted⟩ := h.stage stage hstage
    exact ⟨staged, hspec, hshows, { hlisted with }⟩
  idle := h.idle

/-- Rows of `seen` may go, but for those of the open batch. -/
theorem Refines.dropSeen
    (keep : Seen ι → Bool) (hkeep : ∀ row ∈ s.seen, s.marker = some row.batch → keep row = true) :
    Refines { s with seen := s.seen.filter keep } spec where
  sound := { h.sound with
    listings := fun row hrow => h.sound.listings row (mem_of_mem_filter hrow) }
  published := h.published
  stage stage hstage := by
    obtain ⟨staged, hspec, hshows, hlisted⟩ := h.stage stage hstage
    refine ⟨staged, hspec, hshows, ⟨hlisted.opened, hlisted.unfinished, ?_, ?_, hlisted.fresh⟩⟩
    · intro row hrow
      exact hlisted.started row (mem_of_mem_filter hrow)
    · intro key owner kind howner hpair hfresh identity
      change s.stage = some stage at hstage
      rw [← hlisted.listed key owner kind howner hpair hfresh identity, List.mem_filter]
      constructor
      · exact fun hrow => hrow.1
      · intro hrow
        exact ⟨hrow, hkeep _ hrow (by simp [State.marker, hstage])⟩
  idle := h.idle

/-- Owner versions may go, but for those of the open batch. -/
theorem Refines.dropVersions (keep : OwnerVersion → Bool)
    (hkeep : ∀ v ∈ s.versions, s.marker = some v.batch → keep v = true) :
    Refines { s with versions := s.versions.filter keep } spec where
  sound := { h.sound with
    declared := by
      intro stage hstage key owner howner
      obtain ⟨hget, v, hv, hsame, hbatch⟩ := h.sound.declared stage hstage key owner howner
      refine ⟨hget, v, List.mem_filter.mpr ⟨hv, hkeep v hv ?_⟩, hsame, hbatch⟩
      change s.stage = some stage at hstage
      simp [State.marker, hstage, hbatch] }
  published := h.published
  stage stage hstage := by
    obtain ⟨staged, hspec, hshows, hlisted⟩ := h.stage stage hstage
    exact ⟨staged, hspec, hshows, { hlisted with }⟩
  idle := h.idle

theorem Refines.dropPublication
    (batch : Nat) (hrows : ∀ row ∈ s.rows, row.batch ≠ batch) (hmarker : s.marker ≠ some batch) :
    Refines { s with publications := s.publications.filter (·.1 ≠ batch) } spec := by
  have hvisible : ∀ marker other, other ≠ batch →
      (Visible { s with publications := s.publications.filter (·.1 ≠ batch) } marker other ↔
        Visible s marker other) := by
    intro marker other hother
    simp only [Visible, List.mem_filter, decide_eq_true_eq]
    grind
  have hshows : ∀ marker facts, Shows s marker facts →
      Shows { s with publications := s.publications.filter (·.1 ≠ batch) } marker facts := by
    intro marker facts hshows
    refine ⟨fun key owner howner kind identity => ?_, hshows.2⟩
    apply (hshows.1 key owner howner kind identity).congr (fun _ _ => Iff.rfl)
    exact fun row hrow _ => hvisible marker row.batch (hrows row hrow)
  constructor
  · constructor
    · exact h.sound.ids.sublist (filter_sublist.map Prod.fst)
    · exact fun p hp => h.sound.below p (mem_of_mem_filter hp)
    · exact fun p hp => h.sound.staged p (mem_of_mem_filter hp)
    · intro stage hstage
      change s.stage = some stage at hstage
      have hne : stage.batch ≠ batch := by
        rintro rfl
        simp [State.marker, hstage] at hmarker
      simp [h.sound.open_ stage hstage, hne]
    · exact fun stage hstage p hp => h.sound.newest stage hstage p (mem_of_mem_filter hp)
    · exact h.sound.single
    · intro row hrow
      obtain ⟨p, hp, hbatch⟩ := h.sound.written row hrow
      have hne := hrows row hrow
      exact ⟨p, by simp [hp, hbatch, hne], hbatch⟩
    · intro task htask kind identity hfact hseen old hold hkey hlt
      have hseen' : Visible s s.marker task.batch := by
        obtain ⟨p, hp, hp'⟩ := hseen
        exact ⟨p, mem_of_mem_filter hp, hp'⟩
      obtain ⟨new, hnew, hkey', hle, hbatch⟩ :=
        h.sound.superseded task htask kind identity hfact hseen' old hold hkey hlt
      exact ⟨new, hnew, hkey', hle, hbatch.imp_right (hvisible none _ (hrows new hnew)).mpr⟩
    · exact h.sound.tasks
    · exact h.sound.owner
    · exact h.sound.owned
    · exact h.sound.declared
    · exact h.sound.listings
  · exact hshows none _ h.published
  · intro stage hstage
    obtain ⟨staged, hspec, hstaged, hlisted⟩ := h.stage stage hstage
    exact ⟨staged, hspec, hshows _ _ hstaged, { hlisted with }⟩
  · exact h.idle

/-- **Cleaning of facts**: rows may go where every reader sees a newer row, or where they
are tombstones with nothing seen below. -/
theorem Refines.eraseRows (keep : Version (FactKey ι) ν → Bool)
    (hgone : ∀ row ∈ s.rows, keep row = false → ∀ marker, Visible s marker row.batch →
      marker = none ∨ marker = s.marker →
      (∃ newer ∈ s.rows, keep newer = true ∧ newer.key = row.key ∧ Visible s marker newer.batch ∧
        row.batch < newer.batch) ∨
      row.value = none ∧ ∀ old ∈ s.rows, keep old = true → old.key = row.key →
        row.batch ≤ old.batch)
    (hsuperseded : ∀ task ∈ s.retired, ∀ kind identity, task.fact = some (kind, identity) →
      Visible s s.marker task.batch →
      ∀ old ∈ s.rows, keep old = true → old.key = ⟨kind, task.owner, identity⟩ →
      old.batch < task.batch →
      ∃ new ∈ s.rows, keep new = true ∧ new.key = ⟨kind, task.owner, identity⟩ ∧
        task.batch ≤ new.batch ∧ (new.batch = task.batch ∨ Visible s none new.batch)) :
    Refines { s with rows := s.rows.filter keep } spec := by
  have hshows : ∀ marker facts, marker = none ∨ marker = s.marker → Shows s marker facts →
      Shows { s with rows := s.rows.filter keep } marker facts := by
    intro marker facts hmarker hshows
    refine ⟨fun key owner howner kind identity => ?_, hshows.2⟩
    apply (hshows.1 key owner howner kind identity).erase
    · exact fun row hrow => mem_of_mem_filter hrow
    · intro row hrow hnot hkey hseen
      have hkeep : keep row = false := by
        simpa [hrow] using hnot
      rcases hgone row hrow hkeep marker hseen hmarker with ⟨newer, hnewer, hkept, hsame, hrest⟩ | hlone
      · exact .inl ⟨newer, List.mem_filter.mpr ⟨hnewer, hkept⟩, hsame.trans hkey, hrest⟩
      · refine .inr ⟨hlone.1, fun old hold hkey' _ => ?_⟩
        obtain ⟨hold', hkept⟩ := List.mem_filter.mp hold
        exact hlone.2 old hold' hkept (hkey'.trans hkey.symm)
  constructor
  · exact { h.sound with
      single := fun row hrow other hother =>
        h.sound.single row (mem_of_mem_filter hrow) other (mem_of_mem_filter hother)
      written := fun row hrow => h.sound.written row (mem_of_mem_filter hrow)
      superseded := by
        intro task htask kind identity hfact hseen old hold hkey hlt
        obtain ⟨hold', hkept⟩ := List.mem_filter.mp hold
        obtain ⟨new, hnew, hkept', hrest⟩ :=
          hsuperseded task htask kind identity hfact hseen old hold' hkept hkey hlt
        exact ⟨new, List.mem_filter.mpr ⟨hnew, hkept'⟩, hrest⟩
      owned := fun row hrow => h.sound.owned row (mem_of_mem_filter hrow) }
  · exact hshows none _ (.inl rfl) h.published
  · intro stage hstage
    obtain ⟨staged, hspec, hstaged, hlisted⟩ := h.stage stage hstage
    change s.stage = some stage at hstage
    refine ⟨staged, hspec, hshows _ _ (.inr (by simp [State.marker, hstage])) hstaged, ?_⟩
    exact { hlisted with
      fresh := fun key owner kind howner hpair row hrow =>
        hlisted.fresh key owner kind howner hpair row (mem_of_mem_filter hrow) }
  · exact h.idle

theorem Refines.dropOwner (owner : Nat) (hrows : ∀ row ∈ s.rows, row.key.owner ≠ owner)
    (hversions : ∀ v ∈ s.versions, v.owner ≠ owner) :
    Refines { s with owners := s.owners.restrict id (· ≠ owner) } spec := by
  have hget : ∀ key other, (s.owners.restrict id (· ≠ owner)).get? key = some other ↔
      s.owners.get? key = some other ∧ other ≠ owner := by
    intro key other
    simp [Dict.get?_restrict, Option.filter_eq_some_iff]
  have hshows : ∀ marker facts, Shows s marker facts →
      Shows { s with owners := s.owners.restrict id (· ≠ owner) } marker facts := by
    intro marker facts hshows
    constructor
    · intro key other hother
      exact hshows.1 key other ((hget key other).mp hother).1
    · intro key hnone kind identity
      cases hold : s.owners.get? key with
      | none => exact hshows.2 key hold kind identity
      | some other =>
        have hsame : other = owner := by
          by_contra hne
          have hsome := (hget key other).mpr ⟨hold, hne⟩
          change (s.owners.restrict id (· ≠ owner)).get? key = none at hnone
          rw [hnone] at hsome
          cases hsome
        have hreads := hshows.1 key other hold kind identity
        refine hreads.unique (Version.readsAs_none fun row hrow hkey _ => hrows row hrow ?_)
        rw [hkey, hsame]
  constructor
  · exact { h.sound with
      owner := fun key key' other hkey hkey' =>
        h.sound.owner key key' other ((hget _ _).mp hkey).1 ((hget _ _).mp hkey').1
      owned := by
        intro row hrow
        obtain ⟨key, hkey⟩ := h.sound.owned row hrow
        exact ⟨key, (hget _ _).mpr ⟨hkey, hrows row hrow⟩⟩
      declared := by
        intro stage hstage key other hother
        obtain ⟨hkey, v, hv, hsame, hbatch⟩ := h.sound.declared stage hstage key other hother
        exact ⟨(hget _ _).mpr ⟨hkey, hsame ▸ hversions v hv⟩, v, hv, hsame, hbatch⟩ }
  · exact hshows none _ h.published
  · intro stage hstage
    obtain ⟨staged, hspec, hstaged, hlisted⟩ := h.stage stage hstage
    exact ⟨staged, hspec, hshows _ _ hstaged, { hlisted with }⟩
  · exact h.idle

end

/-! ## visibility -/

theorem Sound.state (h : Sound s) {state state' : PublicationState}
    (hstate : (batch, state) ∈ s.publications) (hstate' : (batch, state') ∈ s.publications) :
    state = state' :=
  (Prod.mk.inj (inj_on_of_nodup_map h.ids hstate hstate' rfl)).2

theorem Sound.marker_staged (h : Sound s) (hmarker : s.marker = some batch) : (batch, .staged) ∈
    s.publications := by
  obtain ⟨stage, hstage, rfl⟩ := Option.map_eq_some_iff.mp hmarker
  exact h.open_ stage hstage

theorem Sound.abandoned_unseen (h : Sound s) (habandoned : (batch, .abandoned) ∈ s.publications)
    {marker : Option Nat}
    (hmarker : marker = none ∨ marker = s.marker) : ¬ Visible s marker batch := by
  rintro ⟨⟨other, state⟩, hp, rfl, hstate | hstate⟩
  · change state = .published at hstate
    subst hstate
    cases h.state hp habandoned
  · rcases hmarker with rfl | rfl
    · cases hstate
    · cases h.state (h.marker_staged hstate) habandoned

/-! ## pruning -/

theorem refines_prunePublication (h : Refines s spec)
    (batch : Nat) : Refines (prunePublication s batch) spec := by
  unfold prunePublication
  split
  · rename_i hprune
    apply h.dropPublication
    · intro row hrow hbatch
      have hreferred := hprune.2.2
      simp only [referred, Bool.or_eq_false_iff, any_eq_false] at hreferred
      exact hreferred.1.1.1.1.1.1 row hrow (by simpa using hbatch)
    · intro hmarker
      cases h.sound.state hprune.1 (h.sound.marker_staged hmarker)
  · exact h

theorem refines_pruneOwner (h : Refines s spec)
    (owner : Nat) : Refines (pruneOwner s owner) spec := by
  unfold pruneOwner
  split
  · exact h
  · rename_i hunused
    simp only [Bool.or_eq_true, not_or, any_eq_true, not_exists, not_and] at hunused
    apply h.dropOwner
    · intro row hrow howner
      exact hunused.1.1.1.1 row hrow (by simpa using howner)
    · intro v hv howner
      exact hunused.1.1.1.2 v hv (by simpa using howner)

theorem refines_prunePublications (h : Refines s spec)
    (batches : List Nat) : Refines (batches.foldl prunePublication s) spec :=
  List.foldlRecOn (motive := fun s => Refines s spec) batches prunePublication h
    fun _ h batch _ => refines_prunePublication h batch

theorem refines_acknowledge (h : Refines s spec)
    (owners : List Nat) : Refines (acknowledge owners s) spec := by
  unfold acknowledge
  refine List.foldlRecOn (motive := fun s => Refines s spec) owners _ h fun s h owner _ => ?_
  exact refines_pruneOwner (h.unread s.heads s.ownerRetired _ s.others s.pins) owner

/-! ## removed owners -/

theorem refines_cleanRemoved (h : Refines s spec)
    {owner : Nat} (hseen : (batch, .published) ∈ s.publications) :
    Refines (cleanRemoved owner batch s) spec := by
  have hmarker : s.marker ≠ some batch := by
    intro hmarker
    cases h.sound.state hseen (h.sound.marker_staged hmarker)
  unfold cleanRemoved
  apply refines_prunePublication
  apply refines_pruneOwner
  split
  · have hdrop := h.dropVersions (fun v => ¬ (v.owner = owner ∧ v.batch = batch)) ?_
    · exact hdrop.unread _ _ s.ledgerPending s.others s.pins
    · intro v hv hopen
      rw [decide_eq_true_eq]
      rintro ⟨-, rfl⟩
      exact hmarker hopen
  · exact h.unread s.heads _ s.ledgerPending s.others s.pins

/-! ## abandoned batches -/

variable [DecidableEq ι]

theorem refines_deleteAbandoned (h : Refines s spec)
    (habandoned : (batch, .abandoned) ∈ s.publications) (key : FactKey ι) :
    Refines (deleteRow s key batch) spec := by
  apply h.eraseRows
  · intro row _ hkeep marker hseen hmarker
    have hbatch : row.batch = batch := by
      simp only [decide_eq_false_iff_not, not_not] at hkeep
      exact hkeep.2
    exact absurd (hbatch ▸ hseen) (h.sound.abandoned_unseen habandoned hmarker)
  · intro task htask kind identity hfact hseen old hold _ hkey hlt
    obtain ⟨new, hnew, hkey', hle, hbatch⟩ :=
      h.sound.superseded task htask kind identity hfact hseen old hold hkey hlt
    have hne : new.batch ≠ batch := by
      rintro rfl
      rcases hbatch with hsame | hseen'
      · exact h.sound.abandoned_unseen habandoned (.inr rfl) (hsame ▸ hseen)
      · exact h.sound.abandoned_unseen habandoned (.inl rfl) hseen'
    exact ⟨new, hnew, by simp [hne], hkey', hle, hbatch⟩

theorem refines_cleanAbandoned (h : Refines s spec)
    (rows : Nat) (plan : Plan) (habandoned : (batch, .abandoned) ∈ s.publications) :
    Refines (cleanAbandoned rows plan batch s) spec := by
  have hmarker : s.marker ≠ some batch := by
    intro hmarker
    cases h.sound.state habandoned (h.sound.marker_staged hmarker)
  unfold cleanAbandoned
  split
  · exact h.unread s.heads s.ownerRetired s.ledgerPending _ s.pins
  · split
    · have hkept : Refines s spec ∧ (batch, PublicationState.abandoned) ∈ s.publications :=
        ⟨h, habandoned⟩
      refine (List.foldlRecOn (motive := fun s => Refines s spec ∧
        (batch, PublicationState.abandoned) ∈ s.publications) _ _ hkept ?_).1
      intro s h row _
      exact ⟨refines_deleteAbandoned h.1 h.2 row.key, h.2⟩
    · rename_i hkinds
      split
      · apply h.dropSeen
        intro row hrow hopen
        have hne : row.batch ≠ batch := by
          rintro rfl
          exact hmarker hopen
        rw [decide_eq_true_eq]
        intro hmem
        have hmem' := (plan.perm _).subset (mem_of_mem_take hmem)
        exact hne (by simpa using (List.mem_filter.mp hmem').2)
      · split
        · have hkept : Refines s spec ∧ s.marker ≠ some batch := ⟨h, hmarker⟩
          refine (List.foldlRecOn (motive := fun s => Refines s spec ∧ s.marker ≠ some batch)
            _ _ hkept ?_).1
          intro s h version _
          refine ⟨refines_pruneOwner (h.1.dropVersions _ ?_) version.owner, ?_⟩
          rotate_left
          · rw [marker_pruneOwner]
            exact h.2
          intro v hv hopen
          rw [decide_eq_true_eq]
          rintro ⟨-, rfl⟩
          exact h.2 hopen
        · split
          · exact h.dropTasks _
          · split
            · refine List.foldlRecOn (motive := fun s => Refines s spec) _ _ h ?_
              intro s h row _
              exact refines_pruneOwner
                (h.unread s.heads _ s.ledgerPending s.others s.pins) row.1
            · apply h.dropPublication batch ?_ hmarker
              intro row hrow hbatch
              rw [List.find?_eq_none] at hkinds
              apply hkinds row.key.kind
              · cases row.key.kind <;> simp [KINDS]
              · rw [any_eq_true]
                exact ⟨row, hrow, by simp [hbatch]⟩

/-! ## retired facts -/

theorem refines_deleteOlder (h : Refines s spec)
    (htask : task ∈ s.retired) {kind : Kind} {identity : ι}
    (hfact : task.fact = some (kind, identity)) (hseen : Visible s none task.batch)
    (hlt : batch < task.batch) : Refines (deleteRow s ⟨kind, task.owner, identity⟩ batch) spec := by
  have hnewer : ∀ row ∈ s.rows, row.key = ⟨kind, task.owner, identity⟩ → row.batch = batch →
      ∃ new ∈ s.rows, new.batch ≠ batch ∧ new.key = ⟨kind, task.owner, identity⟩ ∧
        task.batch ≤ new.batch ∧ Visible s none new.batch := by
    intro row hrow hkey hbatch
    obtain ⟨new, hnew, hkey', hle, hsame⟩ := h.sound.superseded task htask kind identity hfact
      (hseen.mono s.marker) row hrow hkey (by omega)
    refine ⟨new, hnew, by omega, hkey', hle, ?_⟩
    rcases hsame with hsame | hvisible
    · exact hsame ▸ hseen
    · exact hvisible
  apply h.eraseRows
  · intro row hrow hkeep marker _ _
    simp only [decide_eq_false_iff_not, not_not] at hkeep
    obtain ⟨new, hnew, hne, hkey, hle, hvisible⟩ := hnewer row hrow hkeep.1 hkeep.2
    refine .inl ⟨new, hnew, by simp [hne], hkey.trans hkeep.1.symm, hvisible.mono marker, ?_⟩
    omega
  · intro other hother kind' identity' hfact' hseen' old hold hkeep hkey hlt'
    obtain ⟨new, hnew, hkey', hle, hsame⟩ :=
      h.sound.superseded other hother kind' identity' hfact' hseen' old hold hkey hlt'
    by_cases hgone : new.key = ⟨kind, task.owner, identity⟩ ∧ new.batch = batch
    · -- the version of the task stands above the one that goes
      obtain ⟨new', hnew', hne, hkey'', hle', hvisible⟩ := hnewer new hnew hgone.1 hgone.2
      refine ⟨new', hnew', by simp [hne], ?_, by omega, .inr hvisible⟩
      rw [hkey'', ← hgone.1, hkey']
    · exact ⟨new, hnew, decide_eq_true hgone, hkey', hle, hsame⟩

omit [DecidableEq ω] in
theorem mem_deleteOlder {key : FactKey ι} (old : List (Version (FactKey ι) ν))
    (s : State ω ι ν) (row : Version (FactKey ι) ν) :
    row ∈ (old.foldl (fun s row => prunePublication (deleteRow s key row.batch) row.batch) s).rows ↔
      row ∈ s.rows ∧ ∀ gone ∈ old, ¬ (row.key = key ∧ row.batch = gone.batch) := by
  induction old generalizing s with
  | nil => simp
  | cons gone old ih =>
    rw [foldl_cons, ih]
    simp [deleteRow]
    grind

theorem refines_cleanFact (h : Refines s spec)
    (rows : Nat) (plan : Plan) (htask : task ∈ s.retired) {kind : Kind}
    {identity : ι} (hfact : task.fact = some (kind, identity)) (hseen : Visible s none task.batch) :
    Refines (cleanFact rows plan task kind identity s) spec := by
  unfold cleanFact
  extract_lets key old s'
  have hold : ∀ row ∈ old, row.key = key ∧ row.batch < task.batch := by
    intro row hrow
    have hmem := (plan.perm _).subset (mem_of_mem_take hrow)
    simpa using (List.mem_filter.mp hmem).2
  have hkept : Refines s' spec ∧ task ∈ s'.retired ∧ Visible s' none task.batch := by
    refine List.foldlRecOn (motive := fun s => Refines s spec ∧ task ∈ s.retired ∧
      Visible s none task.batch) old _ ⟨h, htask, hseen⟩ ?_
    intro s h row hrow
    have hdelete := refines_deleteOlder h.1 h.2.1 hfact h.2.2 (hold row hrow).2
    refine ⟨refines_prunePublication hdelete row.batch, by simpa [deleteRow] using h.2.1, ?_⟩
    exact visible_prunePublication (s := deleteRow s key row.batch) h.2.1 h.2.2 row.batch
  split
  · rename_i hfew
    have hnone : ∀ row ∈ s'.rows, row.key = key → task.batch ≤ row.batch := by
      intro row hrow hkey
      obtain ⟨hrow', hgone⟩ := (mem_deleteOlder old s row).mp hrow
      by_contra hlt
      have hall : row ∈ plan.order (s.rows.filter fun row =>
          row.key = key ∧ row.batch < task.batch) := by
        apply (plan.perm _).symm.subset
        exact List.mem_filter.mpr ⟨hrow', by simpa using ⟨hkey, by omega⟩⟩
      have hmem : row ∈ old := by
        have hlength : (plan.order (s.rows.filter fun row =>
            row.key = key ∧ row.batch < task.batch)).length ≤ rows := by
          have hmin := length_take (i := rows) (l := plan.order (s.rows.filter fun row =>
            row.key = key ∧ row.batch < task.batch))
          change old.length = _ at hmin
          omega
        rw [← take_of_length_le hlength] at hall
        exact hall
      exact hgone row hmem ⟨hkey, rfl⟩
    apply refines_prunePublication
    have herase := hkept.1.eraseRows
      (fun row => ¬ (row.key = key ∧ row.batch = task.batch ∧ row.value = none)) ?_ ?_
    · exact herase.dropTasks _
    · intro row hrow hkeep marker _ _
      simp only [decide_eq_false_iff_not, not_not] at hkeep
      refine .inr ⟨hkeep.2.2, fun other hother _ hsame => ?_⟩
      have hle := hnone other hother (hsame.trans hkeep.1)
      omega
    · intro other hother kind' identity' hfact' hseen' row hrow _ hkey hlt
      obtain ⟨new, hnew, hkey', hle, hsame⟩ :=
        hkept.1.sound.superseded other hother kind' identity' hfact' hseen' row hrow hkey hlt
      refine ⟨new, hnew, decide_eq_true ?_, hkey', hle, hsame⟩
      rintro ⟨hnewkey, hbatch, -⟩
      have hbelow := hnone row hrow (hkey.trans (hkey'.symm.trans hnewkey))
      omega
  · exact hkept.1

/-! ## owners -/

omit [DecidableEq ω] [DecidableEq ι] in
theorem retireOwner_below (plan : Plan) (s : State ω ι ν) (rows : Nat) (tasks : List (Retired ι)) :
    ∀ v ∈ (tasks.foldl (retireOwner plan s) (rows, [], [])).2.1,
      ∃ task ∈ tasks, v.batch < task.batch := by
  refine List.foldlRecOn (motive := fun budget : Nat × List OwnerVersion × List (Retired ι) =>
    ∀ v ∈ budget.2.1, ∃ task ∈ tasks, v.batch < task.batch) tasks _ (by simp) ?_
  rintro ⟨remaining, versions, completed⟩ hbelow task htask v hv
  simp only [retireOwner] at hv
  split at hv
  · exact hbelow v hv
  · rcases mem_append.mp hv with hv | hv
    · exact hbelow v hv
    · have hmem := (plan.perm _).subset (mem_of_mem_take (mem_of_mem_take hv))
      have hlt := (List.mem_filter.mp hmem).2
      simp only [decide_eq_true_eq] at hlt
      exact ⟨task, htask, hlt.2⟩

theorem refines_cleanOwners (h : Refines s spec)
    (rows : Nat) (plan : Plan) : Refines (cleanOwners rows plan s) spec := by
  unfold cleanOwners
  extract_lets tasks
  have hbelow := retireOwner_below plan s rows tasks
  rcases hbudget : tasks.foldl (retireOwner plan s) (rows, [], []) with
    ⟨remaining, versions, completed⟩
  rw [hbudget] at hbelow
  simp only
  apply refines_prunePublications
  have hdrop := h.dropVersions
    (fun v => ¬ versions.any fun old => old.owner = v.owner && old.batch = v.batch) ?_
  · exact hdrop.dropTasks _
  · intro v hv hopen
    rw [decide_eq_true_eq, any_eq_true]
    rintro ⟨old, hold, hsame⟩
    obtain ⟨task, htask, hlt⟩ := hbelow old hold
    have hmem := (plan.perm _).subset (mem_of_mem_take htask)
    obtain ⟨-, hpublished⟩ := List.mem_filter.mp hmem
    simp only [decide_eq_true_eq, Bool.and_eq_true] at hpublished hsame
    obtain ⟨stage, hstage, hbatch⟩ := Option.map_eq_some_iff.mp hopen
    have hle := h.sound.newest stage hstage _ hpublished.2
    simp only at hle
    omega

/-- **No slice changes a reading**: maintenance keeps the abstract store. -/
theorem refines_maintain (h : Refines s spec) (rows : Nat)
    (plan : Plan) (work : Option (List Nat × List Nat)) :
    Refines (maintain rows plan work s) spec := by
  unfold maintain
  split
  · rename_i p hp
    obtain ⟨hmem, hstate⟩ := List.mem_filter.mp ((plan.perm _).subset (mem_of_head? hp))
    apply refines_cleanAbandoned h
    rw [decide_eq_true_eq] at hstate
    rw [← hstate]
    exact hmem
  · split
    · rename_i task htask
      obtain ⟨hmem, hseen⟩ := List.mem_filter.mp ((plan.perm _).subset (mem_of_head? htask))
      split
      · exact refines_cleanOwners h rows plan
      · exact refines_cleanFact h rows plan hmem ‹_› (published_visible (by simpa using hseen))
    · split
      · exact refines_prunePublications (h.unread s.heads s.ownerRetired s.ledgerPending _ s.pins) _
      · extract_lets seen
        split
        · apply refines_prunePublications
          apply h.dropSeen
          intro row hrow hopen
          rw [decide_eq_true_eq]
          intro hmem
          have hmem' := (plan.perm _).subset (mem_of_mem_take hmem)
          have hpublished := (List.mem_filter.mp hmem').2
          cases h.sound.state (by simpa using hpublished) (h.sound.marker_staged hopen)
        · split
          · rename_i owner batch howner
            obtain ⟨-, hseen⟩ :=
              List.mem_filter.mp ((plan.perm _).subset (mem_of_head? howner))
            exact refines_cleanRemoved h (by simpa using hseen)
          · exact h

end Codexon.PreparedStore
