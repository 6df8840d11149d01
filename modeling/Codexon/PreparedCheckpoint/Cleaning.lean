import Codexon.PreparedCheckpoint.Maps

/-!
# Codexon.PreparedCheckpoint.Cleaning

No slice of `maintain` changes the maps: what is deleted is what the tasks allow
(`Codexon.VersionTasks`), and a section that is read keeps its chunks.
-/

namespace Codexon.PreparedCheckpoint

open List

open PreparedStore (PublicationState Plan)

variable {N M δ : Type} {hashes : Hashes δ} {moved : List N}

theorem find?_filter_keep {α : Type} {p keep : α → Bool} {xs : List α}
    (h : ∀ x ∈ xs, p x = true → keep x = true) : (xs.filter keep).find? p = xs.find? p := by
  induction xs with
  | nil => rfl
  | cons x xs ih =>
    have hrest := ih fun y hy => h y (mem_cons_of_mem x hy)
    cases hp : p x with
    | true =>
      rw [filter_cons_of_pos (h x mem_cons_self hp), find?_cons_of_pos hp, find?_cons_of_pos hp]
    | false =>
      rw [find?_cons_of_neg (by simp [hp]), ← hrest, filter_cons]
      split
      · rw [find?_cons_of_neg (by simp [hp])]
      · rfl

/-! ## publications -/

section

variable [DecidableEq N] [DecidableEq M]

variable {s : State N M δ}

variable {batch : Nat}

theorem Sound.state (h : Sound hashes s)
    {state state' : PublicationState} (hstate : (batch, state) ∈ s.publications)
    (hstate' : (batch, state') ∈ s.publications) : state = state' :=
  (Prod.mk.inj (inj_on_of_nodup_map h.ids hstate hstate' rfl)).2

theorem Sound.marker_staged (h : Sound hashes s)
    (hmarker : s.marker = some batch) : (batch, .staged) ∈ s.publications := by
  obtain ⟨stage, hstage, rfl⟩ := Option.map_eq_some_iff.mp hmarker
  exact h.open_ stage hstage

theorem Sound.abandoned_unseen (h : Sound hashes s)
    (habandoned : (batch, .abandoned) ∈ s.publications) :
    ¬ Version.Seen (Published s) s.marker batch := by
  rintro (hpublished | hopen)
  · cases h.state hpublished habandoned
  · cases h.state (h.marker_staged hopen) habandoned

section

omit [DecidableEq N] [DecidableEq M]

theorem marker_of_sane (h : s.sane = some batch) : s.marker = some batch := by
  unfold State.sane at h
  obtain ⟨stage, hstage, hbatch⟩ := Option.bind_eq_some_iff.mp h
  split at hbatch
  · cases hbatch
  · rw [State.marker, hstage]
    exact hbatch

theorem Seen.of_sane
    (h : Version.Seen (Published s) s.sane batch) : Version.Seen (Published s) s.marker batch :=
  h.imp_right marker_of_sane

end

omit [DecidableEq M] in
theorem version_batch {ns : N} {v : CheckpointVersion N}
    (h : version s ns batch = some v) : v.namespace_ = ns ∧ v.batch = batch := by
  simpa using find?_some h

end

/-! ## moves -/

variable [DecidableEq N] [LinearOrder M] {s : State N M δ} {maps : Maps N M}

section

variable (h : Moved hashes moved s maps)

include h

theorem Moved.unread (others pins : List Nat) :
    Moved hashes moved { s with others := others, pins := pins } maps where
  sound := { h.sound with }
  published := h.published
  heads := h.heads
  moved := h.moved
  stage stage hstage := by
    obtain ⟨staged, hmaps, hstaged⟩ := h.stage stage hstage
    refine ⟨staged, hmaps, { hstaged with running := ?_ }⟩
    intro running hrunning
    obtain ⟨hmem, call, hcall, hruns⟩ := hstaged.running running hrunning
    exact ⟨hmem, call, hcall, { hruns with }⟩
  idle := h.idle

theorem Moved.dropChunks (keep : Chunk N M → Bool)
    (hkeep : ∀ row ∈ s.sections, Version.Seen (Published s) s.sane row.batch →
      (∀ batch, (row.key, batch) ∈ s.retired → Published s batch → batch ≤ row.batch) →
      ∀ c ∈ s.chunks, c.key = row.key → c.batch = row.batch → keep c = true) :
    Moved hashes moved { s with chunks := s.chunks.filter keep } maps where
  sound := { h.sound with
    filled := by
      intro row hrow value hvalue hseen htasks
      obtain ⟨chunks, hsection, hchunks⟩ := h.sound.filled row hrow value hvalue hseen htasks
      refine ⟨chunks, hsection, ?_⟩
      rw [← hchunks]
      simp only [chunksAt, filter_filter]
      congr 1
      apply filter_congr
      intro c hc
      by_cases hsame : c.key = row.key ∧ c.batch = row.batch
      · simp [hsame, hkeep row hrow hseen htasks c hc hsame.1 hsame.2]
      · simp [hsame] }
  published := h.published
  heads := h.heads
  moved := h.moved
  stage stage hstage := by
    obtain ⟨staged, hmaps, hstaged⟩ := h.stage stage hstage
    refine ⟨staged, hmaps, { hstaged with running := ?_ }⟩
    intro running hrunning
    obtain ⟨hmem, call, hcall, hruns⟩ := hstaged.running running hrunning
    exact ⟨hmem, call, hcall, { hruns with }⟩
  idle := h.idle

theorem Moved.dropSections (keep : Version (N × M) (Section δ) → Bool)
    (hkeep : Version.Kept (Published s) s.marker (s.sections.filter keep) s.retired ∧
      Version.SameReads (Published s) s.marker s.sections (s.sections.filter keep)) :
    Moved hashes moved { s with sections := s.sections.filter keep } maps where
  sound := { h.sound with
    kept := hkeep.1
    rows := h.sound.rows.filter keep
    rowsBelow := fun row hrow => h.sound.rowsBelow row (mem_of_mem_filter hrow)
    filled := fun row hrow => h.sound.filled row (mem_of_mem_filter hrow) }
  published := fun ns name => hkeep.2 none (.inl rfl) (ns, name) _ (h.published ns name)
  heads := h.heads
  moved := h.moved
  stage stage hstage := by
    obtain ⟨staged, hmaps, hstaged⟩ := h.stage stage hstage
    change s.stage = some stage at hstage
    have hmarker : some stage.batch = s.marker := by simp [State.marker, hstage]
    refine ⟨staged, hmaps, { hstaged with touched := ?_, done := ?_, running := ?_ }⟩
    · exact fun row hrow => hstaged.touched row (mem_of_mem_filter hrow)
    · intro ns map hdone
      obtain ⟨hmem, hother, htotals, hreads⟩ := hstaged.done ns map hdone
      exact ⟨hmem, hother, htotals, fun name => hkeep.2 _ (.inr hmarker) _ _ (hreads name)⟩
    · intro running hrunning
      obtain ⟨hmem, call, hcall, hruns⟩ := hstaged.running running hrunning
      exact ⟨hmem, call, hcall, { hruns with
        reads := fun name => hkeep.2 _ (.inr hmarker) _ _ (hruns.reads name) }⟩
  idle := h.idle

/-- Tasks may go, but for those that excuse a section from having its chunks. -/
theorem Moved.dropTasks (keep : (N × M) × Nat → Bool)
    (hkeep : ∀ row ∈ s.sections, ∀ batch, (row.key, batch) ∈ s.retired → Published s batch →
      keep (row.key, batch) = true ∨ batch ≤ row.batch) :
    Moved hashes moved { s with retired := s.retired.filter keep } maps where
  sound := { h.sound with
    kept := h.sound.kept.dropTasks fun task htask => mem_of_mem_filter htask
    tasksBelow := fun task htask => h.sound.tasksBelow task (mem_of_mem_filter htask)
    filled := by
      intro row hrow value hvalue hseen htasks
      apply h.sound.filled row hrow value hvalue hseen
      intro batch htask hpublished
      rcases hkeep row hrow batch htask hpublished with hkept | hle
      · exact htasks batch (List.mem_filter.mpr ⟨htask, hkept⟩) hpublished
      · exact hle }
  published := h.published
  heads := h.heads
  moved := h.moved
  stage stage hstage := by
    obtain ⟨staged, hmaps, hstaged⟩ := h.stage stage hstage
    refine ⟨staged, hmaps, { hstaged with running := ?_ }⟩
    intro running hrunning
    obtain ⟨hmem, call, hcall, hruns⟩ := hstaged.running running hrunning
    exact ⟨hmem, call, hcall, { hruns with }⟩
  idle := h.idle

/-- Versions may go, but for those of a published or of the open batch. -/
theorem Moved.dropVersions (keep : CheckpointVersion N → Bool)
    (hkeep : ∀ ns ∉ moved, ∀ batch, s.heads.get? ns = some batch → Published s batch →
      ∀ v ∈ s.versions, v.namespace_ = ns → v.batch = batch → keep v = true)
    (hopen : ∀ v ∈ s.versions, s.marker = some v.batch → keep v = true) :
    Moved hashes moved { s with versions := s.versions.filter keep } maps where
  sound := { h.sound with
    versionsBelow := fun v hv => h.sound.versionsBelow v (mem_of_mem_filter hv) }
  published := h.published
  heads := by
    intro ns hns
    have hhead := h.heads ns hns
    cases hmap : maps.published ns with
    | none =>
      rw [hmap] at hhead
      exact hhead
    | some map =>
      rw [hmap] at hhead
      obtain ⟨batch, hget, hpublished, v, hversion, htotals⟩ := hhead
      refine ⟨batch, hget, hpublished, v, ?_, htotals⟩
      rw [← hversion]
      apply find?_filter_keep
      intro v hv hsame
      simp only [decide_eq_true_eq] at hsame
      exact hkeep ns hns batch hget hpublished v hv hsame.1 hsame.2
  moved := h.moved
  stage stage hstage := by
    obtain ⟨staged, hmaps, hstaged⟩ := h.stage stage hstage
    change s.stage = some stage at hstage
    have hversion : ∀ ns, version { s with versions := s.versions.filter keep } ns stage.batch =
        version s ns stage.batch := by
      intro ns
      apply find?_filter_keep
      intro v hv hsame
      simp only [decide_eq_true_eq] at hsame
      apply hopen v hv
      simp [State.marker, hstage, hsame.2]
    refine ⟨staged, hmaps, { hstaged with done := ?_, undone := ?_, running := ?_ }⟩
    · intro ns map hdone
      obtain ⟨hmem, hother, ⟨v, hv, htotals⟩, hreads⟩ := hstaged.done ns map hdone
      exact ⟨hmem, hother, ⟨v, (hversion ns).trans hv, htotals⟩, hreads⟩
    · intro ns hnone
      exact (hversion ns).trans (hstaged.undone ns hnone)
    · intro running hrunning
      obtain ⟨hmem, call, hcall, hruns⟩ := hstaged.running running hrunning
      exact ⟨hmem, call, hcall, { hruns with }⟩
  idle := h.idle

/-- Rows of `checkpoint_seen` may go, but for those of the open batch. -/
theorem Moved.dropSeen (keep : Seen N M → Bool)
    (hopen : ∀ row ∈ s.seen, s.marker = some row.batch → keep row = true) :
    Moved hashes moved { s with seen := s.seen.filter keep } maps where
  sound := { h.sound with
    seenBelow := fun row hrow => h.sound.seenBelow row (mem_of_mem_filter hrow) }
  published := h.published
  heads := h.heads
  moved := h.moved
  stage stage hstage := by
    obtain ⟨staged, hmaps, hstaged⟩ := h.stage stage hstage
    change s.stage = some stage at hstage
    have hmem : ∀ key, (⟨stage.batch, key⟩ : Seen N M) ∈ s.seen.filter keep ↔
        (⟨stage.batch, key⟩ : Seen N M) ∈ s.seen := by
      intro key
      rw [List.mem_filter]
      constructor
      · exact fun hrow => hrow.1
      · intro hrow
        exact ⟨hrow, hopen _ hrow (by simp [State.marker, hstage])⟩
    refine ⟨staged, hmaps, { hstaged with named := ?_, running := ?_ }⟩
    · exact fun row hrow => hstaged.named row (mem_of_mem_filter hrow)
    · intro running hrunning
      obtain ⟨hmem', call, hcall, hruns⟩ := hstaged.running running hrunning
      refine ⟨hmem', call, hcall, { hruns with reads := ?_, listed := ?_, unlisted := ?_ }⟩
      · simp only [hmem]
        exact hruns.reads
      · simp only [hmem]
        exact hruns.listed
      · simp only [hmem]
        exact hruns.unlisted
  idle := h.idle

theorem Moved.dropPublication (batch : Nat)
    (hrows : ∀ row ∈ s.sections, row.batch ≠ batch) (htasks : ∀ task ∈ s.retired, task.2 ≠ batch)
    (hheads : ∀ ns ∉ moved, s.heads.get? ns ≠ some batch) (hmarker : s.marker ≠ some batch) :
    Moved hashes moved { s with publications := s.publications.filter (·.1 ≠ batch) } maps := by
  have hpublished : ∀ other, other ≠ batch →
      (Published { s with publications := s.publications.filter (·.1 ≠ batch) } other ↔
        Published s other) := by
    intro other hother
    simp [Published, hother]
  have hsub : ∀ other,
      Published { s with publications := s.publications.filter (·.1 ≠ batch) } other →
        Published s other :=
    fun other hother => mem_of_mem_filter hother
  have hreads : ∀ marker ns map, ReadsMap hashes s marker ns map →
      ReadsMap hashes { s with publications := s.publications.filter (·.1 ≠ batch) } marker ns
        map := by
    intro marker ns map hmap name
    apply (hmap name).congr fun _ _ => Iff.rfl
    intro row hrow _
    exact or_congr (hpublished row.batch (hrows row hrow)) Iff.rfl
  constructor
  · exact { h.sound with
      ids := h.sound.ids.sublist (filter_sublist.map Prod.fst)
      below := fun p hp => h.sound.below p (mem_of_mem_filter hp)
      staged := fun p hp => h.sound.staged p (mem_of_mem_filter hp)
      open_ := by
        intro stage hstage
        change s.stage = some stage at hstage
        have hne : stage.batch ≠ batch := by
          rintro rfl
          simp [State.marker, hstage] at hmarker
        simp [h.sound.open_ stage hstage, hne]
      kept := h.sound.kept.forget hsub fun row hrow => (hpublished _ (hrows row hrow)).mpr
      filled := by
        intro row hrow value hvalue hseen hexempt
        apply h.sound.filled row hrow value hvalue (hseen.imp_left (hsub _))
        intro other htask hother
        exact hexempt other htask ((hpublished other (htasks _ htask)).mpr hother) }
  · exact fun ns => hreads none ns _ (h.published ns)
  · intro ns hns
    have hhead := h.heads ns hns
    cases hmap : maps.published ns with
    | none =>
      rw [hmap] at hhead
      exact hhead
    | some map =>
      rw [hmap] at hhead
      obtain ⟨other, hget, hother, htotals⟩ := hhead
      refine ⟨other, hget, (hpublished other ?_).mpr hother, htotals⟩
      rintro rfl
      exact hheads ns hns hget
  · exact h.moved
  · intro stage hstage
    obtain ⟨staged, hmaps, hstaged⟩ := h.stage stage hstage
    refine ⟨staged, hmaps, { hstaged with done := ?_, running := ?_ }⟩
    · intro ns map hdone
      obtain ⟨hmem, hother, htotals, hmap⟩ := hstaged.done ns map hdone
      exact ⟨hmem, hother, htotals, hreads _ ns _ hmap⟩
    · intro running hrunning
      obtain ⟨hmem, call, hcall, hruns⟩ := hstaged.running running hrunning
      exact ⟨hmem, call, hcall, { hruns with reads := hreads _ _ _ hruns.reads }⟩
  · exact h.idle

theorem moved_prunePublication (batch : Nat) :
    Moved hashes moved (prunePublication s batch) maps := by
  unfold prunePublication
  split
  · rename_i hprune
    have hreferred := hprune.2.2
    simp only [referred, Bool.or_eq_false_iff, any_eq_false] at hreferred
    apply h.dropPublication
    · intro row hrow hbatch
      exact hreferred.1.1.1.1.1.1 row hrow (by simpa using hbatch)
    · intro task htask hbatch
      exact hreferred.1.1.2 task htask (by simpa using hbatch)
    · intro ns _ hget
      exact hreferred.1.2 _ (Dict.get?_eq_some.mp hget) (by simp)
    · intro hmarker
      cases h.sound.state hprune.1 (h.sound.marker_staged hmarker)
  · exact h

theorem moved_prunePublications (batches : List Nat) :
    Moved hashes moved (batches.foldl prunePublication s) maps :=
  List.foldlRecOn (motive := fun s => Moved hashes moved s maps) batches prunePublication h
    fun _ h batch _ => moved_prunePublication h batch

end

/-! ## slices -/

theorem mem_slice {α : Type} {plan : Plan} {rows : Nat} {p : α → Bool} {xs : List α} {x : α}
    (h : x ∈ (plan.order (xs.filter p)).take rows) : x ∈ xs ∧ p x = true :=
  List.mem_filter.mp ((plan.perm _).subset (mem_of_mem_take h))

variable [DecidableEq δ]

theorem moved_cleanAbandoned (h : Moved hashes moved s maps) (rows : Nat) (plan : Plan)
    {batch : Nat} (habandoned : (batch, .abandoned) ∈ s.publications) :
    Moved hashes moved (cleanAbandoned rows plan batch s) maps := by
  have hunseen := h.sound.abandoned_unseen habandoned
  have hunpublished : ¬ Published s batch := fun hpublished => hunseen (.inl hpublished)
  have hmarker : s.marker ≠ some batch := fun hopen => hunseen (.inr hopen)
  unfold cleanAbandoned
  split
  · apply h.dropChunks
    intro row _ hseen _ c _ _ hbatch
    rw [decide_eq_true_eq]
    intro hgone
    have hsame : c.batch = batch := by simpa using (mem_slice hgone).2
    exact hunseen (hsame ▸ hbatch ▸ Seen.of_sane hseen)
  · rename_i hchunks
    split
    · apply h.dropSections
      apply h.sound.kept.erase_unseen
      intro row _ hkeep
      rw [decide_eq_false_iff_not, not_not] at hkeep
      have hsame : row.batch = batch := by simpa using (mem_slice hkeep).2
      rw [hsame]
      exact hunseen
    · rename_i hsections
      split
      · apply h.dropVersions
        · intro ns _ other _ hpublished v _ _ hbatch
          rw [decide_eq_true_eq]
          intro hgone
          have hsame : v.batch = batch := by simpa using (mem_slice hgone).2
          exact hunpublished (hsame ▸ hbatch ▸ hpublished)
        · intro v _ hopen
          rw [decide_eq_true_eq]
          intro hgone
          have hsame : v.batch = batch := by simpa using (mem_slice hgone).2
          exact hmarker (hsame ▸ hopen)
      · split
        · apply h.dropSeen
          intro row _ hopen
          rw [decide_eq_true_eq]
          intro hgone
          have hsame : row.batch = batch := by simpa using (mem_slice hgone).2
          exact hmarker (hsame ▸ hopen)
        · split
          · apply h.dropTasks
            intro row _ other _ hpublished
            left
            rw [decide_eq_true_eq]
            intro hgone
            have hsame : other = batch := by simpa using (mem_slice hgone).2
            exact hunpublished (hsame ▸ hpublished)
          · rename_i htasks
            split
            · exact h.unread _ s.pins
            · apply h.dropPublication batch ?_ ?_ ?_ hmarker
              · intro row hrow hbatch
                exact hsections (any_eq_true.mpr ⟨row, hrow, by simp [hbatch]⟩)
              · intro task htask hbatch
                exact htasks (any_eq_true.mpr ⟨task, htask, by simp [hbatch]⟩)
              · intro ns hns hget
                have hhead := h.heads ns hns
                cases hmap : maps.published ns with
                | none =>
                  rw [hmap] at hhead
                  cases hhead.symm.trans hget
                | some map =>
                  rw [hmap] at hhead
                  obtain ⟨other, hget', hpublished, -⟩ := hhead
                  cases hget.symm.trans hget'
                  exact hunpublished hpublished

theorem moved_cleanTask (h : Moved hashes moved s maps) {rows : Nat} (hrows : 0 < rows)
    (plan : Plan) {task : (N × M) × Nat} (htask : task ∈ s.retired)
    (hpublished : Published s task.2) : Moved hashes moved (cleanTask rows plan task s) maps := by
  unfold cleanTask
  extract_lets oldChunks oldSections
  split
  · apply moved_prunePublications
    apply h.dropChunks
    intro row _ _ hexempt c _ hkey hbatch
    rw [decide_eq_true_eq]
    intro hgone
    obtain ⟨hsame, hlt⟩ : c.key = task.1 ∧ c.batch < task.2 := by simpa using (mem_slice hgone).2
    have hle := hexempt task.2 (by rw [← hkey, hsame]; exact htask) hpublished
    omega
  · split
    · apply moved_prunePublications
      apply h.dropSections
      apply h.sound.kept.erase_older htask hpublished
      intro row _ hkeep
      rw [decide_eq_false_iff_not, not_not] at hkeep
      simpa using (mem_slice hkeep).2
    · rename_i hnone
      have hlast : ∀ row ∈ s.sections, row.key = task.1 → task.2 ≤ row.batch := by
        intro row hrow hkey
        by_contra hlt
        rw [not_not] at hnone
        have hempty := (take_eq_nil_iff.mp hnone).resolve_left (by omega)
        have hmem : row ∈ plan.order (s.sections.filter fun row =>
            row.key = task.1 ∧ row.batch < task.2) := by
          apply (plan.perm _).symm.subset
          exact List.mem_filter.mpr ⟨hrow, by simpa using ⟨hkey, by omega⟩⟩
        rw [hempty] at hmem
        cases hmem
      apply moved_prunePublication
      have hdrop := h.dropSections
        (fun row => ¬ (row.key = task.1 ∧ row.batch = task.2 ∧ row.value = none))
        (h.sound.kept.erase_tombstone hlast _ ?_)
      · apply hdrop.dropTasks
        intro row hrow batch _ _
        by_cases hsame : (row.key, batch) = task
        · right
          have hle := hlast row (mem_of_mem_filter hrow) (congrArg Prod.fst hsame)
          rw [← hsame] at hle
          exact hle
        · left
          simpa using hsame
      · intro row _ hkeep
        simpa using hkeep

/-- **No slice changes the maps.** -/
theorem moved_maintain (h : Moved hashes moved s maps) {limits : Limits}
    (hlimits : 0 < limits.writeRows) (rows : Nat) (plan : Plan) :
    Moved hashes moved (maintain limits rows plan s) maps := by
  unfold maintain
  extract_lets rows' gone
  split
  · rename_i p hp
    obtain ⟨hmem, hstate⟩ := List.mem_filter.mp ((plan.perm _).subset (mem_of_head? hp))
    apply moved_cleanAbandoned h
    rw [decide_eq_true_eq] at hstate
    rw [← hstate]
    exact hmem
  · split
    · rename_i task htask
      obtain ⟨hmem, hseen⟩ := List.mem_filter.mp ((plan.perm _).subset (mem_of_head? htask))
      rw [decide_eq_true_eq] at hseen
      exact moved_cleanTask h (by omega) plan hmem hseen
    · apply moved_prunePublications
      apply h.dropSeen
      intro row _ hopen
      rw [decide_eq_true_eq]
      intro hgone
      have hpublished : (row.batch, PublicationState.published) ∈ s.publications := by
        simpa using (mem_slice hgone).2
      cases h.sound.state hpublished (h.sound.marker_staged hopen)

end Codexon.PreparedCheckpoint
