import Codexon.PreparedCheckpoint.Cleaning

/-!
# Codexon.PreparedCheckpoint.Staging

The iterations of a checkpoint keep the maps: every write goes to the open batch
and to the namespace of the running call, whose totals follow the map that the
call leaves.
-/

namespace Codexon.PreparedCheckpoint

open List

variable {N M δ : Type} {hashes : Hashes δ} [DecidableEq N] [LinearOrder M]
  {s s' : State N M δ} {maps : Maps N M}

/-! ## what a staged read meets -/

theorem visible_iff (h : Sound hashes s) {marker : Option Nat}
    (hmarker : marker = none ∨ marker = s.marker) :
    Visible s marker = Version.Seen (Published s) marker := by
  funext batch
  rw [eq_iff_iff]
  constructor
  · rintro ⟨p, hp, rfl, hstate | hopen⟩
    · left
      rw [Published, ← hstate]
      exact hp
    · exact .inr hopen
  · rintro (hpublished | hopen)
    · exact ⟨_, hpublished, rfl, .inl rfl⟩
    · have hopen' : s.marker = some batch := by
        rcases hmarker with rfl | rfl
        · cases hopen
        · exact hopen
      exact ⟨_, h.marker_staged hopen', rfl, .inr hopen⟩

variable {stage : Stage N M}

section

variable [DecidableEq δ]

theorem Sound.latest (h : Sound hashes s) {marker : Option Nat}
    (hmarker : marker = none ∨ marker = s.marker) {key : N × M} {value : Option (Section δ)}
    (hreads : Version.ReadsAs (Version.Seen (Published s) marker) s.sections key value) :
    ((latest s marker key).bind (·.value)) = value := by
  have hvisible := visible_iff h hmarker
  cases hrow : PreparedCheckpoint.latest s marker key with
  | none =>
    rw [PreparedCheckpoint.latest, List.find?_eq_none] at hrow
    ext v
    rw [← hreads v]
    simp only [Option.bind_none, reduceCtorEq, false_iff]
    rintro ⟨row, hlatest, hkey, -⟩
    apply hrow row hlatest.1
    rw [decide_eq_true_eq, hvisible]
    exact ⟨hkey, hlatest⟩
  | some row =>
    have hfound := find?_some hrow
    rw [decide_eq_true_eq, hvisible] at hfound
    have hvalue := hfound.2.readsAs h.kept.single
    rw [hfound.1] at hvalue
    exact hvalue.unique hreads

theorem Sound.previous (h : Sound hashes s) (hstage : s.stage = some stage)
    {key : N × M} {value : Option (Section δ)}
    (hreads : Version.ReadsAs (Version.Seen (Published s) (some stage.batch)) s.sections key value)
    : (previous s stage.batch key).join = value := by
  rw [← h.latest (.inr (by simp [State.marker, hstage])) hreads]
  unfold PreparedCheckpoint.previous
  cases PreparedCheckpoint.latest s (some stage.batch) key <;> rfl

end

theorem Runs.reads_merged {running : Running N M} {call : Call N M}
    (h : Runs hashes s stage running call) (hphase : running.phase.after = none) (name : M) :
    Version.ReadsAs (Version.Seen (Published s) (some stage.batch)) s.sections (call.ns, name)
      ((call.merged.get? name).map (Section.of hashes)) := by
  have hreads := h.reads name
  simp only [hphase] at hreads
  simpa using hreads

/-! ## the running call -/

theorem Moved.advance {moved : List N} (h : Moved hashes moved s maps)
    (hstage : s.stage = some stage) {running running' : Running N M}
    (hrunning : stage.running = some running) {staged : StageMaps N M}
    (hmaps : maps.stage = some staged)
    {s' : State N M δ} (hsound : Sound hashes s')
    (hsame : s'.publications = s.publications ∧ s'.versions = s.versions ∧ s'.heads = s.heads ∧
      s'.stage = some { stage with running := some running' })
    (hnamespace : running'.namespace_ = running.namespace_)
    (hrows : ∀ row ∈ s'.sections, row ∈ s.sections ∨
      row.batch = stage.batch ∧ row.key.1 = running.namespace_)
    (hseen : ∀ row ∈ s'.seen, row ∈ s.seen ∨ row.key.1 = running.namespace_)
    (hunseen : ∀ key value, Version.ReadsAs (Version.Seen (Published s) none) s.sections key value →
      Version.ReadsAs (Version.Seen (Published s) none) s'.sections key value)
    (hothers : ∀ key value, key.1 ≠ running.namespace_ →
      Version.ReadsAs (Version.Seen (Published s) (some stage.batch)) s.sections key value →
      Version.ReadsAs (Version.Seen (Published s) (some stage.batch)) s'.sections key value)
    {call' : Call N M}
    (hruns : Runs hashes s' { stage with running := some running' } running' call') :
    Moved hashes moved s'
      { maps with stage := some { staged with call := some call' } } := by
  obtain ⟨hpublications, hversions, hheads, hstage'⟩ := hsame
  have hpublished : Published s' = Published s := by
    funext batch
    rw [Published, Published, hpublications]
  have hversion : ∀ ns batch, version s' ns batch = version s ns batch := by
    intro ns batch
    rw [version, version, hversions]
  have hmarker : s'.marker = s.marker := by simp [State.marker, hstage, hstage']
  obtain ⟨_, hmaps', hstaged⟩ := h.stage stage hstage
  cases hmaps.symm.trans hmaps'
  obtain ⟨hmem, -⟩ := hstaged.running running hrunning
  constructor
  · exact hsound
  · intro ns name
    rw [hpublished]
    exact hunseen _ _ (h.published ns name)
  · intro ns hns
    have hhead := h.heads ns hns
    cases hmap : maps.published ns with
    | none =>
      rw [hmap] at hhead
      rw [HeadOf, hheads]
      exact hhead
    | some map =>
      rw [hmap] at hhead
      obtain ⟨batch, hget, hpub, v, hv, htotals⟩ := hhead
      exact ⟨batch, by rw [hheads, hget], by rwa [hpublished], v, (hversion _ _).trans hv, htotals⟩
  · intro ns hns
    rw [hheads, hmarker]
    exact h.moved ns hns
  · intro stage'' hstage''
    cases hstage'.symm.trans hstage''
    refine ⟨_, rfl, ?_⟩
    exact {
      touched := by
        intro row hrow hbatch
        rcases hrows row hrow with hold | ⟨-, hns⟩
        · exact hstaged.touched row hold hbatch
        · rw [hns]
          exact hmem
      named := by
        intro row hrow hbatch
        rcases hseen row hrow with hold | hns
        · exact hstaged.named row hold hbatch
        · rw [hns]
          exact hmem
      nodup := hstaged.nodup
      done := by
        intro ns map hdone
        obtain ⟨hin, hother, ⟨v, hv, htotals⟩, hreads⟩ := hstaged.done ns map hdone
        have hne := hother running hrunning
        refine ⟨hin, ?_, ⟨v, (hversion _ _).trans hv, htotals⟩, fun name => ?_⟩
        · rintro _ ⟨⟩
          rw [hnamespace]
          exact hne
        · rw [hpublished]
          exact hothers (ns, name) _ (Ne.symm hne) (hreads name)
      undone := fun ns hnone => (hversion _ _).trans (hstaged.undone ns hnone)
      finished := by
        intro hfailed ns hns
        rcases hstaged.finished hfailed ns hns with hdone | ⟨_, hrunning', hsame⟩
        · exact .inl hdone
        · cases hrunning.symm.trans hrunning'
          exact .inr ⟨running', rfl, hnamespace.trans hsame⟩
      totals := hstaged.totals
      running := by
        rintro _ ⟨⟩
        rw [hnamespace]
        exact ⟨hmem, call', rfl, hruns⟩ }
  · intro hnone
    rw [hstage'] at hnone
    cases hnone

/-! ## rows of the open batch -/

/-- The stage may change, but for its batch. -/
theorem Sound.note (h : Sound hashes s) {stage' : Stage N M} (hstage : s.stage = some stage)
    (hbatch : stage'.batch = stage.batch) (hfailed : stage'.failed = false → stage.failed = false)
    {seen' : List (Seen N M)} (hseen : ∀ row ∈ seen', row.batch < s.nextBatch) :
    Sound hashes { s with seen := seen', stage := some stage' } := by
  have hmarker : ({ s with seen := seen', stage := some stage' } : State N M δ).marker =
      s.marker := by
    simp [State.marker, hstage, hbatch]
  exact { h with
    staged := by
      rw [hmarker]
      exact h.staged
    open_ := by
      rintro _ ⟨⟩
      rw [hbatch]
      exact h.open_ stage hstage
    kept := by
      rw [hmarker]
      exact h.kept
    seenBelow := hseen
    filled := by
      intro row hrow value hvalue hsane
      apply h.filled row hrow value hvalue
      refine hsane.imp_right fun hopen => ?_
      simp only [State.sane, Option.bind_some] at hopen
      split at hopen
      · cases hopen
      · rename_i hok
        simp only [State.sane, hstage, Option.bind_some, hfailed (by simpa using hok),
          Bool.false_eq_true, if_false]
        rw [← hbatch]
        exact hopen }

theorem Sound.write (h : Sound hashes s) {stage' : Stage N M} (hstage : s.stage = some stage)
    (hbatch : stage'.batch = stage.batch) (hfailed : stage'.failed = false → stage.failed = false)
    {key : N × M} {value : Option (Section δ)} {rows chunks' : List (Chunk N M)}
    {retired' : List ((N × M) × Nat)} {seen' : List (Seen N M)}
    (hchunks : chunks' = s.chunks ++ rows)
    (hrows : ∀ c ∈ rows, c.key = key ∧ c.batch = stage.batch)
    (hfree : value ≠ none → ∀ c ∈ s.chunks, ¬ (c.key = key ∧ c.batch = stage.batch))
    (hretired : ∀ task ∈ retired', task ∈ s.retired ∨ task = (key, stage.batch))
    (hretired' : ∀ task ∈ s.retired, task ∈ retired')
    (hseen : ∀ row ∈ seen', row.batch < s.nextBatch)
    (hvalue : ∀ v, value = some v → stage'.failed = false → ∃ chunks, v = Section.of hashes chunks ∧
      rows.map (fun c => (c.ordinal, c.payload)) = enumerate chunks) :
    Sound hashes { s with
      sections := Version.put s.sections ⟨key, stage.batch, value⟩
      chunks := chunks', retired := retired', seen := seen', stage := some stage' } := by
  have hopen : s.marker = some stage.batch := by simp [State.marker, hstage]
  have hnote := h.note hstage hbatch hfailed hseen
  have hmarker : ({ s with seen := seen', stage := some stage' } : State N M δ).marker =
      s.marker := by
    simp [State.marker, hstage, hbatch]
  have hkept := hnote.kept
  rw [hmarker] at hkept
  have hput := hkept.write hopen key value
  have hbelow := h.below _ (h.open_ stage hstage)
  exact { hnote with
    kept := by
      have htask := hput.addTask ⟨_, Version.mem_put.mpr (.inl rfl), rfl, rfl⟩ hretired
      rw [← hmarker] at htask
      exact htask
    rows := by
      apply (h.rows.filter _).append (nodup_singleton _)
      intro row hold hnew
      rw [mem_singleton] at hnew
      rw [hnew] at hold
      simpa using (List.mem_filter.mp hold).2
    rowsBelow := by
      intro row hrow
      rcases Version.mem_put.mp hrow with rfl | ⟨hold, -⟩
      · exact hbelow
      · exact h.rowsBelow row hold
    tasksBelow := by
      intro task htask
      rcases hretired task htask with hold | rfl
      · exact h.tasksBelow task hold
      · exact hbelow
    filled := by
      intro row hrow v hv hsane hexempt
      rcases Version.mem_put.mp hrow with rfl | ⟨hold, hother⟩
      · have hok : stage'.failed = false := by
          rcases hsane with hpublished | hsane
          · exact absurd (.inl hpublished) (h.kept.unpublished hopen)
          · simp only [State.sane, Option.bind_some] at hsane
            split at hsane
            · cases hsane
            · rename_i hok
              simpa using hok
        obtain ⟨chunks, hsection, hall⟩ := hvalue v hv hok
        refine ⟨chunks, hsection, ?_⟩
        have hnone : s.chunks.filter (fun c => c.key = key ∧ c.batch = stage.batch) = [] := by
          rw [filter_eq_nil_iff]
          intro c hc
          simpa using hfree (by simp only at hv; simp [hv]) c hc
        have hkeep : rows.filter (fun c => c.key = key ∧ c.batch = stage.batch) = rows := by
          rw [filter_eq_self]
          intro c hc
          simpa using hrows c hc
        simp only [chunksAt, hchunks, filter_append, hnone, hkeep, nil_append]
        exact hall
      · obtain ⟨chunks, hsection, hall⟩ := hnote.filled row hold v hv hsane
          fun batch htask => hexempt batch (hretired' _ htask)
        refine ⟨chunks, hsection, ?_⟩
        have hnone : rows.filter (fun c => c.key = row.key ∧ c.batch = row.batch) = [] := by
          rw [filter_eq_nil_iff]
          intro c hc
          obtain ⟨hkey, hbatch'⟩ := hrows c hc
          simp only [hkey, hbatch', decide_eq_true_eq]
          rintro ⟨hkey', hbatch''⟩
          exact hother ⟨hkey'.symm, hbatch''.symm⟩
        simp only [chunksAt, hchunks, filter_append, hnone, List.append_nil]
        exact hall }

end Codexon.PreparedCheckpoint
