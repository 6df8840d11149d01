import Codexon.PreparedCheckpoint.Staging

/-!
# Codexon.PreparedCheckpoint.Iterations

The three loops of `Stage.checkpoint`, iteration by iteration.
-/

namespace Codexon.PreparedCheckpoint

open List Dict

open PreparedStore (insertIgnore)

variable {N M δ : Type} {hashes : Hashes δ} [DecidableEq N] [LinearOrder M]
  {s s' : State N M δ} {maps : Maps N M}

theorem mem_retire {key : N × M} {batch : Nat} {task : (N × M) × Nat} :
    task ∈ retire s key batch ↔ task ∈ s.retired ∨ task = (key, batch) := by
  unfold retire insertIgnore
  split
  · rename_i hmem
    constructor
    · exact .inl
    · rintro (htask | rfl)
      · exact htask
      · exact hmem
  · simp

theorem oldTotals_map (old : Option Content) : oldTotals (old.map (Section.of hashes)) =
      ((old.map fun chunks => (size chunks : Int)).getD 0, (old.map fun _ => (1 : Int)).getD 0) := by
  cases old <;> rfl

omit [DecidableEq N] [LinearOrder M] in
theorem enumerate_rows (key : N × M) (batch : Nat) (chunks : Content) :
    (chunks.zipIdx.map fun chunk => (⟨key, batch, chunk.2, chunk.1⟩ : Chunk N M)).map
      (fun c => (c.ordinal, c.payload)) = enumerate chunks := by
  rw [List.map_map]
  rfl

variable {stage : Stage N M}

theorem put_others (h : Sound hashes s) (hstage : s.stage = some stage)
    (key : N × M) (value : Option (Section δ)) :
    (∀ key' value', Version.ReadsAs (Version.Seen (Published s) none) s.sections key' value' →
      Version.ReadsAs (Version.Seen (Published s) none)
        (Version.put s.sections ⟨key, stage.batch, value⟩) key' value') ∧
    ∀ key' value', key'.1 ≠ key.1 →
      Version.ReadsAs (Version.Seen (Published s) (some stage.batch)) s.sections key' value' →
      Version.ReadsAs (Version.Seen (Published s) (some stage.batch))
        (Version.put s.sections ⟨key, stage.batch, value⟩) key' value' := by
  have hopen : s.marker = some stage.batch := by simp [State.marker, hstage]
  constructor
  · intro key' value' hreads
    exact hreads.put_unseen (h.kept.unpublished hopen)
  · intro key' value' hne hreads
    apply hreads.put_other
    rintro rfl
    exact hne rfl

theorem put_reads (h : Sound hashes s) (hstage : s.stage = some stage) {ns : N}
    {map : M → Option Content} (hread : ∀ name, Version.ReadsAs
      (Version.Seen (Published s) (some stage.batch)) s.sections (ns, name)
      ((map name).map (Section.of hashes))) (name : M) (value : Option Content) (name' : M) :
    Version.ReadsAs (Version.Seen (Published s) (some stage.batch))
      (Version.put s.sections ⟨(ns, name), stage.batch, value.map (Section.of hashes)⟩) (ns, name')
      ((if name' = name then value else map name').map (Section.of hashes)) := by
  have hopen : s.marker = some stage.batch := by simp [State.marker, hstage]
  split
  · rename_i heq
    have hself := h.kept.write_self hopen (ns, name) (value.map (Section.of hashes))
    rw [hopen] at hself
    rwa [heq]
  · rename_i hne
    apply (hread name').put_other
    rintro ⟨⟩
    exact hne rfl

abbrev Running.call (running : Running N M) (merged named : Dict M Content) : Call N M :=
  ⟨running.namespace_, running.complete, merged, named⟩

variable {running : Running N M}

theorem Moved.call {moved : List N} (h : Moved hashes moved s maps) (hstage : s.stage = some stage)
    (hrunning : stage.running = some running) : ∃ staged merged named, maps.stage = some staged ∧
      staged.call = some (running.call merged named) ∧
      Runs hashes s stage running (running.call merged named) := by
  obtain ⟨staged, hmaps, hstaged⟩ := h.stage stage hstage
  obtain ⟨-, ⟨ns, complete, merged, named⟩, hcall, hruns⟩ := hstaged.running running hrunning
  obtain rfl : ns = running.namespace_ := hruns.ns
  obtain rfl : complete = running.complete := hruns.complete
  exact ⟨staged, merged, named, hmaps, hcall, hruns⟩

theorem Sound.seen_append (h : Sound hashes s) (hstage : s.stage = some stage) (ns : N) (name : M) :
    (∀ row ∈ s.seen ++ [⟨stage.batch, (ns, name)⟩], row.batch < s.nextBatch) ∧
      ∀ row ∈ s.seen ++ [⟨stage.batch, (ns, name)⟩], row ∈ s.seen ∨ row.key.1 = ns := by
  constructor
  · intro row hrow
    rcases mem_append.mp hrow with hrow | hrow
    · exact h.seenBelow row hrow
    · rw [mem_singleton.mp hrow]
      exact h.below _ (h.open_ stage hstage)
  · intro row hrow
    apply (mem_append.mp hrow).imp_right
    intro hrow
    rw [mem_singleton.mp hrow]

theorem Runs.visited {merged named merged' named' : Dict M Content}
    (hruns : Runs hashes s stage running (running.call merged named))
    (hafter : running.phase.after = none) {name : M}
    (hnamed : ∀ name', name' ≠ name → named'.get? name' = named.get? name')
    (hothers : ∀ name', name' ≠ name → merged'.get? name' = merged.get? name')
    (hself : merged'.get? name = named'.get? name)
    {t : State N M δ} (hpublications : t.publications = s.publications)
    (hseen : t.seen = s.seen ++ [⟨stage.batch, (running.namespace_, name)⟩])
    (hreads : ∀ name', Version.ReadsAs (Version.Seen (Published s) (some stage.batch)) t.sections
      (running.namespace_, name') ((merged'.get? name').map (Section.of hashes)))
    {running' : Running N M} (hns : running'.namespace_ = running.namespace_)
    (hcomplete : running'.complete = running.complete) (hphase : running'.phase = running.phase)
    (htotal : running'.total = PreparedCheckpoint.total (running.call merged' named').result)
    (hcount : running'.count = PreparedCheckpoint.count (running.call merged' named').result) :
    Runs hashes t { stage with running := some running' } running'
      (running.call merged' named') := by
  have hpublished : Published t = Published s := by
    funext batch
    rw [Published, Published, hpublications]
  refine ⟨hns.symm, hcomplete.symm, fun name' => ?_, fun _ => hphase ▸ hafter, fun name' hmem => ?_,
    fun name' hmem => ?_, htotal, hcount, hruns.budget⟩
  · rw [hphase, hafter, hpublished]
    simpa using hreads name'
  · rw [hseen, mem_append, mem_singleton] at hmem
    by_cases hname : name' = name
    · rw [hname, hself]
    · rw [hothers name' hname, hnamed name' hname]
      apply hruns.listed name' (hmem.resolve_right ?_)
      rintro ⟨⟩
      exact hname rfl
  · rw [hseen, mem_append, mem_singleton, not_or] at hmem
    rw [hnamed name']
    · exact hruns.unlisted name' hmem.1
    · rintro rfl
      exact hmem.2 rfl

theorem Runs.named {merged named : Dict M Content}
    (hruns : Runs hashes s stage running (running.call merged named)) {name : M}
    (hunseen : (⟨stage.batch, (running.namespace_, name)⟩ : Seen N M) ∉ s.seen)
    (chunks : Content) :
    PreparedCheckpoint.total
        (running.call (merged.set name chunks) (named.set name chunks)).result =
      (if running.complete then running.total + size chunks else
        running.total - ((merged.get? name).map fun chunks => (size chunks : Int)).getD 0 +
          size chunks) ∧
    PreparedCheckpoint.count
        (running.call (merged.set name chunks) (named.set name chunks)).result =
      (if running.complete then running.count + 1 else
        running.count - ((merged.get? name).map fun _ => (1 : Int)).getD 0 + 1) := by
  have hunnamed := hruns.unlisted name hunseen
  rw [hruns.total, hruns.count]
  cases hcase : running.complete with
  | true =>
    simp only [Call.result, hcase, if_true, PreparedCheckpoint.total, PreparedCheckpoint.count,
      sumVal_set]
    rw [hunnamed]
    simp
  | false =>
    simp only [Call.result, hcase, Bool.false_eq_true, if_false, PreparedCheckpoint.total,
      PreparedCheckpoint.count, sumVal_set, and_self]

theorem Runs.removed {merged named : Dict M Content}
    (hruns : Runs hashes s stage running (running.call merged named)) (name : M) :
    PreparedCheckpoint.total (running.call (merged.erase name) named).result =
      (if running.complete then running.total else
        running.total - ((merged.get? name).map fun chunks => (size chunks : Int)).getD 0) ∧
    PreparedCheckpoint.count (running.call (merged.erase name) named).result =
      (if running.complete then running.count else
        running.count - ((merged.get? name).map fun _ => (1 : Int)).getD 0) := by
  rw [hruns.total, hruns.count]
  cases hcase : running.complete with
  | true => simp only [Call.result, hcase, if_true, and_self]
  | false =>
    simp only [Call.result, hcase, Bool.false_eq_true, if_false, PreparedCheckpoint.total,
      PreparedCheckpoint.count, sumVal_erase, and_self]

section

variable [DecidableEq δ]

/-- **The iteration over a section.** -/
theorem refines_section (hlayout : Function.Injective hashes.layout) (h : Refines hashes s maps)
    {limits : Limits} {header name : M} {digest : δ} {chunks : Content}
    (hstep : checkpointStep hashes limits header name digest chunks s = some s') :
    Refines hashes s' (maps.step (.section_ name digest chunks : Event N M δ)) := by
  cases hstage : s.stage with
  | none => simp [checkpointStep, hstage] at hstep
  | some stage =>
    cases hrunning : stage.running with
    | none => simp [checkpointStep, hstage, hrunning] at hstep
    | some running =>
      obtain ⟨staged, merged, named, hmaps, hcall, hruns⟩ := h.call hstage hrunning
      have hmaps' : maps.step (.section_ name digest chunks : Event N M δ) =
          { maps with stage := some { staged with
            call := some (running.call (merged.set name chunks) (named.set name chunks)) } } := by
        simp [Maps.step, hmaps, hcall, Call.step]
      rw [hmaps']
      simp only [checkpointStep, hstage, hrunning] at hstep
      split at hstep
      · cases hstep
      · rename_i hchecks
        simp only [not_or, not_not] at hchecks
        obtain ⟨hphase, -, -, -, -, hunseen⟩ := hchecks
        have hafter : running.phase.after = none := by rw [hphase]; rfl
        have hread := hruns.reads_merged hafter
        have hold := h.sound.previous hstage (hread name)
        simp only [hold, oldTotals_map] at hstep
        obtain ⟨hseen, hnamed⟩ := h.sound.seen_append hstage running.namespace_ name
        obtain ⟨htotal, hcount⟩ := hruns.named hunseen chunks
        have hset (d : Dict M Content) (name' : M) (hne : name' ≠ name) :
            (d.set name chunks).get? name' = d.get? name' := by simp [get?_set, hne]
        split at hstep
        · rename_i hsame
          cases hstep
          -- the section is there already
          have hget : merged.get? name = some chunks := by
            rw [Option.map_map] at hsame
            obtain ⟨old, hget, hsignature⟩ := Option.map_eq_some_iff.mp hsame
            rw [hget, hlayout hsignature]
          apply h.advance hstage hrunning hmaps
          rotate_left
          · exact ⟨rfl, rfl, rfl, rfl⟩
          · rfl
          · exact fun row hrow => .inl hrow
          · exact hnamed
          · exact fun _ _ hreads => hreads
          · exact fun _ _ _ hreads => hreads
          · apply hruns.visited hafter (hset named) (hset merged) (by simp [get?_set])
            · rfl
            · rfl
            · intro name'
              rw [get?_set]
              by_cases heq : name' = name
              · rw [if_pos heq, heq, ← hget]
                exact hread name
              · rw [if_neg heq]
                exact hread name'
            · rfl
            · rfl
            · rfl
            · exact htotal.symm
            · exact hcount.symm
          · apply h.sound.note hstage
            · rfl
            · exact id
            · exact hseen
        · split at hstep
          · cases hstep
          · rename_i hfree
            cases hstep
            rw [Bool.or_eq_true, not_or, any_eq_true, any_eq_true] at hfree
            obtain ⟨hunseen', hothers⟩ := put_others h.sound hstage
              (running.namespace_, name) (some (Section.of hashes chunks))
            apply h.advance hstage hrunning hmaps
            rotate_left
            · exact ⟨rfl, rfl, rfl, rfl⟩
            · rfl
            · intro row hrow
              rcases Version.mem_put.mp hrow with rfl | ⟨hold, -⟩
              · exact .inr ⟨rfl, rfl⟩
              · exact .inl hold
            · exact hnamed
            · exact hunseen'
            · exact hothers
            · apply hruns.visited hafter (hset named) (hset merged) (by simp [get?_set])
              · rfl
              · rfl
              · intro name'
                rw [get?_set]
                exact put_reads h.sound hstage hread name (some chunks) name'
              · rfl
              · rfl
              · rfl
              · exact htotal.symm
              · exact hcount.symm
            · apply h.sound.write hstage
              · rfl
              · exact id
              · rfl
              · intro c hc
                obtain ⟨chunk, -, rfl⟩ := List.mem_map.mp hc
                exact ⟨rfl, rfl⟩
              · intro _ c hc hsame
                exact hfree.2 ⟨c, hc, by simp [hsame]⟩
              · intro task htask
                split at htask
                · exact mem_retire.mp htask
                · exact .inl htask
              · intro task htask
                split
                · exact mem_retire.mpr (.inl htask)
                · exact htask
              · exact hseen
              · rintro _ ⟨⟩ _
                exact ⟨chunks, rfl, enumerate_rows _ _ chunks⟩

/-- **The iteration over a tombstone.** -/
theorem refines_tombstone (h : Refines hashes s maps) {header name : M}
    (hstep : tombstoneStep header name s = some s') :
    Refines hashes s' (maps.step (.tombstone name : Event N M δ)) := by
  cases hstage : s.stage with
  | none => simp [tombstoneStep, hstage] at hstep
  | some stage =>
    cases hrunning : stage.running with
    | none => simp [tombstoneStep, hstage, hrunning] at hstep
    | some running =>
      obtain ⟨staged, merged, named, hmaps, hcall, hruns⟩ := h.call hstage hrunning
      have hmaps' : maps.step (.tombstone name : Event N M δ) =
          { maps with stage := some { staged with
            call := some (running.call (merged.erase name) named) } } := by
        simp [Maps.step, hmaps, hcall, Call.step]
      rw [hmaps']
      simp only [tombstoneStep, hstage, hrunning] at hstep
      split at hstep
      · cases hstep
      · rename_i hchecks
        simp only [not_or, not_not] at hchecks
        obtain ⟨hphase, -, hunseen⟩ := hchecks
        have hafter : running.phase.after = none := by rw [hphase]; rfl
        have hread := hruns.reads_merged hafter
        have hold := h.sound.previous hstage (hread name)
        simp only [hold, oldTotals_map] at hstep
        obtain ⟨hseen, hnamed⟩ := h.sound.seen_append hstage running.namespace_ name
        obtain ⟨htotal, hcount⟩ := hruns.removed name
        have herase (name' : M) (hne : name' ≠ name) :
            (merged.erase name).get? name' = merged.get? name' := by simp [get?_erase, hne]
        have hself : (merged.erase name).get? name = named.get? name := by
          simp [get?_erase, hruns.unlisted name hunseen]
        split at hstep
        · rename_i hnone
          cases hstep
          have hget : merged.get? name = none := by simpa using hnone
          apply h.advance hstage hrunning hmaps
          rotate_left
          · exact ⟨rfl, rfl, rfl, rfl⟩
          · split <;> rfl
          · exact fun row hrow => .inl hrow
          · exact hnamed
          · exact fun _ _ hreads => hreads
          · exact fun _ _ _ hreads => hreads
          · apply hruns.visited hafter (fun _ _ => rfl) herase hself
            · rfl
            · rfl
            · intro name'
              rw [get?_erase]
              by_cases heq : name' = name
              · rw [if_pos heq, heq, ← hget]
                exact hread name
              · rw [if_neg heq]
                exact hread name'
            · split <;> rfl
            · split <;> rfl
            · split <;> rfl
            · rw [htotal]
              split <;> rfl
            · rw [hcount]
              split <;> rfl
          · apply h.sound.note hstage
            · rfl
            · exact id
            · exact hseen
        · cases hstep
          obtain ⟨hunseen', hothers⟩ := put_others h.sound hstage
            (running.namespace_, name) none
          apply h.advance hstage hrunning hmaps
          rotate_left
          · exact ⟨rfl, rfl, rfl, rfl⟩
          · split <;> rfl
          · intro row hrow
            rcases Version.mem_put.mp hrow with rfl | ⟨hold, -⟩
            · exact .inr ⟨rfl, rfl⟩
            · exact .inl hold
          · exact hnamed
          · exact hunseen'
          · exact hothers
          · apply hruns.visited hafter (fun _ _ => rfl) herase hself
            · rfl
            · rfl
            · intro name'
              rw [get?_erase]
              exact put_reads h.sound hstage hread name none name'
            · split <;> rfl
            · split <;> rfl
            · split <;> rfl
            · rw [htotal]
              split <;> rfl
            · rw [hcount]
              split <;> rfl
          · apply h.sound.write hstage
            · rfl
            · exact id
            · exact (List.append_nil _).symm
            · simp
            · exact fun hvalue => absurd rfl hvalue
            · exact fun task htask => mem_retire.mp htask
            · exact fun task htask => mem_retire.mpr (.inl htask)
            · exact hseen
            · intro v hv
              cases hv

/-! ## between the loops -/

end

theorem Moved.rephase (h : Refines hashes s maps)
    (hstage : s.stage = some stage)
    (hrunning : stage.running = some running)
    {phase : Phase M} (hphase : phase.after = running.phase.after) :
    Refines hashes (s.goOn stage { running with phase := phase }) maps := by
  obtain ⟨staged, hmaps, hstaged⟩ := h.stage stage hstage
  obtain ⟨-, call, hcall, hruns⟩ := hstaged.running running hrunning
  have hmaps' : maps = { maps with stage := some { staged with call := some call } } := by
    obtain ⟨published, _⟩ := maps
    cases hmaps
    rw [← hcall]
  rw [hmaps']
  apply h.advance hstage hrunning hmaps
  rotate_left
  · exact ⟨rfl, rfl, rfl, rfl⟩
  · rfl
  · exact fun row hrow => .inl hrow
  · exact fun row hrow => .inl hrow
  · exact fun _ _ hreads => hreads
  · exact fun _ _ _ hreads => hreads
  · exact { hruns with
      reads := by
        simp only [hphase]
        exact hruns.reads
      delta := by
        simp only [hphase]
        exact hruns.delta }
  · apply h.sound.note hstage
    · rfl
    · exact id
    · exact h.sound.seenBelow

theorem Maps.step_rest {event : Event N M δ} (maps : Maps N M)
    (hevent : event = .endSections ∨ event = .endTombstones ∨ event = .withdraw) :
    maps.step event = maps := by
  obtain ⟨published, stage⟩ := maps
  rcases hevent with rfl | rfl | rfl <;> cases stage with
  | none => rfl
  | some stage => cases hcall : stage.call <;> simp [Maps.step, Call.step]

theorem refines_endSections (h : Refines hashes s maps) (hstep : endSections s = some s') :
    Refines hashes s' maps := by
  cases hstage : s.stage with
  | none => simp [endSections, hstage] at hstep
  | some stage =>
    cases hrunning : stage.running with
    | none => simp [endSections, hstage, hrunning] at hstep
    | some running =>
      simp only [endSections, hstage, hrunning] at hstep
      split at hstep
      · rename_i hphase
        cases hstep
        apply Moved.rephase h hstage hrunning
        rw [hphase.1]
        rfl
      · cases hstep

theorem refines_endTombstones (h : Refines hashes s maps) (hstep : endTombstones s = some s') :
    Refines hashes s' maps := by
  cases hstage : s.stage with
  | none => simp [endTombstones, hstage] at hstep
  | some stage =>
    cases hrunning : stage.running with
    | none => simp [endTombstones, hstage, hrunning] at hstep
    | some running =>
      simp only [endTombstones, hstage, hrunning] at hstep
      split at hstep
      · rename_i hphase
        cases hstep
        apply Moved.rephase h hstage hrunning
        rw [hphase]
        rfl
      · cases hstep

end Codexon.PreparedCheckpoint
