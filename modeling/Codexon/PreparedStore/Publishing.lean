import Codexon.PreparedStore.Inventories

/-!
# Codexon.PreparedStore.Publishing

A stage is opened, declares its owners and is published, aborted or left behind.
Only the visibility of its batch decides what of it readers get (`Sound.close`).
-/

namespace Codexon.PreparedStore

open List

variable {ω ι ν : Type} [DecidableEq ω]

/-! ## opening a stage -/

variable {s s' : State ω ι ν} {spec : Spec ω ι ν}

theorem refines_begin [DecidableEq ι] (h : Refines s spec) (hbegin : begin_ s = some s') : Refines
    s' (spec.step .begin_) := by
  unfold begin_ at hbegin
  split at hbegin
  · cases hbegin
  · rename_i hstage
    cases hbegin
    have hnew : ∀ p ∈ s.publications, p.1 ≠ s.nextBatch := by
      intro p hp
      exact (h.sound.below p hp).ne
    have hunstaged : ∀ p ∈ s.publications, p.2 ≠ .staged := by
      intro p hp hstaged
      have hmarker := h.sound.staged p hp hstaged
      simp [State.marker, hstage] at hmarker
    set s' : State ω ι ν := { s with
      publications := s.publications ++ [(s.nextBatch, .staged)]
      nextBatch := s.nextBatch + 1
      stage := some { batch := s.nextBatch } } with hs'
    have hvisible : ∀ marker batch, marker = none ∨ marker = some s.nextBatch →
        batch < s.nextBatch → (Visible s' marker batch ↔ Visible s none batch) := by
      intro marker batch hmarker hlt
      have hne : marker ≠ some batch := by
        rcases hmarker with rfl | rfl
        · simp
        · simp [hlt.ne']
      simp only [Visible, hs', mem_append, mem_singleton, hne, or_false, reduceCtorEq]
      constructor
      · rintro ⟨p, hp | rfl, hbatch, hstate⟩
        · exact ⟨p, hp, hbatch, hstate⟩
        · cases hstate
      · rintro ⟨p, hp, hbatch, hstate⟩
        exact ⟨p, .inl hp, hbatch, hstate⟩
    have hwritten : ∀ row ∈ s.rows, row.batch < s.nextBatch := by
      intro row hrow
      obtain ⟨p, hp, hbatch⟩ := h.sound.written row hrow
      rw [← hbatch]
      exact h.sound.below p hp
    constructor
    · constructor
      · rw [hs', map_append, nodup_append]
        refine ⟨h.sound.ids, by simp, ?_⟩
        intro batch hbatch other hother
        obtain ⟨p, hp, rfl⟩ := List.mem_map.mp hbatch
        simp only [map_cons, map_nil, mem_singleton] at hother
        rw [hother]
        exact hnew p hp
      · intro p hp
        rcases mem_append.mp hp with hp | hp
        · exact Nat.lt_succ_of_lt (h.sound.below p hp)
        · rw [mem_singleton.mp hp]
          exact Nat.lt_succ_self _
      · intro p hp hstaged
        rcases mem_append.mp hp with hp | hp
        · exact absurd hstaged (hunstaged p hp)
        · rw [mem_singleton.mp hp]
          rfl
      · rintro _ ⟨⟩
        simp [hs']
      · rintro _ ⟨⟩ p hp
        rcases mem_append.mp hp with hp | hp
        · exact (h.sound.below p hp).le
        · rw [mem_singleton.mp hp]
      · exact h.sound.single
      · intro row hrow
        obtain ⟨p, hp, hbatch⟩ := h.sound.written row hrow
        exact ⟨p, mem_append_left _ hp, hbatch⟩
      · intro task htask kind identity hfact hseen old hold hkey hlt
        have hseen' := (hvisible _ _ (.inr rfl) (h.sound.tasks task htask)).mp hseen
        obtain ⟨new, hnew, hkey', hle, hsame⟩ := h.sound.superseded task htask kind identity hfact
          (hseen'.mono s.marker) old hold hkey hlt
        exact ⟨new, hnew, hkey', hle,
          hsame.imp_right (hvisible none _ (.inl rfl) (hwritten new hnew)).mpr⟩
      · exact fun task htask => Nat.lt_succ_of_lt (h.sound.tasks task htask)
      · exact h.sound.owner
      · exact h.sound.owned
      · rintro _ ⟨⟩ key owner howner
        simp [Dict.get?] at howner
      · exact fun row hrow => Nat.lt_succ_of_lt (h.sound.listings row hrow)
    · exact h.published.congr rfl rfl fun row hrow => hvisible none _ (.inl rfl) (hwritten row hrow)
    · rintro _ ⟨⟩
      refine ⟨_, rfl, ?_, ?_⟩
      · exact h.published.congr rfl rfl fun row hrow => hvisible _ _ (.inr rfl) (hwritten row hrow)
      · constructor
        · simp
        · simp
        · intro row hrow hbatch
          have hlt := h.sound.listings row hrow
          simp only at hbatch
          omega
        · simp
        · simp
    · intro hnone
      cases hnone

/-! ## owners -/

omit [DecidableEq ω] in
theorem le_foldl_max {owner : Nat} {owners : List Nat} (howner : owner ∈ owners) (bound : Nat) :
    bound ≤ owners.foldl max bound ∧ owner ≤ owners.foldl max bound := by
  have hbound : ∀ (owners : List Nat) (bound : Nat), bound ≤ owners.foldl max bound := by
    intro owners bound
    exact List.foldlRecOn (motive := fun best => bound ≤ best) owners max le_rfl
      fun _ hle other _ => hle.trans (le_max_left _ other)
  refine ⟨hbound owners bound, ?_⟩
  induction owners generalizing bound with
  | nil => cases howner
  | cons first owners ih =>
    rcases mem_cons.mp howner with rfl | howner
    · exact (le_max_right _ _).trans (hbound owners _)
    · exact ih howner _

theorem freshOwner_lt {key : ω} {owner : Nat}
    (howner : s.owners.get? key = some owner) : owner < freshOwner s := by
  have hmem : owner ∈ s.owners.entries.map Prod.snd :=
    List.mem_map.mpr ⟨_, Dict.get?_eq_some.mp howner, rfl⟩
  exact Nat.lt_succ_of_le (le_foldl_max hmem 0).2

theorem Refines.declare (h : Refines s spec)
    {stage : Stage ω} (hstage : s.stage = some stage) {key : ω} {owner : Nat}
    (howner : s.owners.get? key = some owner ∨
      s.owners.get? key = none ∧ ∀ key', s.owners.get? key' ≠ some owner) :
    Refines { s with
      owners := s.owners.set key owner
      versions :=
        s.versions.filter (fun v => ¬ (v.owner = owner ∧ v.batch = stage.batch)) ++
          [⟨owner, stage.batch, false⟩]
      stage := some { stage with owners := stage.owners.set key owner } } spec := by
  have hget : ∀ key' owner', (s.owners.set key owner).get? key' = some owner' ↔
      key' = key ∧ owner' = owner ∨ key' ≠ key ∧ s.owners.get? key' = some owner' := by
    intro key' owner'
    rw [Dict.get?_set]
    grind
  have hkeep : ∀ key' owner', s.owners.get? key' = some owner' →
      (s.owners.set key owner).get? key' = some owner' := by
    intro key' owner' hsome
    rw [hget]
    grind
  have hother : ∀ key', s.owners.get? key' = some owner → key' = key := by
    intro key' hsome
    rcases howner with howner | ⟨-, hfresh⟩
    · exact h.sound.owner key' key owner hsome howner
    · exact absurd hsome (hfresh key')
  have hdeclared : ∀ key' owner', stage.owners.get? key' = some owner' →
      (stage.owners.set key owner).get? key' = some owner' := by
    intro key' owner' hsome
    have hsome' := (h.sound.declared stage hstage key' owner' hsome).1
    rw [Dict.get?_set]
    grind
  have hback : ∀ staged, Listed s stage staged → ∀ key' owner' kind,
      (stage.owners.set key owner).get? key' = some owner' → (owner', kind) ∈ stage.reconciling →
      stage.owners.get? key' = some owner' := by
    intro staged hlisted key' owner' kind hsome hpair
    rw [Dict.get?_set] at hsome
    split at hsome
    · rename_i hsame
      cases hsome
      obtain ⟨key'', hsome⟩ := hlisted.opened _ hpair
      rw [hsame, ← hother key'' (h.sound.declared stage hstage key'' _ hsome).1]
      exact hsome
    · exact hsome
  have hshows : ∀ marker facts, Shows s marker facts →
      Shows { s with owners := s.owners.set key owner } marker facts := by
    intro marker facts hshows
    constructor
    · intro key' owner' hsome kind identity
      rcases (hget key' owner').mp hsome with ⟨rfl, rfl⟩ | ⟨-, hsome⟩
      · rcases howner with howner | ⟨hnone, hfresh⟩
        · exact hshows.1 key' owner' howner kind identity
        · rw [hshows.2 key' hnone kind identity]
          apply Version.readsAs_none
          intro row hrow hkey _
          obtain ⟨key'', hsome⟩ := h.sound.owned row hrow
          rw [hkey] at hsome
          exact hfresh key'' hsome
      · exact hshows.1 key' owner' hsome kind identity
    · intro key' hnone
      change (s.owners.set key owner).get? key' = none at hnone
      apply hshows.2
      rw [Dict.get?_set] at hnone
      split at hnone
      · cases hnone
      · exact hnone
  constructor
  · exact { h.sound with
      staged := by
        intro p hp hstaged
        have hmarker := h.sound.staged p hp hstaged
        rw [State.marker, hstage] at hmarker
        exact hmarker
      open_ := by
        rintro _ ⟨⟩
        exact h.sound.open_ stage hstage
      newest := by
        rintro _ ⟨⟩
        exact h.sound.newest stage hstage
      superseded := by
        intro task htask kind identity hfact hseen
        have hmarker : s.marker = some stage.batch := by simp [State.marker, hstage]
        apply h.sound.superseded task htask kind identity hfact
        rw [hmarker]
        exact hseen
      owner := by
        intro key' key'' owner' hsome hsome'
        rcases (hget _ _).mp hsome with ⟨rfl, rfl⟩ | ⟨-, hold⟩ <;>
          rcases (hget _ _).mp hsome' with ⟨rfl, hsame⟩ | ⟨-, hold'⟩
        · rfl
        · exact (hother key'' hold').symm
        · exact hother key' (hsame ▸ hold)
        · exact h.sound.owner key' key'' owner' hold hold'
      owned := by
        intro row hrow
        obtain ⟨key', hsome⟩ := h.sound.owned row hrow
        exact ⟨key', hkeep _ _ hsome⟩
      declared := by
        rintro _ ⟨⟩ key' owner' hsome
        have hnew : ∃ v ∈ s.versions.filter (fun v => ¬ (v.owner = owner ∧ v.batch = stage.batch)) ++
            [⟨owner, stage.batch, false⟩], v.owner = owner ∧ v.batch = stage.batch :=
          ⟨_, mem_append_right _ (mem_singleton_self _), rfl, rfl⟩
        simp only [Dict.get?_set] at hsome
        split at hsome
        · rename_i hsame
          cases hsome
          exact ⟨(hget _ _).mpr (.inl ⟨hsame, rfl⟩), hnew⟩
        · obtain ⟨hget', v, hv, hsame, hbatch⟩ := h.sound.declared stage hstage key' owner' hsome
          refine ⟨hkeep _ _ hget', ?_⟩
          by_cases howner' : owner' = owner
          · rw [howner']
            exact hnew
          · refine ⟨v, mem_append_left _ (List.mem_filter.mpr ⟨hv, ?_⟩), hsame, hbatch⟩
            simp [hsame, howner'] }
  · exact hshows none _ h.published
  · rintro _ ⟨⟩
    obtain ⟨staged, hspec, hstaged, hlisted⟩ := h.stage stage hstage
    refine ⟨staged, hspec, hshows _ _ hstaged, ?_⟩
    exact { hlisted with
      opened := by
        intro pair hpair
        obtain ⟨key', hsome⟩ := hlisted.opened pair hpair
        exact ⟨key', hdeclared _ _ hsome⟩
      listed := by
        intro key' owner' kind hsome hpair
        exact hlisted.listed key' owner' kind (hback staged hlisted key' owner' kind hsome hpair) hpair
      fresh := by
        intro key' owner' kind hsome hpair
        have hopen := hlisted.unfinished _ hpair
        exact hlisted.fresh key' owner' kind (hback staged hlisted key' owner' kind hsome hopen) hpair }
  · intro hnone
    cases hnone

theorem refines_declareOwner [DecidableEq ι] (h : Refines s spec) {key : ω} {replace : Bool}
    (hdeclare : declareOwner key replace s = some s') :
    Refines s' (spec.step (.declareOwner key replace)) := by
  unfold declareOwner at hdeclare
  split at hdeclare
  · cases hdeclare
  · rename_i stage hstage
    extract_lets owner prior at hdeclare
    split at hdeclare
    · cases hdeclare
    · cases hdeclare
      have hspec : spec.step (.declareOwner key replace) = spec := by
        simp [Spec.step, StageSpec.step]
      rw [hspec]
      have howner : s.owners.get? key = some owner ∨
          s.owners.get? key = none ∧ ∀ key', s.owners.get? key' ≠ some owner := by
        cases hget : s.owners.get? key with
        | some old => simp [owner, hget]
        | none =>
          refine .inr ⟨rfl, fun key' hsome => ?_⟩
          simp only [owner, hget, Option.getD_none] at hsome
          exact lt_irrefl _ (freshOwner_lt hsome)
      have hnew := h.declare hstage howner
      clear_value prior
      cases prior with
      | none => exact hnew
      | some v =>
        dsimp only
        split
        · exact hnew.addTask rfl owner none (by simp)
        · exact hnew

theorem refines_markRemoved [DecidableEq ι] (h : Refines s spec) {key : ω}
    (hmark : markRemoved key s = some s') : Refines s' (spec.step (.markRemoved key)) := by
  unfold markRemoved at hmark
  split at hmark
  · cases hmark
  · rename_i stage hstage
    split at hmark
    · cases hmark
    · rename_i owner howner
      split at hmark
      · cases hmark
      · cases hmark
        have hspec : spec.step (.markRemoved key) = spec := by
          simp [Spec.step, StageSpec.step]
        rw [hspec]
        constructor
        · exact { h.sound with
            declared := by
              intro stage' hstage' key' owner' howner'
              obtain ⟨hget, v, hv, hsame, hbatch⟩ :=
                h.sound.declared stage' hstage' key' owner' howner'
              refine ⟨hget, _, mem_map_of_mem hv, ?_⟩
              split
              · exact ⟨hsame, hbatch⟩
              · exact ⟨hsame, hbatch⟩ }
        · exact h.published
        · intro stage' hstage'
          obtain ⟨staged, hspec, hshows, hlisted⟩ := h.stage stage' hstage'
          exact ⟨staged, hspec, hshows, { hlisted with }⟩
        · exact h.idle

/-! ## closing the stage -/

theorem Sound.close (h : Sound s)
    (f : Nat × PublicationState → Nat × PublicationState) (generation : Nat)
    (hbatch : ∀ p, (f p).1 = p.1) (hstaged : ∀ p ∈ s.publications, (f p).2 ≠ .staged)
    (hvisible : ∀ batch, Visible { s with publications := s.publications.map f } none batch →
      Visible s s.marker batch)
    (hpublished : ∀ batch, Visible s none batch →
      Visible { s with publications := s.publications.map f } none batch) :
    Sound { s with
      publications := s.publications.map f, generation := generation, stage := none } := by
  constructor
  · have hids : s.publications.map (Prod.fst ∘ f) = s.publications.map Prod.fst :=
      map_congr_left fun p _ => hbatch p
    rw [List.map_map, hids]
    exact h.ids
  · intro p hp
    obtain ⟨old, hold, rfl⟩ := List.mem_map.mp hp
    rw [hbatch]
    exact h.below old hold
  · intro p hp hstate
    obtain ⟨old, hold, rfl⟩ := List.mem_map.mp hp
    exact absurd hstate (hstaged old hold)
  · simp
  · simp
  · exact h.single
  · intro row hrow
    obtain ⟨p, hp, hsame⟩ := h.written row hrow
    exact ⟨f p, mem_map_of_mem hp, (hbatch p).trans hsame⟩
  · intro task htask kind identity hfact hseen old hold hkey hlt
    obtain ⟨new, hnew, hkey', hle, hsame⟩ :=
      h.superseded task htask kind identity hfact (hvisible _ hseen) old hold hkey hlt
    exact ⟨new, hnew, hkey', hle, hsame.imp_right (hpublished _)⟩
  · exact h.tasks
  · exact h.owner
  · exact h.owned
  · simp
  · exact h.listings

/-- **Publishing**: what the stage sees is what every reader sees. -/
theorem refines_publish [DecidableEq ι] (h : Refines s spec) (hpublish : publish s = some s') :
    Refines s' (spec.step .publish) := by
  unfold publish at hpublish
  split at hpublish
  · cases hpublish
  · rename_i stage hstage
    split at hpublish
    · cases hpublish
    · extract_lets owners at hpublish
      cases hpublish
      apply refines_prunePublication
      obtain ⟨staged, hspec, hshows, -⟩ := h.stage stage hstage
      have hmarker : s.marker = some stage.batch := by simp [State.marker, hstage]
      have hunread := h.unread (owners.foldl (fun heads owner => heads.set owner stage.batch) s.heads)
        s.ownerRetired (owners.foldl insertIgnore s.ledgerPending) s.others s.pins
      set f : Nat × PublicationState → Nat × PublicationState := fun p =>
        if p.1 = stage.batch then (p.1, .published) else p with hf
      have hvisible : ∀ batch, Visible { s with publications := s.publications.map f } none batch ↔
          Visible s (some stage.batch) batch := by
        intro batch
        constructor
        · rintro ⟨_, hmap, rfl, hstate⟩
          obtain ⟨p, hp, rfl⟩ := List.mem_map.mp hmap
          simp only [hf] at hstate ⊢
          split at hstate
          · rename_i hopen
            rw [if_pos hopen]
            exact ⟨p, hp, rfl, .inr (by rw [hopen])⟩
          · rename_i hother
            rw [if_neg hother]
            exact ⟨p, hp, rfl, .inl (hstate.resolve_right (by simp))⟩
        · rintro ⟨p, hp, rfl, hstate⟩
          refine ⟨f p, mem_map_of_mem hp, ?_⟩
          simp only [hf]
          split
          · exact ⟨rfl, .inl rfl⟩
          · rename_i hother
            refine ⟨rfl, .inl (hstate.resolve_right fun hopen => hother ?_)⟩
            exact (Option.some.inj hopen).symm
      constructor
      · apply hunread.sound.close f (s.generation + 1)
        · intro p
          simp only [hf]
          split <;> rfl
        · intro p hp
          simp only [hf]
          split
          · simp
          · rename_i hother
            intro hstate
            have hopen := h.sound.staged p hp hstate
            rw [hmarker] at hopen
            exact hother (Option.some.inj hopen).symm
        · intro batch hseen
          have hseen' := (hvisible batch).mp hseen
          rw [← hmarker] at hseen'
          exact hseen'
        · intro batch hseen
          exact (hvisible batch).mpr (Visible.mono (s := s) hseen _)
      · simp only [Spec.step, hspec, Option.map_some, Option.getD_some]
        exact hshows.congr rfl rfl fun row _ => hvisible row.batch
      · intro stage' hstage'
        cases hstage'
      · intro _
        rfl

/-- **Abandoning**: nobody sees what the stage wrote. -/
theorem refines_reopen (h : Refines s spec) :
    Refines (reopen s) { spec with stage := none } := by
  set f : Nat × PublicationState → Nat × PublicationState := fun p =>
    if p.2 = .staged then (p.1, .abandoned) else p with hf
  have hvisible : ∀ batch, Visible { s with publications := s.publications.map f } none batch ↔
      Visible s none batch := by
    intro batch
    constructor
    · rintro ⟨_, hmap, rfl, hstate⟩
      obtain ⟨p, hp, rfl⟩ := List.mem_map.mp hmap
      have hstate' := hstate.resolve_right (by simp)
      simp only [hf] at hstate' ⊢
      split at hstate'
      · cases hstate'
      · rename_i hother
        rw [if_neg hother]
        exact ⟨p, hp, rfl, .inl hstate'⟩
    · rintro ⟨p, hp, rfl, hstate⟩
      have hstate' := hstate.resolve_right (by simp)
      refine ⟨f p, mem_map_of_mem hp, ?_⟩
      simp [hf, hstate']
  constructor
  · apply h.sound.close f s.generation
    · intro p
      simp only [hf]
      split <;> rfl
    · intro p _
      simp only [hf]
      split
      · simp
      · assumption
    · exact fun batch hseen => ((hvisible batch).mp hseen).mono s.marker
    · exact fun batch => (hvisible batch).mpr
  · exact h.published.congr rfl rfl fun row _ => hvisible row.batch
  · intro stage hstage
    cases hstage
  · intro _
    rfl

theorem refines_abort (h : Refines s spec)
    (habort : abort s = some s') : Refines s' { spec with stage := none } := by
  unfold abort at habort
  split at habort
  · cases habort
  · rename_i stage hstage
    cases habort
    -- only the open batch is staged
    have hsame : s.publications.map (fun p =>
        if p.1 = stage.batch ∧ p.2 = .staged then (p.1, PublicationState.abandoned) else p) =
        s.publications.map fun p => if p.2 = .staged then (p.1, .abandoned) else p := by
      apply map_congr_left
      intro p hp
      have hopen := h.sound.staged p hp
      rw [State.marker, hstage, Option.map_some, Option.some.injEq] at hopen
      grind
    rw [hsame]
    exact refines_reopen h

theorem refines_fail (h : Refines s spec) : Refines (fail s) spec := by
  unfold fail
  cases hstage : s.stage with
  | none =>
    have hsame : ({ s with stage := none } : State ω ι ν) = s := by rw [← hstage]
    rw [Option.map_none, hsame]
    exact h
  | some stage => exact h.flags hstage stage.factsStarted true

end Codexon.PreparedStore
