import Codexon.PreparedStore.Cleaning

/-!
# Codexon.PreparedStore.Staging

The calls of a stage keep the abstract store.  A write goes to the open batch, which
only a staged read sees (`Refines.write`), and `publish` is the change of who sees
that batch.
-/

namespace Codexon.PreparedStore

open List

variable {ω ι ν : Type}

/-! ## the open batch -/

variable {s : State ω ι ν} {stage : Stage ω}

theorem Sound.seen_le [DecidableEq ω] (h : Sound s) (hstage : s.stage = some stage)
    {marker : Option Nat} {batch : Nat} (hseen : Visible s marker batch) : batch ≤ stage.batch := by
  obtain ⟨p, hp, rfl, -⟩ := hseen
  exact h.newest stage hstage p hp

variable [DecidableEq ω]

theorem Sound.marker_seen (h : Sound s) (hstage : s.stage = some stage) : Visible s
    (some stage.batch) stage.batch :=
  ⟨_, h.open_ stage hstage, rfl, .inr rfl⟩

theorem Sound.marker_unpublished (h : Sound s) (hstage : s.stage = some stage) : ¬ Visible s none
    stage.batch := by
  rintro ⟨⟨batch, state⟩, hp, rfl, hstate | hstate⟩
  · change state = .published at hstate
    subst hstate
    cases h.state hp (h.open_ stage hstage)
  · cases hstate

variable {facts : Facts ω ι ν} {s' : State ω ι ν}

theorem Shows.congr {marker marker' : Option Nat}
    (h : Shows s marker facts) (howners : s'.owners = s.owners) (hrows : s'.rows = s.rows)
    (hvisible : ∀ row ∈ s.rows, Visible s' marker' row.batch ↔ Visible s marker row.batch) :
    Shows s' marker' facts := by
  constructor
  · intro key owner howner kind identity
    rw [howners] at howner
    rw [hrows]
    exact (h.1 key owner howner kind identity).congr (fun _ _ => Iff.rfl)
      fun row hrow _ => hvisible row hrow
  · intro key hnone
    rw [howners] at hnone
    exact h.2 key hnone

/-! ## moves -/

variable {spec : Spec ω ι ν}

theorem Refines.addTask [DecidableEq ι] (h : Refines s spec)
    (hstage : s.stage = some stage) (owner : Nat) (fact : Option (Kind × ι))
    (hrow : ∀ kind identity, fact = some (kind, identity) →
      ∃ row ∈ s.rows, row.key = ⟨kind, owner, identity⟩ ∧ row.batch = stage.batch) :
    Refines { s with retired := insertIgnore s.retired ⟨fact, owner, stage.batch⟩ } spec := by
  have hmem : ∀ task, task ∈ insertIgnore s.retired ⟨fact, owner, stage.batch⟩ →
      task ∈ s.retired ∨ task = ⟨fact, owner, stage.batch⟩ := by
    intro task htask
    unfold insertIgnore at htask
    split at htask
    · exact .inl htask
    · simpa using htask
  constructor
  · exact { h.sound with
      superseded := by
        intro task htask kind identity hfact hseen old hold hkey hlt
        rcases hmem task htask with htask | rfl
        · exact h.sound.superseded task htask kind identity hfact hseen old hold hkey hlt
        · obtain ⟨row, hrow', hkey', hbatch⟩ := hrow kind identity hfact
          exact ⟨row, hrow', hkey', hbatch.ge, .inl hbatch⟩
      tasks := by
        intro task htask
        rcases hmem task htask with htask | rfl
        · exact h.sound.tasks task htask
        · exact h.sound.below _ (h.sound.open_ stage hstage) }
  · exact h.published
  · intro stage hstage
    obtain ⟨staged, hspec, hshows, hlisted⟩ := h.stage stage hstage
    exact ⟨staged, hspec, hshows, { hlisted with }⟩
  · exact h.idle

/-- The open stage may change, but for its batch and its owners. -/
theorem Sound.restage (h : Sound s) {stage' : Stage ω}
    (hstage : s.stage = some stage) (hbatch : stage'.batch = stage.batch)
    (howners : stage'.owners = stage.owners) : Sound { s with stage := some stage' } := by
  have hmarker : ({ s with stage := some stage' } : State ω ι ν).marker = s.marker := by
    simp [State.marker, hstage, hbatch]
  exact { h with
    staged := by
      rw [hmarker]
      exact h.staged
    open_ := by
      rintro _ ⟨⟩
      rw [hbatch]
      exact h.open_ stage hstage
    newest := by
      rintro _ ⟨⟩
      rw [hbatch]
      exact h.newest stage hstage
    superseded := by
      rw [hmarker]
      exact h.superseded
    declared := by
      rintro _ ⟨⟩
      rw [hbatch, howners]
      exact h.declared stage hstage }

variable {published : Facts ω ι ν} {staged : StageSpec ω ι ν}

theorem Refines.restage (h : Refines s ⟨published, some staged⟩) {stage' : Stage ω}
    (hstage : s.stage = some stage) {listed : ω → Kind → List ι}
    (hlisted : Listed s stage' { staged with listed := listed })
    (hbatch : stage'.batch = stage.batch) (howners : stage'.owners = stage.owners) :
    Refines { s with stage := some stage' }
      ⟨published, some { staged with listed := listed }⟩ := by
  obtain ⟨_, hspec, hshows, -⟩ := h.stage stage hstage
  cases hspec
  constructor
  · exact h.sound.restage hstage hbatch howners
  · exact h.published
  · rintro _ ⟨⟩
    refine ⟨_, rfl, ?_, { hlisted with }⟩
    rw [hbatch]
    exact hshows
  · intro hnone
    cases hnone

theorem Refines.flags (h : Refines s spec)
    (hstage : s.stage = some stage) (factsStarted : List Nat) (failed : Bool) :
    Refines { s with
      stage := some { stage with factsStarted := factsStarted, failed := failed } } spec := by
  obtain ⟨staged, hspec, -, hlisted⟩ := h.stage stage hstage
  obtain ⟨published, _⟩ := spec
  cases hspec
  have hlisted' : Listed s { stage with factsStarted := factsStarted, failed := failed } staged :=
    { hlisted with }
  exact h.restage hstage hlisted' rfl rfl

theorem Refines.start (h : Refines s spec)
    (hstage : s.stage = some stage) (kind : Kind) (owner : Nat) :
    Refines { s with stage := some (stage.start kind owner) } spec := by
  unfold Stage.start
  split
  · exact h.flags hstage stage.factsStarted stage.failed
  · exact h.flags hstage _ stage.failed

/-! ## writing facts -/

variable [DecidableEq ι]

theorem Facts.set_same {key : ω} {kind : Kind} {identity : ι}
    {value : Option ν} (h : facts key kind identity = value) :
    facts.set key kind identity value = facts := by
  funext key' kind' identity'
  unfold Facts.set
  split
  · rename_i hsame
    obtain ⟨rfl, rfl, rfl⟩ := hsame
    exact h.symm
  · rfl

variable {owner : Nat}

/-- **A write of the stage** is read by the stage, and by nobody else. -/
theorem Refines.write (h : Refines s ⟨published, some staged⟩) (hstage : s.stage = some stage)
    {key : ω}
    (howner : stage.owners.get? key = some owner) (kind : Kind) (identity : ι) (value : Option ν)
    (hfresh : (owner, kind) ∈ stage.fresh → value ≠ none → identity ∈ staged.listed key kind) :
    Refines
      { s with rows := Version.put s.rows ⟨⟨kind, owner, identity⟩, stage.batch, value⟩ }
      ⟨published, some { staged with facts := staged.facts.set key kind identity value }⟩ := by
  have hget := (h.sound.declared stage hstage key owner howner).1
  obtain ⟨_, hspec, hshows, hlisted⟩ := h.stage stage hstage
  cases hspec
  constructor
  · exact { h.sound with
      single := h.sound.single.put _
      written := by
        intro row hrow
        rcases Version.mem_put.mp hrow with rfl | ⟨hrow, -⟩
        · exact ⟨_, h.sound.open_ stage hstage, rfl⟩
        · exact h.sound.written row hrow
      superseded := by
        intro task htask kind' identity' hfact hseen old hold hkey hlt
        have hle : task.batch ≤ stage.batch := h.sound.seen_le (s := s) hstage hseen
        rcases Version.mem_put.mp hold with rfl | ⟨hold, -⟩
        · simp only at hlt
          omega
        · obtain ⟨new, hnew, hkey', hrest⟩ :=
            h.sound.superseded task htask kind' identity' hfact hseen old hold hkey hlt
          by_cases hput : new.key = ⟨kind, owner, identity⟩ ∧ new.batch = stage.batch
          · refine ⟨⟨⟨kind, owner, identity⟩, stage.batch, value⟩, Version.mem_put.mpr (.inl rfl),
              hput.1.symm.trans hkey', ?_⟩
            rw [hput.2] at hrest
            exact hrest
          · exact ⟨new, Version.mem_put.mpr (.inr ⟨hnew, hput⟩), hkey', hrest⟩
      owned := by
        intro row hrow
        rcases Version.mem_put.mp hrow with rfl | ⟨hrow, -⟩
        · exact ⟨key, hget⟩
        · exact h.sound.owned row hrow }
  · constructor
    · intro key' owner' howner' kind' identity'
      exact (h.published.1 key' owner' howner' kind' identity').put_unseen
        (h.sound.marker_unpublished hstage)
    · exact h.published.2
  · intro stage' hstage'
    cases hstage.symm.trans hstage'
    refine ⟨_, rfl, ⟨?_, ?_⟩, ?_⟩
    · intro key' owner' howner' kind' identity'
      by_cases hsame : key' = key ∧ kind' = kind ∧ identity' = identity
      · obtain ⟨rfl, rfl, rfl⟩ := hsame
        cases hget.symm.trans howner'
        simp only [Facts.set, and_self, if_true]
        exact Version.readsAs_put_self h.sound.single _ (h.sound.marker_seen hstage)
          fun old _ hseen => h.sound.seen_le hstage hseen
      · simp only [Facts.set, if_neg hsame]
        apply (hshows.1 key' owner' howner' kind' identity').put_other
        rintro ⟨⟩
        exact hsame ⟨h.sound.owner _ _ _ howner' hget, rfl, rfl⟩
    · intro key' hnone kind' identity'
      have hne : key' ≠ key := by
        rintro rfl
        cases hget.symm.trans hnone
      simp only [Facts.set, hne, false_and, if_false]
      exact hshows.2 key' hnone kind' identity'
    · exact { hlisted with
        fresh := by
          intro key' owner' kind' howner' hpair row hrow hkind hsame
          rcases Version.mem_put.mp hrow with rfl | ⟨hrow, -⟩
          · obtain ⟨rfl, rfl⟩ : kind = kind' ∧ owner = owner' := ⟨hkind, hsame⟩
            have hget' := (h.sound.declared stage hstage key' owner howner').1
            cases h.sound.owner key' key owner hget' hget
            exact ⟨rfl, hfresh hpair⟩
          · exact hlisted.fresh key' owner' kind' howner' hpair row hrow hkind hsame }
  · intro hnone
    cases hstage.symm.trans hnone

theorem mem_foldl_put {α : Type} {xs : List α} {x : α} (hx : x ∈ xs) (f : α → Version (FactKey ι) ν)
    (rows : List (Version (FactKey ι) ν)) :
    ∃ row ∈ xs.foldl (fun rows x => Version.put rows (f x)) rows,
      row.key = (f x).key ∧ row.batch = (f x).batch := by
  have hkeep : ∀ (xs : List α) (rows : List (Version (FactKey ι) ν)),
      (∃ row ∈ rows, row.key = (f x).key ∧ row.batch = (f x).batch) →
      ∃ row ∈ xs.foldl (fun rows x => Version.put rows (f x)) rows,
        row.key = (f x).key ∧ row.batch = (f x).batch := by
    intro xs rows hrow
    refine List.foldlRecOn (motive := fun rows : List (Version (FactKey ι) ν) =>
      ∃ row ∈ rows, row.key = (f x).key ∧ row.batch = (f x).batch) xs _ hrow ?_
    rintro rows ⟨row, hrow, hkey, hbatch⟩ y _
    by_cases hput : row.key = (f y).key ∧ row.batch = (f y).batch
    · exact ⟨f y, Version.mem_put.mpr (.inl rfl), hput.1.symm.trans hkey, hput.2.symm.trans hbatch⟩
    · exact ⟨row, Version.mem_put.mpr (.inr ⟨hrow, hput⟩), hkey, hbatch⟩
  induction xs generalizing rows with
  | nil => cases hx
  | cons y xs ih =>
    rcases mem_cons.mp hx with rfl | hx
    · exact hkeep xs _ ⟨f x, Version.mem_put.mpr (.inl rfl), rfl, rfl⟩
    · exact ih hx _

theorem Refines.writes {α : Type} (h : Refines s ⟨published, some staged⟩)
    (hstage : s.stage = some stage) {key : ω}
    (howner : stage.owners.get? key = some owner) (kind : Kind) (xs : List α) (identity : α → ι)
    (value : α → Option ν)
    (hfresh : (owner, kind) ∈ stage.fresh → ∀ x ∈ xs, value x ≠ none →
      identity x ∈ staged.listed key kind) :
    Refines
      { s with rows := xs.foldl (fun rows x =>
          Version.put rows ⟨⟨kind, owner, identity x⟩, stage.batch, value x⟩) s.rows }
      ⟨published, some { staged with
          facts := xs.foldl (fun facts x => facts.set key kind (identity x) (value x))
            staged.facts }⟩ := by
  induction xs generalizing s staged with
  | nil => exact h
  | cons x xs ih =>
    have hwrite := h.write hstage howner kind (identity x) (value x)
      fun hpair => hfresh hpair x mem_cons_self
    exact ih hwrite hstage fun hpair y hy => hfresh hpair y (mem_cons_of_mem x hy)

theorem Refines.addTasks {α : Type} (h : Refines s spec)
    (hstage : s.stage = some stage) (owner : Nat) (kind : Kind) (xs : List α)
    (identity : α → ι)
    (hrow : ∀ x ∈ xs, ∃ row ∈ s.rows, row.key = ⟨kind, owner, identity x⟩ ∧
      row.batch = stage.batch) :
    Refines { s with retired := xs.foldl (fun retired x =>
      insertIgnore retired ⟨some (kind, identity x), owner, stage.batch⟩) s.retired } spec := by
  induction xs generalizing s with
  | nil => exact h
  | cons x xs ih =>
    have htask := h.addTask hstage owner (some (kind, identity x)) ?_
    · exact ih htask hstage fun y hy => hrow y (mem_cons_of_mem x hy)
    · intro _ _ hfact
      cases hfact
      exact hrow x mem_cons_self

theorem Refines.deleteKeys (h : Refines s ⟨published, some staged⟩) (hstage : s.stage = some stage)
    {key : ω}
    (howner : stage.owners.get? key = some owner) (kind : Kind) (keys : List ι) :
    Refines (deleteKeys kind owner stage.batch keys s)
      ⟨published, some { staged with
          facts := keys.foldl (fun facts identity => facts.set key kind identity none)
            staged.facts }⟩ := by
  have hwrites := h.writes hstage howner kind keys id (fun _ => none) (by simp)
  exact hwrites.addTasks hstage owner kind keys id fun identity hidentity =>
    mem_foldl_put hidentity (fun identity => ⟨⟨kind, owner, identity⟩, stage.batch, none⟩) s.rows

omit [DecidableEq ι] in
theorem Refines.list (h : Refines s ⟨published, some staged⟩) (hstage : s.stage = some stage)
    {key : ω}
    (howner : stage.owners.get? key = some owner) (kind : Kind) (identities : List ι)
    (inventory : List (Seen ι))
    (hinventory : inventory =
      if (owner, kind) ∈ stage.reconciling ∧ (owner, kind) ∉ stage.fresh then
        identities.map fun identity => ⟨stage.batch, kind, owner, identity⟩ else []) :
    Refines { s with seen := s.seen ++ inventory }
      ⟨published, some { staged with
          listed := fun key' kind' =>
            if key' = key ∧ kind' = kind then staged.listed key' kind' ++ identities
            else staged.listed key' kind' }⟩ := by
  have hget := (h.sound.declared stage hstage key owner howner).1
  have hmem : ∀ row ∈ inventory, row.batch = stage.batch ∧ row.kind = kind ∧ row.owner = owner ∧
      (owner, kind) ∈ stage.reconciling := by
    intro row hrow
    rw [hinventory] at hrow
    split at hrow
    · obtain ⟨identity, -, rfl⟩ := List.mem_map.mp hrow
      exact ⟨rfl, rfl, rfl, by tauto⟩
    · cases hrow
  obtain ⟨_, hspec, hshows, hlisted⟩ := h.stage stage hstage
  cases hspec
  constructor
  · exact { h.sound with
      listings := by
        intro row hrow
        rcases mem_append.mp hrow with hrow | hrow
        · exact h.sound.listings row hrow
        · rw [(hmem row hrow).1]
          exact h.sound.below _ (h.sound.open_ stage hstage) }
  · exact h.published
  · intro stage' hstage'
    cases hstage.symm.trans hstage'
    refine ⟨_, rfl, hshows, ?_⟩
    exact { hlisted with
      started := by
        intro row hrow hbatch
        rcases mem_append.mp hrow with hrow | hrow
        · exact hlisted.started row hrow hbatch
        · obtain ⟨-, hkind, howner', hpair⟩ := hmem row hrow
          rw [hkind, howner']
          exact .inl hpair
      listed := by
        intro key' owner' kind' howner' hpair hfresh identity
        have hget' := (h.sound.declared stage hstage key' owner' howner').1
        have hold := hlisted.listed key' owner' kind' howner' hpair hfresh identity
        rw [mem_append, hold]
        by_cases hsame : key' = key ∧ kind' = kind
        · obtain ⟨rfl, rfl⟩ := hsame
          cases hget.symm.trans hget'
          rw [hinventory, if_pos ⟨hpair, hfresh⟩]
          simp
        · simp only [if_neg hsame]
          constructor
          · rintro (hlist | hnew)
            · exact hlist
            · obtain ⟨-, rfl, rfl, -⟩ := hmem _ hnew
              exact absurd ⟨h.sound.owner key' key _ hget' hget, rfl⟩ hsame
          · exact .inl
      fresh := by
        intro key' owner' kind' howner' hpair row hrow hkind hsame
        obtain ⟨hbatch, hlive⟩ := hlisted.fresh key' owner' kind' howner' hpair row hrow hkind hsame
        refine ⟨hbatch, fun hvalue => ?_⟩
        have hmem := hlive hvalue
        dsimp only
        split
        · exact mem_append_left _ hmem
        · exact hmem }
  · intro hnone
    cases hstage.symm.trans hnone

/-! ## upserts and deletes -/

theorem Facts.foldl_changed (key : ω) (kind : Kind) {items : List (ι × ν)}
    (hdistinct : (items.map Prod.fst).Nodup) (changed : ι × ν → Bool)
    (hsame : ∀ item ∈ items, changed item = false → facts key kind item.1 = some item.2) :
    (items.filter changed).foldl (fun facts item => facts.set key kind item.1 (some item.2)) facts =
      items.foldl (fun facts item => facts.set key kind item.1 (some item.2)) facts := by
  induction items generalizing facts with
  | nil => rfl
  | cons item items ih =>
    rw [map_cons, nodup_cons] at hdistinct
    cases hchanged : changed item with
    | false =>
      rw [filter_cons_of_neg (by simp [hchanged]), foldl_cons,
        Facts.set_same (hsame item mem_cons_self hchanged)]
      exact ih hdistinct.2 fun other hother => hsame other (mem_cons_of_mem item hother)
    | true =>
      rw [filter_cons_of_pos hchanged, foldl_cons, foldl_cons]
      apply ih hdistinct.2
      intro other hother hnot
      have hne : other.1 ≠ item.1 := by
        intro hsame'
        exact hdistinct.1 (hsame' ▸ mem_map_of_mem hother)
      simp only [Facts.set, hne, and_false, if_false]
      exact hsame other (mem_cons_of_mem item hother) hnot

variable [DecidableEq ν]

theorem Refines.previous (h : Refines s ⟨published, some staged⟩) (hstage : s.stage = some stage)
    {key : ω} (howner : stage.owners.get? key = some owner) {kind : Kind}
    {identity : ι} {row : Version (FactKey ι) ν}
    (hrow : previous s stage.batch ⟨kind, owner, identity⟩ = some row) :
    staged.facts key kind identity = row.value := by
  obtain ⟨_, hspec, hshows, -⟩ := h.stage stage hstage
  cases hspec
  have hget := (h.sound.declared stage hstage key owner howner).1
  have hfound := find?_some hrow
  rw [decide_eq_true_eq] at hfound
  have hreads := hfound.2.readsAs h.sound.single
  rw [hfound.1] at hreads
  exact (hshows.1 key owner hget kind identity).unique hreads

theorem refines_upsert {σ : Type} [DecidableEq σ] {sign : ν → σ}
    (hsign : Function.Injective sign) (h : Refines s spec)
    {kind : Kind} {key : ω} {items : List (ι × ν)} (hdistinct : (items.map Prod.fst).Nodup)
    (hupsert : upsert sign kind key items s = some s') :
    Refines s' (spec.step (.upsert kind key items)) := by
  unfold upsert at hupsert
  split at hupsert
  · cases hupsert
  · rename_i stage hstage
    split at hupsert
    · cases hupsert
    · rename_i owner howner
      extract_lets track fresh changed retire inventory at hupsert
      split at hupsert
      · cases hupsert
      · split at hupsert
        · cases hupsert
        · obtain ⟨staged, hspec, -, -⟩ := h.stage stage hstage
          obtain ⟨published, _⟩ := spec
          cases hspec
          cases hupsert
          have hlist := h.list hstage howner kind (items.map Prod.fst) inventory ?_
          · have hwrites := hlist.writes hstage howner kind changed Prod.fst
              (fun item => some item.2) ?_
            · have htasks := hwrites.addTasks hstage owner kind retire Prod.fst ?_
              · have hstart := htasks.start hstage kind owner
                have hfacts : changed.foldl (fun facts item => Facts.set facts key kind item.1
                    (some item.2)) staged.facts = items.foldl (fun facts item =>
                    Facts.set facts key kind item.1 (some item.2)) staged.facts := by
                  apply Facts.foldl_changed key kind hdistinct
                  intro item _ hnot
                  split at hnot
                  · cases hnot
                  · rename_i row hrow
                    split at hrow
                    · cases hrow
                    · rw [h.previous hstage howner hrow]
                      simp only [ne_eq, decide_not, Bool.not_eq_false', decide_eq_true_eq] at hnot
                      obtain ⟨value, hvalue, hsigned⟩ := Option.map_eq_some_iff.mp hnot
                      rw [hvalue, hsign hsigned]
                simp only [Spec.step, StageSpec.step, Option.map_some, ← hfacts]
                exact hstart
              · intro item hitem
                have hmem : item ∈ changed := by
                  simp only [retire] at hitem
                  split at hitem
                  · cases hitem
                  · exact mem_of_mem_filter hitem
                exact mem_foldl_put hmem
                  (fun item => ⟨⟨kind, owner, item.1⟩, stage.batch, some item.2⟩) s.rows
            · intro _ item hitem _
              simp only [and_self, if_true]
              exact mem_append_right _ (mem_map_of_mem (mem_of_mem_filter hitem))
          · by_cases hpair : (owner, kind) ∈ stage.reconciling <;>
              by_cases hfresh : (owner, kind) ∈ stage.fresh <;>
              simp [inventory, track, fresh, hpair, hfresh]

omit [DecidableEq ν] in
theorem refines_delete (h : Refines s spec) {kind : Kind}
    {key : ω} {keys : List ι} (hdelete : delete kind key keys s = some s') :
    Refines s' (spec.step (.delete kind key keys)) := by
  unfold delete at hdelete
  split at hdelete
  · cases hdelete
  · rename_i stage hstage
    split at hdelete
    · cases hdelete
    · rename_i owner howner
      obtain ⟨staged, hspec, -, -⟩ := h.stage stage hstage
      obtain ⟨published, _⟩ := spec
      cases hspec
      cases hdelete
      have hkeys := (h.deleteKeys hstage howner kind keys).start hstage kind owner
      exact hkeys

end Codexon.PreparedStore
