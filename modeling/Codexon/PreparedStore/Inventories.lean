import Mathlib.Data.Finset.Card
import Codexon.PreparedStore.Staging
import Codexon.Keyed

/-!
# Codexon.PreparedStore.Inventories

A complete inventory leaves a kind of an owner with what it listed: the pages of
`finish_reconcile` delete the rest, and a first inventory has no rest.
-/

namespace Codexon.PreparedStore

open List

variable {ω ι ν : Type} [DecidableEq ω]

/-! ## starting -/

variable {s : State ω ι ν}

variable {kind : Kind}

theorem refines_startReconcile [DecidableEq ι] {s' : State ω ι ν} {spec : Spec ω ι ν}
    (h : Refines s spec) {key : ω} (hstart : startReconcile kind key s = some s') :
    Refines s' (spec.step (.startReconcile kind key)) := by
  unfold startReconcile at hstart
  split at hstart
  · cases hstart
  · rename_i stage hstage
    split at hstart
    · cases hstart
    · rename_i owner howner
      split at hstart
      · cases hstart
      · rename_i hnew
        extract_lets stage' at hstart
        obtain ⟨staged, hspec, -, hlisted⟩ := h.stage stage hstage
        obtain ⟨published, _⟩ := spec
        cases hspec
        cases hstart
        rw [not_or] at hnew
        have hstage' : stage'.batch = stage.batch ∧ stage'.owners = stage.owners ∧
            stage'.reconciling = stage.reconciling ∧ stage'.reconciled = stage.reconciled ∧
            stage'.fresh = stage.fresh := by
          simp only [stage', Stage.start]
          split <;> simp
        obtain ⟨hbatch, howners, hreconciling, hreconciled, hfresh⟩ := hstage'
        have hget := (h.sound.declared stage hstage key owner howner).1
        -- the owner of a declared key has no other key
        have hkey : ∀ key', stage.owners.get? key' = some owner → key' = key := by
          intro key' howner'
          exact h.sound.owner key' key owner
            (h.sound.declared stage hstage key' owner howner').1 hget
        refine h.restage hstage ⟨?_, ?_, ?_, ?_, ?_⟩ hbatch howners
        · intro pair hpair
          rw [howners]
          simp only [hreconciling, mem_cons] at hpair
          rcases hpair with rfl | hpair
          · exact ⟨key, howner⟩
          · exact hlisted.opened pair hpair
        · intro pair hpair
          simp only [hreconciling, hfresh, mem_cons] at hpair ⊢
          split at hpair
          · exact .inr (hlisted.unfinished pair hpair)
          · exact (mem_cons.mp hpair).imp_right (hlisted.unfinished pair)
        · intro row hrow hsame
          simp only [hreconciling, hreconciled, mem_cons]
          rw [hbatch] at hsame
          have hstarted := hlisted.started row hrow hsame
          tauto
        · intro key' owner' kind' howner' hpair hnot identity
          simp only [hreconciling, hfresh, hbatch, howners, mem_cons] at howner' hpair hnot ⊢
          by_cases hsame : key' = key ∧ kind' = kind
          · obtain ⟨rfl, rfl⟩ := hsame
            cases howner.symm.trans howner'
            simp only [and_self, if_true, not_mem_nil, iff_false]
            intro hseen
            rcases hlisted.started _ hseen rfl with hopen | hdone
            · exact hnew.1 hopen
            · exact hnew.2 hdone
          · rw [if_neg hsame]
            have hother : (owner', kind') ≠ (owner, kind) := by
              rintro ⟨⟩
              exact hsame ⟨hkey key' howner', rfl⟩
            have hpair' := hpair.resolve_left hother
            apply hlisted.listed key' owner' kind' howner' hpair'
            intro hmem
            apply hnot
            split
            · exact hmem
            · exact mem_cons_of_mem _ hmem
        · intro key' owner' kind' howner' hpair row hrow hkind hsame
          simp only [hfresh, hbatch, howners] at howner' hpair ⊢
          have hold : (owner', kind') ∈ stage.fresh →
              row.batch = stage.batch ∧ (row.value ≠ none → row.key.identity ∈
                if key' = key ∧ kind' = kind then [] else staged.listed key' kind') := by
            intro hmem
            have hother : ¬ (key' = key ∧ kind' = kind) := by
              rintro ⟨rfl, rfl⟩
              cases howner.symm.trans howner'
              exact hnew.1 (hlisted.unfinished _ hmem)
            rw [if_neg hother]
            exact hlisted.fresh key' owner' kind' howner' hmem row hrow hkind hsame
          split at hpair
          · exact hold hpair
          · rename_i hempty
            rcases mem_cons.mp hpair with hfirst | hmem
            · obtain ⟨rfl, rfl⟩ := Prod.mk.inj hfirst
              exact absurd (any_eq_true.mpr ⟨row, hrow, by simp [hkind, hsame]⟩) hempty
            · exact hold hmem

/-! ## finishing -/

theorem Facts.foldl_none [DecidableEq ι] (facts : Facts ω ι ν) (key : ω) (kind : Kind)
    (keys : List ι) (key' : ω) (kind' : Kind) (identity : ι) :
    keys.foldl (fun facts identity => facts.set key kind identity none) facts key' kind' identity =
      if key' = key ∧ kind' = kind ∧ identity ∈ keys then none else facts key' kind' identity := by
  induction keys generalizing facts with
  | nil => simp
  | cons first keys ih =>
    rw [foldl_cons, ih]
    simp only [Facts.set, mem_cons]
    grind

def StageSpec.withdraw [DecidableEq ι] (staged : StageSpec ω ι ν) (key : ω) (kind : Kind) :
    Facts ω ι ν :=
  fun key' kind' identity =>
    if key' = key ∧ kind' = kind ∧ identity ∉ staged.listed key kind then none
    else staged.facts key' kind' identity

variable {staged : StageSpec ω ι ν}

theorem StageSpec.withdraw_eq [DecidableEq ι] {key : ω}
    (h : ∀ identity, identity ∉ staged.listed key kind → staged.facts key kind identity = none) :
    staged.withdraw key kind = staged.facts := by
  funext key' kind' identity
  unfold StageSpec.withdraw
  split
  · rename_i hnot
    obtain ⟨rfl, rfl, hnot⟩ := hnot
    exact (h identity hnot).symm
  · rfl

theorem StageSpec.withdraw_deleted [DecidableEq ι] {key : ω}
    {keys : List ι} (h : ∀ identity ∈ keys, identity ∉ staged.listed key kind) :
    StageSpec.withdraw
      { staged with
        facts := keys.foldl (fun facts identity => facts.set key kind identity none) staged.facts }
      key kind = staged.withdraw key kind := by
  funext key' kind' identity
  simp only [StageSpec.withdraw, Facts.foldl_none]
  grind

variable {published : Facts ω ι ν} {stage : Stage ω}

theorem Refines.withdraw_fresh [DecidableEq ι] (h : Refines s ⟨published, some staged⟩)
    (hstage : s.stage = some stage) {key : ω} {owner : Nat}
    (howner : stage.owners.get? key = some owner)
    (hfresh : (owner, kind) ∈ stage.fresh) : staged.withdraw key kind = staged.facts := by
  obtain ⟨_, hspec, hshows, hlisted⟩ := h.stage stage hstage
  cases hspec
  have hget := (h.sound.declared stage hstage key owner howner).1
  apply StageSpec.withdraw_eq
  intro identity hnot
  by_contra hvalue
  obtain ⟨value, hvalue⟩ := Option.ne_none_iff_exists'.mp hvalue
  obtain ⟨row, hlatest, hkey, hlive⟩ := (hshows.1 key owner hget kind identity value).mpr hvalue
  have hlist := (hlisted.fresh key owner kind howner hfresh row hlatest.1 (by rw [hkey])
    (by rw [hkey])).2 (by simp [hlive])
  rw [hkey] at hlist
  exact hnot hlist

theorem Refines.finish (h : Refines s ⟨published, some staged⟩)
    (hstage : s.stage = some stage)
    (owner : Nat) (kind : Kind) :
    Refines { s with stage := some { stage with
        reconciling := stage.reconciling.filter (· ≠ (owner, kind))
        reconciled := (owner, kind) :: stage.reconciled
        fresh := stage.fresh.filter (· ≠ (owner, kind)) } } ⟨published, some staged⟩ := by
  obtain ⟨_, hspec, -, hlisted⟩ := h.stage stage hstage
  cases hspec
  have hlisted' : Listed s { stage with
      reconciling := stage.reconciling.filter (· ≠ (owner, kind))
      reconciled := (owner, kind) :: stage.reconciled
      fresh := stage.fresh.filter (· ≠ (owner, kind)) } staged := by
    constructor
    · exact fun pair hpair => hlisted.opened pair (mem_of_mem_filter hpair)
    · intro pair hpair
      obtain ⟨hfresh, hne⟩ := List.mem_filter.mp hpair
      exact List.mem_filter.mpr ⟨hlisted.unfinished pair hfresh, hne⟩
    · intro row hrow hbatch
      have hstarted := hlisted.started row hrow hbatch
      simp only [List.mem_filter, mem_cons, decide_eq_true_eq]
      tauto
    · intro key' owner' kind' howner' hpair hnot
      obtain ⟨hpair, hne⟩ := List.mem_filter.mp hpair
      exact hlisted.listed key' owner' kind' howner' hpair
        fun hfresh => hnot (List.mem_filter.mpr ⟨hfresh, hne⟩)
    · intro key' owner' kind' howner' hpair
      exact hlisted.fresh key' owner' kind' howner' (mem_of_mem_filter hpair)
  exact h.restage hstage hlisted' rfl rfl

variable [LinearOrder ι] [DecidableEq ν]

theorem Refines.mem_missing (h : Refines s ⟨published, some staged⟩) (hstage : s.stage = some stage)
    {key : ω} {owner : Nat} (howner : stage.owners.get? key = some owner)
    (hpair : (owner, kind) ∈ stage.reconciling) (hfresh : (owner, kind) ∉ stage.fresh)
    (after : Option ι) (identity : ι) : identity ∈ missing s stage.batch kind owner after ↔
      staged.facts key kind identity ≠ none ∧ identity ∉ staged.listed key kind ∧
        ∀ cursor ∈ after, cursor < identity := by
  obtain ⟨_, hspec, hshows, hlisted⟩ := h.stage stage hstage
  cases hspec
  have hget := (h.sound.declared stage hstage key owner howner).1
  have hreads := hshows.1 key owner hget kind
  have hseen := hlisted.listed key owner kind howner hpair hfresh
  simp only [missing, mem_mergeSort, List.mem_map, List.mem_filter, decide_eq_true_eq]
  constructor
  · rintro ⟨⟨⟨kind', owner', identity'⟩, batch, value⟩,
      ⟨hrow, rfl, rfl, hlive, hafter, hlatest, hnot⟩, rfl⟩
    have hvalue := (hreads identity').unique (hlatest.readsAs h.sound.single)
    refine ⟨?_, fun hlist => hnot ((hseen identity').mpr hlist), hafter⟩
    rw [hvalue]
    exact Option.isSome_iff_ne_none.mp hlive
  · rintro ⟨hvalue, hnot, hafter⟩
    obtain ⟨value, hvalue⟩ := Option.ne_none_iff_exists'.mp hvalue
    obtain ⟨row, hlatest, hkey, hlive⟩ := (hreads identity value).mpr hvalue
    refine ⟨row, ⟨hlatest.1, ?_⟩, by rw [hkey]⟩
    simp only [hkey, hlive, Option.isSome_some, true_and]
    exact ⟨hafter, hlatest, fun hlist => hnot ((hseen identity).mp hlist)⟩

omit [DecidableEq ω] in
theorem length_missing_le (s : State ω ι ν) (batch : Nat) (kind : Kind) (owner : Nat)
    (after : Option ι) : (missing s batch kind owner after).length ≤ s.rows.length := by
  simp only [missing, length_mergeSort, length_map]
  exact length_filter_le _ _

omit [DecidableEq ω] in
theorem stage_deleteMissing (limit batch : Nat) (kind : Kind) (owner fuel : Nat) (after : Option ι)
    (s : State ω ι ν) : (deleteMissing limit batch kind owner fuel after s).stage = s.stage := by
  induction fuel generalizing after s with
  | zero => rfl
  | succ fuel ih =>
    simp only [deleteMissing]
    split
    · rfl
    · exact ih _ _

/-- **The loop of `finish_reconcile`** withdraws what was not listed: what is not after the
cursor is gone, and every page moves the cursor. -/
theorem refines_deleteMissing {limit : Nat} (hlimit : 0 < limit)
    {key : ω} {owner : Nat} (howner : stage.owners.get? key = some owner)
    (hpair : (owner, kind) ∈ stage.reconciling) (hfresh : (owner, kind) ∉ stage.fresh)
    (fuel : Nat) (after : Option ι) (h : Refines s ⟨published, some staged⟩)
    (hstage : s.stage = some stage)
    (hfuel : (missing s stage.batch kind owner after).toFinset.card < fuel)
    (hdone : ∀ identity, identity ∉ staged.listed key kind → (∃ cursor ∈ after, identity ≤ cursor) →
      staged.facts key kind identity = none) :
    Refines (deleteMissing limit stage.batch kind owner fuel after s)
      ⟨published, some { staged with facts := staged.withdraw key kind }⟩ := by
  induction fuel generalizing after s staged with
  | zero => omega
  | succ fuel ih =>
    have hmem := h.mem_missing hstage howner hpair hfresh after
    have hgone : ∀ identity, identity ∉ staged.listed key kind →
        identity ∉ missing s stage.batch kind owner after →
        staged.facts key kind identity = none := by
      intro identity hnot hmissing
      by_contra hvalue
      by_cases hcursor : ∃ cursor ∈ after, identity ≤ cursor
      · exact hvalue (hdone identity hnot hcursor)
      · exact hmissing ((hmem identity).mpr ⟨hvalue, hnot, fun cursor hcursor' =>
          not_le.mp fun hle => hcursor ⟨cursor, hcursor', hle⟩⟩)
    simp only [deleteMissing]
    split
    · rename_i hnone
      rw [getLast?_eq_none_iff, take_eq_nil_iff] at hnone
      have hempty := hnone.resolve_left (by omega)
      rw [StageSpec.withdraw_eq]
      · exact h
      · intro identity hnot
        apply hgone identity hnot
        simp [hempty]
    · rename_i last hlast
      set page := (missing s stage.batch kind owner after).take limit with hpage
      have hlast' : last ∈ page := mem_of_getLast? hlast
      have hlisted : ∀ identity ∈ page, identity ∉ staged.listed key kind := by
        intro identity hidentity
        exact ((hmem identity).mp (mem_of_mem_take hidentity)).2.1
      have hdelete := h.deleteKeys hstage howner kind page
      have hmem' := hdelete.mem_missing hstage howner hpair hfresh (some last)
      have hafter := ((hmem last).mp (mem_of_mem_take hlast')).2.2
      have hrec := ih (some last) hdelete hstage ?_ ?_
      · rw [StageSpec.withdraw_deleted hlisted] at hrec
        exact hrec
      · have hsub : (missing (deleteKeys kind owner stage.batch page s) stage.batch kind owner
            (some last)).toFinset ⊆ (missing s stage.batch kind owner after).toFinset := by
          intro identity hidentity
          rw [mem_toFinset] at hidentity ⊢
          obtain ⟨hvalue, hnot, hlt⟩ := (hmem' identity).mp hidentity
          refine (hmem identity).mpr ⟨fun hnone => hvalue ?_, hnot, fun cursor hcursor => ?_⟩
          · simp [Facts.foldl_none, hnone]
          · exact (hafter cursor hcursor).trans (hlt last rfl)
        have hcard := Finset.card_lt_card ((Finset.ssubset_iff_of_subset hsub).mpr ⟨last, ?_, ?_⟩)
        · omega
        · exact mem_toFinset.mpr (mem_of_mem_take hlast')
        · rw [mem_toFinset]
          intro hidentity
          exact lt_irrefl last (((hmem' last).mp hidentity).2.2 last rfl)
      · rintro identity hnot ⟨_, ⟨⟩, hle⟩
        simp only [Facts.foldl_none, true_and]
        split
        · rfl
        · rename_i hkept
          apply hgone identity hnot
          intro hmissing
          have hsorted : (missing s stage.batch kind owner after).Pairwise (· ≤ ·) :=
            pairwise_mergeSort' (· ≤ ·) _
          exact hkept (mem_take_of_le hsorted hlast' hmissing hle)

theorem refines_finishReconcile {limit : Nat} (hlimit : 0 < limit) {s' : State ω ι ν}
    {spec : Spec ω ι ν} (h : Refines s spec) {key : ω}
    (hfinish : finishReconcile limit kind key s = some s') :
    Refines s' (spec.step (.finishReconcile limit kind key)) := by
  unfold finishReconcile at hfinish
  split at hfinish
  · cases hfinish
  · rename_i stage hstage
    split at hfinish
    · cases hfinish
    · rename_i owner howner
      obtain ⟨staged, hspec, -, -⟩ := h.stage stage hstage
      obtain ⟨published, _⟩ := spec
      cases hspec
      simp only at hfinish
      split at hfinish
      · cases hfinish
      · rename_i hpair
        rw [not_not] at hpair
        have hwithdrawn : Refines s' ⟨published,
            some { staged with facts := staged.withdraw key kind }⟩ := by
          split at hfinish
          · rename_i hfresh
            cases hfinish
            rw [h.withdraw_fresh hstage howner hfresh]
            exact h.finish hstage owner kind
          · rename_i hfresh
            cases hfinish
            have hloop := refines_deleteMissing hlimit howner hpair hfresh (s.rows.length + 1) none
              h hstage ?_ (by simp)
            · exact hloop.finish ((stage_deleteMissing ..).trans hstage) owner kind
            · have hcard := toFinset_card_le (missing s stage.batch kind owner none)
              have hlength := length_missing_le s stage.batch kind owner none
              omega
        exact hwithdrawn

end Codexon.PreparedStore
