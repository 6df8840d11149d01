import Codexon.PreparedStore

/-!
# Codexon.PreparedStore.Table

What the store is for: one map of facts per owner, and for an open stage the map
it would publish.  `Spec.step` says what each call does to them when it does not
raise; maintenance does nothing.

`Sound` is what the tables keep, and `Shows` that every reader gets the maps.
-/

namespace Codexon.PreparedStore

variable {ω ι ν : Type} [DecidableEq ω]

/-! ## the abstract store -/

abbrev Facts (ω ι ν : Type) := ω → Kind → ι → Option ν

/-- The facts of a stage, and the identities listed since an inventory began. -/
structure StageSpec (ω ι ν : Type) where
  facts : Facts ω ι ν
  listed : ω → Kind → List ι

/-- The published facts and those of the open stage. -/
structure Spec (ω ι ν : Type) where
  published : Facts ω ι ν
  stage : Option (StageSpec ω ι ν)

/-- Nothing was ever published. -/
def Spec.empty : Spec ω ι ν := ⟨fun _ _ _ => none, none⟩

section

variable [DecidableEq ι]

def Facts.set (facts : Facts ω ι ν) (key : ω) (kind : Kind) (identity : ι) (value : Option ν) :
    Facts ω ι ν :=
  fun key' kind' identity' =>
    if key' = key ∧ kind' = kind ∧ identity' = identity then value else facts key' kind' identity'

def StageSpec.step (stage : StageSpec ω ι ν) : Event ω ι ν → StageSpec ω ι ν
  | .startReconcile kind key =>
    { stage with
      listed := fun key' kind' =>
        if key' = key ∧ kind' = kind then [] else stage.listed key' kind' }
  | .upsert kind key items =>
    { facts := items.foldl (fun facts item => facts.set key kind item.1 (some item.2)) stage.facts
      listed := fun key' kind' =>
        if key' = key ∧ kind' = kind then stage.listed key' kind' ++ items.map Prod.fst
        else stage.listed key' kind' }
  | .delete kind key keys =>
    { stage with
      facts := keys.foldl (fun facts identity => facts.set key kind identity none) stage.facts }
  | .finishReconcile _ kind key =>
    { stage with
      facts := fun key' kind' identity =>
        if key' = key ∧ kind' = kind ∧ identity ∉ stage.listed key kind then none
        else stage.facts key' kind' identity }
  | _ => stage

/-- What a call that does not raise does to the facts. -/
def Spec.step (spec : Spec ω ι ν) : Event ω ι ν → Spec ω ι ν
  | .begin_ => { spec with stage := some ⟨spec.published, fun _ _ => []⟩ }
  | .publish => ⟨(spec.stage.map StageSpec.facts).getD spec.published, none⟩
  | .abort | .reopen => { spec with stage := none }
  | event => { spec with stage := spec.stage.map (·.step event) }

end

/-! ## the tables -/

def State.marker (s : State ω ι ν) : Option Nat := s.stage.map Stage.batch

/-- What the tables keep, whatever is written. -/
structure Sound (s : State ω ι ν) : Prop where
  ids : (s.publications.map Prod.fst).Nodup
  below : ∀ p ∈ s.publications, p.1 < s.nextBatch
  staged : ∀ p ∈ s.publications, p.2 = .staged → s.marker = some p.1
  open_ : ∀ stage, s.stage = some stage → (stage.batch, .staged) ∈ s.publications
  newest : ∀ stage, s.stage = some stage → ∀ p ∈ s.publications, p.1 ≤ stage.batch
  single : Version.Single s.rows
  written : ∀ row ∈ s.rows, ∃ p ∈ s.publications, p.1 = row.batch
  superseded : ∀ task ∈ s.retired, ∀ kind identity, task.fact = some (kind, identity) →
    Visible s s.marker task.batch →
    ∀ old ∈ s.rows, old.key = ⟨kind, task.owner, identity⟩ → old.batch < task.batch →
    ∃ new ∈ s.rows, new.key = ⟨kind, task.owner, identity⟩ ∧ task.batch ≤ new.batch ∧
      (new.batch = task.batch ∨ Visible s none new.batch)
  tasks : ∀ task ∈ s.retired, task.batch < s.nextBatch
  owner : ∀ key key' owner, s.owners.get? key = some owner → s.owners.get? key' = some owner →
    key = key'
  owned : ∀ row ∈ s.rows, ∃ key, s.owners.get? key = some row.key.owner
  declared : ∀ stage, s.stage = some stage → ∀ key owner, stage.owners.get? key = some owner →
    s.owners.get? key = some owner ∧ ∃ v ∈ s.versions, v.owner = owner ∧ v.batch = stage.batch
  listings : ∀ row ∈ s.seen, row.batch < s.nextBatch

def Shows (s : State ω ι ν) (marker : Option Nat) (facts : Facts ω ι ν) : Prop :=
  (∀ key owner, s.owners.get? key = some owner → ∀ kind identity,
    Version.ReadsAs (Visible s marker) s.rows ⟨kind, owner, identity⟩ (facts key kind identity)) ∧
  ∀ key, s.owners.get? key = none → ∀ kind identity, facts key kind identity = none

/-- The inventories of the stage list what the `seen` table has, or, where they are fresh,
all that is live. -/
structure Listed (s : State ω ι ν) (stage : Stage ω) (spec : StageSpec ω ι ν) : Prop where
  opened : ∀ pair ∈ stage.reconciling, ∃ key, stage.owners.get? key = some pair.1
  unfinished : ∀ pair ∈ stage.fresh, pair ∈ stage.reconciling
  started : ∀ row ∈ s.seen, row.batch = stage.batch →
    (row.owner, row.kind) ∈ stage.reconciling ∨ (row.owner, row.kind) ∈ stage.reconciled
  listed : ∀ key owner kind, stage.owners.get? key = some owner →
    (owner, kind) ∈ stage.reconciling → (owner, kind) ∉ stage.fresh →
    ∀ identity, ⟨stage.batch, kind, owner, identity⟩ ∈ s.seen ↔ identity ∈ spec.listed key kind
  fresh : ∀ key owner kind, stage.owners.get? key = some owner → (owner, kind) ∈ stage.fresh →
    ∀ row ∈ s.rows, row.key.kind = kind → row.key.owner = owner →
      row.batch = stage.batch ∧ (row.value ≠ none → row.key.identity ∈ spec.listed key kind)

/-- The store keeps the abstract store. -/
structure Refines (s : State ω ι ν) (spec : Spec ω ι ν) : Prop where
  sound : Sound s
  published : Shows s none spec.published
  stage : ∀ stage, s.stage = some stage → ∃ staged, spec.stage = some staged ∧
    Shows s (some stage.batch) staged.facts ∧ Listed s stage staged
  idle : s.stage = none → spec.stage = none

theorem refines_init : Refines ({} : State ω ι ν) Spec.empty where
  sound := by constructor <;> simp [State.marker, Version.Single, Dict.get?]
  published := ⟨by simp [Dict.get?], fun _ _ _ _ => rfl⟩
  stage _ h := nomatch h
  idle _ := rfl

end Codexon.PreparedStore
