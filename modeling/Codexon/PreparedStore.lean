import Mathlib.Data.List.Sort
import Codexon.Dict
import Codexon.Run
import Codexon.Versions

/-!
# Codexon.PreparedStore

The fact tables of `PreparedStore` in `cachemonitor/prepared_store.py`: a stage
writes versions under its batch, `publish` makes the batch visible, and
`maintain` deletes what no reader needs, a few rows at a time.

The five fact tables are one table of versions whose key has the kind, the owner
and the identity of the fact.  Of `catalog_orders` and the checkpoint tables only
the batches they refer to matter here (`others`, `pins`).  `SELECT … LIMIT`
without `ORDER BY` may return any rows, so a slice takes a `Plan`.
-/

namespace Codexon.PreparedStore

/-! ## tables -/

/-- The fact tables. -/
inductive Kind where
  | calls
  | requests
  | candidates
  | headers
  | sections
deriving DecidableEq

def KINDS : List Kind := [.calls, .requests, .candidates, .headers, .sections]

/-- `publications.state` -/
inductive PublicationState where
  /-- 0 -/
  | staged
  /-- 1 -/
  | published
  /-- -1 -/
  | abandoned
deriving DecidableEq

instance lawfulState : LawfulBEq (Nat × PublicationState) := inferInstance

/-- The primary key of a fact, but for its batch. -/
structure FactKey (ι : Type) where
  kind : Kind
  owner : Nat
  identity : ι
deriving DecidableEq

/-- A row of `retired`; the rows of kind `owner` name no fact. -/
structure Retired (ι : Type) where
  fact : Option (Kind × ι)
  owner : Nat
  batch : Nat
deriving DecidableEq

/-- A row of `seen`. -/
structure Seen (ι : Type) where
  batch : Nat
  kind : Kind
  owner : Nat
  identity : ι
deriving DecidableEq

/-- A row of `owner_versions`. -/
structure OwnerVersion where
  owner : Nat
  batch : Nat
  deleted : Bool
deriving DecidableEq

/-- An open `Stage`. -/
structure Stage (ω : Type) where
  batch : Nat
  owners : Dict ω Nat := {}
  factsStarted : List Nat := []
  reconciling : List (Nat × Kind) := []
  reconciled : List (Nat × Kind) := []
  /-- `empty_reconciliations` -/
  fresh : List (Nat × Kind) := []
  failed : Bool := false

/-- The database and the open stage.  `ω` is the `(home, sid)` of an owner, `ι` the
identity of a fact and `ν` its columns. -/
structure State (ω ι ν : Type) where
  publications : List (Nat × PublicationState) := []
  nextBatch : Nat := 1
  rows : List (Version (FactKey ι) ν) := []
  retired : List (Retired ι) := []
  seen : List (Seen ι) := []
  owners : Dict ω Nat := {}
  versions : List OwnerVersion := []
  /-- `owner_heads` -/
  heads : Dict Nat Nat := {}
  ownerRetired : List (Nat × Nat) := []
  ledgerPending : List Nat := []
  others : List Nat := []
  pins : List Nat := []
  generation : Nat := 0
  stage : Option (Stage ω) := none

/-- The order in which a query without `ORDER BY` returns its rows. -/
structure Plan where
  order : ∀ {α : Type}, List α → List α
  perm : ∀ {α : Type} (rows : List α), (order rows).Perm rows

section

variable {ω ι ν : Type} [DecidableEq ω] [DecidableEq ι] [DecidableEq ν]

/-! ## reading -/

/-- `p.state=1 OR p.id=:batch`, of the publication of a row; there is no marker for a
reader of the published generation. -/
def Visible (s : State ω ι ν) (marker : Option Nat) (batch : Nat) : Prop :=
  ∃ p ∈ s.publications, p.1 = batch ∧ (p.2 = .published ∨ marker = some batch)

instance (s : State ω ι ν) (marker : Option Nat) : DecidablePred (Visible s marker) :=
  fun batch => inferInstanceAs
    (Decidable (∃ p ∈ s.publications, p.1 = batch ∧ (p.2 = .published ∨ marker = some batch)))

def previous (s : State ω ι ν) (batch : Nat) (key : FactKey ι) :
    Option (Version (FactKey ι) ν) :=
  s.rows.find? fun row => row.key = key ∧ Version.Latest (Visible s (some batch)) s.rows row

/-- A fact as `PreparedReader` and `read_staged` select it: the version that passes
`_latest`, where it is not deleted. -/
def read (s : State ω ι ν) (marker : Option Nat) (key : ω) (kind : Kind) (identity : ι) :
    Option ν :=
  match s.owners.get? key with
  | none => none
  | some owner =>
    (s.rows.find? fun row => row.key = ⟨kind, owner, identity⟩ ∧
      Version.Latest (Visible s marker) s.rows row).bind (·.value)

/-! ## pruning -/

def insertIgnore {α : Type} [DecidableEq α] (rows : List α) (row : α) : List α :=
  if row ∈ rows then rows else rows ++ [row]

def referred (s : State ω ι ν) (batch : Nat) : Bool :=
  s.rows.any (·.batch = batch) || s.versions.any (·.batch = batch) ||
    s.seen.any (·.batch = batch) || s.retired.any (·.batch = batch) ||
    s.heads.entries.any (·.2 = batch) || s.ownerRetired.any (·.2 = batch) ||
    batch ∈ s.others

def prunePublication (s : State ω ι ν) (batch : Nat) : State ω ι ν :=
  if (batch, .published) ∈ s.publications ∧ batch ∉ s.pins ∧ referred s batch = false then
    { s with publications := s.publications.filter (·.1 ≠ batch) }
  else s

def pruneOwner (s : State ω ι ν) (owner : Nat) : State ω ι ν :=
  if s.rows.any (·.key.owner = owner) || s.versions.any (·.owner = owner) ||
      (s.heads.get? owner).isSome || s.seen.any (·.owner = owner) ||
      owner ∈ s.ledgerPending then s
  else { s with owners := s.owners.restrict id (· ≠ owner) }

/-! ## stages -/

/-- `begin`: `none` stands for the exception, here and below. -/
def begin_ (s : State ω ι ν) : Option (State ω ι ν) :=
  match s.stage with
  | some _ => none
  | none => some { s with
      publications := s.publications ++ [(s.nextBatch, .staged)]
      nextBatch := s.nextBatch + 1
      stage := some { batch := s.nextBatch } }

def freshOwner (s : State ω ι ν) : Nat := (s.owners.entries.map Prod.snd).foldl max 0 + 1

def priorVersion (s : State ω ι ν) (stage : Stage ω) (key : ω) (owner : Nat) :
    Option OwnerVersion :=
  if (stage.owners.get? key).isSome then
    s.versions.find? fun v => v.owner = owner ∧ v.batch = stage.batch
  else
    match s.heads.get? owner with
    | none => none
    | some head => s.versions.find? fun v => v.owner = owner ∧ v.batch = head

def declareOwner (key : ω) (replace : Bool) (s : State ω ι ν) : Option (State ω ι ν) :=
  match s.stage with
  | none => none
  | some stage =>
    let owner := (s.owners.get? key).getD (freshOwner s)
    if (stage.owners.get? key).isSome ∧ (replace = false ∨ owner ∈ stage.factsStarted) then none
    else
      let prior := priorVersion s stage key owner
      some { s with
        owners := s.owners.set key owner
        versions :=
          s.versions.filter (fun v => ¬ (v.owner = owner ∧ v.batch = stage.batch)) ++
            [⟨owner, stage.batch, false⟩]
        retired :=
          match prior with
          | some v => if v.batch < stage.batch then
              insertIgnore s.retired ⟨none, owner, stage.batch⟩ else s.retired
          | none => s.retired
        stage := some { stage with owners := stage.owners.set key owner } }

/-- `facts_started`, for all kinds but the candidates. -/
def Stage.start (stage : Stage ω) (kind : Kind) (owner : Nat) : Stage ω :=
  if kind = .candidates then stage
  else { stage with factsStarted := insertIgnore stage.factsStarted owner }

def startReconcile (kind : Kind) (key : ω) (s : State ω ι ν) : Option (State ω ι ν) :=
  match s.stage with
  | none => none
  | some stage =>
    match stage.owners.get? key with
    | none => none
    | some owner =>
      if (owner, kind) ∈ stage.reconciling ∨ (owner, kind) ∈ stage.reconciled then none
      else
        let stage := stage.start kind owner
        some { s with
          stage := some { stage with
            reconciling := (owner, kind) :: stage.reconciling
            fresh :=
              if s.rows.any (fun row => row.key.kind = kind && row.key.owner = owner) then
                stage.fresh
              else (owner, kind) :: stage.fresh } }

/-- The rows of a group that differ from what a staged read meets.  A first inventory
compares with nothing. -/
def changedItems {σ : Type} [DecidableEq σ] (sign : ν → σ) (s : State ω ι ν) (batch : Nat)
    (fresh : Bool) (kind : Kind) (owner : Nat) (items : List (ι × ν)) : List (ι × ν) :=
  items.filter fun item =>
    match if fresh then none else previous s batch ⟨kind, owner, item.1⟩ with
    | none => true
    | some row => row.value.map sign ≠ some (sign item.2)

/-- One group of `Stage._upsert`.  A repeated key of a first inventory, or a repeated
identity of a later one, breaks a primary key. -/
def upsert {σ : Type} [DecidableEq σ] (sign : ν → σ) (kind : Kind) (key : ω)
    (items : List (ι × ν)) (s : State ω ι ν) : Option (State ω ι ν) :=
  match s.stage with
  | none => none
  | some stage =>
    match stage.owners.get? key with
    | none => none
    | some owner =>
      let track : Bool := (owner, kind) ∈ stage.reconciling
      let fresh : Bool := track && (owner, kind) ∈ stage.fresh
      let changed := changedItems sign s stage.batch fresh kind owner items
      let retire := if fresh then [] else
        changed.filter fun item =>
          match previous s stage.batch ⟨kind, owner, item.1⟩ with
          | none => false
          | some row => row.batch < stage.batch
      let inventory : List (Seen ι) := if track && !fresh then
        items.map fun item => ⟨stage.batch, kind, owner, item.1⟩ else []
      if inventory.any (· ∈ s.seen) then none
      else if fresh && changed.any (fun item => s.rows.any fun row =>
          row.key = ⟨kind, owner, item.1⟩ && row.batch = stage.batch) then none
      else some { s with
        rows := changed.foldl (fun rows item =>
          Version.put rows ⟨⟨kind, owner, item.1⟩, stage.batch, some item.2⟩) s.rows
        retired := retire.foldl (fun retired item =>
          insertIgnore retired ⟨some (kind, item.1), owner, stage.batch⟩) s.retired
        seen := s.seen ++ inventory
        stage := some (stage.start kind owner) }

def deleteKeys (kind : Kind) (owner batch : Nat) (keys : List ι) (s : State ω ι ν) :
    State ω ι ν :=
  { s with
    rows := keys.foldl (fun rows identity =>
      Version.put rows ⟨⟨kind, owner, identity⟩, batch, none⟩) s.rows
    retired := keys.foldl (fun retired identity =>
      insertIgnore retired ⟨some (kind, identity), owner, batch⟩) s.retired }

/-- One group of `Stage.delete`. -/
def delete (kind : Kind) (key : ω) (keys : List ι) (s : State ω ι ν) : Option (State ω ι ν) :=
  match s.stage with
  | none => none
  | some stage =>
    match stage.owners.get? key with
    | none => none
    | some owner =>
      some (deleteKeys kind owner stage.batch keys
        { s with stage := some (stage.start kind owner) })

def missing [LinearOrder ι] (s : State ω ι ν) (batch : Nat) (kind : Kind) (owner : Nat)
    (after : Option ι) : List ι :=
  ((s.rows.filter fun row =>
    row.key.kind = kind ∧ row.key.owner = owner ∧ row.value.isSome ∧
      (∀ cursor ∈ after, cursor < row.key.identity) ∧
      Version.Latest (Visible s (some batch)) s.rows row ∧
      (⟨batch, kind, owner, row.key.identity⟩ : Seen ι) ∉ s.seen).map
    (·.key.identity)).mergeSort (· ≤ ·)

/-- The loop of `finish_reconcile`, by pages of `limit` identities. -/
def deleteMissing [LinearOrder ι] (limit batch : Nat) (kind : Kind) (owner : Nat) :
    Nat → Option ι → State ω ι ν → State ω ι ν
  | 0, _, s => s
  | fuel + 1, after, s =>
    let page := (missing s batch kind owner after).take limit
    match page.getLast? with
    | none => s
    | some last =>
      deleteMissing limit batch kind owner fuel (some last)
        (deleteKeys kind owner batch page s)

/-- `Stage.finish_reconcile`.  No page is longer than the table, and every page but the
last moves the cursor. -/
def finishReconcile [LinearOrder ι] (limit : Nat) (kind : Kind) (key : ω) (s : State ω ι ν) :
    Option (State ω ι ν) :=
  match s.stage with
  | none => none
  | some stage =>
    match stage.owners.get? key with
    | none => none
    | some owner =>
      let finished : Stage ω := { stage with
        reconciling := stage.reconciling.filter (· ≠ (owner, kind))
        reconciled := (owner, kind) :: stage.reconciled
        fresh := stage.fresh.filter (· ≠ (owner, kind)) }
      if (owner, kind) ∉ stage.reconciling then none
      else if (owner, kind) ∈ stage.fresh then some { s with stage := some finished }
      else
        let s := deleteMissing limit stage.batch kind owner (s.rows.length + 1) none s
        some { s with stage := some finished }

/-- The last transaction of `Stage.remove_owner`. -/
def markRemoved (key : ω) (s : State ω ι ν) : Option (State ω ι ν) :=
  match s.stage with
  | none => none
  | some stage =>
    match stage.owners.get? key with
    | none => none
    | some owner =>
      if (owner, stage.batch) ∈ s.ownerRetired then none
      else some { s with
        versions := s.versions.map fun v =>
          if v.owner = owner ∧ v.batch = stage.batch then { v with deleted := true } else v
        ownerRetired := s.ownerRetired ++ [(owner, stage.batch)] }

/-- `Stage.publish`; what else may refuse it is left to the caller. -/
def publish (s : State ω ι ν) : Option (State ω ι ν) :=
  match s.stage with
  | none => none
  | some stage =>
    if stage.failed || !stage.reconciling.isEmpty then none
    else
      let owners := stage.owners.entries.map Prod.snd
      some (prunePublication
        { s with
          heads := owners.foldl (fun heads owner => heads.set owner stage.batch) s.heads
          ledgerPending := owners.foldl insertIgnore s.ledgerPending
          publications := s.publications.map fun p =>
            if p.1 = stage.batch then (p.1, .published) else p
          generation := s.generation + 1
          stage := none } stage.batch)

def abort (s : State ω ι ν) : Option (State ω ι ν) :=
  match s.stage with
  | none => none
  | some stage => some { s with
      publications := s.publications.map fun p =>
        if p.1 = stage.batch ∧ p.2 = .staged then (p.1, .abandoned) else p
      stage := none }

/-- The store is opened again: a staged batch was left behind by a crash. -/
def reopen (s : State ω ι ν) : State ω ι ν :=
  { s with
    publications := s.publications.map fun p =>
      if p.2 = .staged then (p.1, .abandoned) else p
    stage := none }

/-- An operation of the stage raises: `self.failed = True`. -/
def fail (s : State ω ι ν) : State ω ι ν :=
  { s with stage := s.stage.map fun stage => { stage with failed := true } }

def acknowledge (owners : List Nat) (s : State ω ι ν) : State ω ι ν :=
  owners.foldl (fun s owner =>
    pruneOwner { s with ledgerPending := s.ledgerPending.filter (· ≠ owner) } owner) s

/-! ## maintenance -/

/-- `DELETE … WHERE owner=? AND identity=? AND batch=?` -/
def deleteRow (s : State ω ι ν) (key : FactKey ι) (batch : Nat) : State ω ι ν :=
  { s with rows := s.rows.filter fun row => ¬ (row.key = key ∧ row.batch = batch) }

/-- The slice of an abandoned batch: the rows of one table, or at last the publication. -/
def cleanAbandoned (rows : Nat) (plan : Plan) (batch : Nat) (s : State ω ι ν) : State ω ι ν :=
  if batch ∈ s.others then
    { s with others := s.others.filter (· ≠ batch) ++ (s.others.filter (· = batch)).drop rows }
  else
    match KINDS.find? (fun kind => s.rows.any fun row => row.key.kind = kind && row.batch = batch) with
    | some kind =>
      ((plan.order (s.rows.filter fun row => row.key.kind = kind ∧ row.batch = batch)).take
        rows).foldl (fun s row => deleteRow s row.key batch) s
    | none =>
      if s.seen.any (·.batch = batch) then
        let keys := (plan.order (s.seen.filter (·.batch = batch))).take rows
        { s with seen := s.seen.filter (· ∉ keys) }
      else if s.versions.any (·.batch = batch) then
        ((plan.order (s.versions.filter (·.batch = batch))).take rows).foldl (fun s version =>
          pruneOwner { s with
            versions := s.versions.filter fun v =>
              ¬ (v.owner = version.owner ∧ v.batch = batch) } version.owner) s
      else if s.retired.any (·.batch = batch) then
        let keys := (plan.order (s.retired.filter (·.batch = batch))).take rows
        { s with retired := s.retired.filter (· ∉ keys) }
      else if s.ownerRetired.any (·.2 = batch) then
        ((plan.order (s.ownerRetired.filter (·.2 = batch))).take rows).foldl (fun s row =>
          pruneOwner { s with ownerRetired := s.ownerRetired.filter (· ≠ row) } row.1) s
      else { s with publications := s.publications.filter (·.1 ≠ batch) }

/-- The slice of a retired fact: older versions, and with the last of them the task and
its tombstone. -/
def cleanFact (rows : Nat) (plan : Plan) (task : Retired ι) (kind : Kind) (identity : ι)
    (s : State ω ι ν) : State ω ι ν :=
  let key : FactKey ι := ⟨kind, task.owner, identity⟩
  let old := (plan.order (s.rows.filter fun row => row.key = key ∧ row.batch < task.batch)).take
    rows
  let s := old.foldl (fun s row => prunePublication (deleteRow s key row.batch) row.batch) s
  if old.length < rows then
    prunePublication
      { s with
        retired := s.retired.filter (· ≠ task)
        rows := s.rows.filter fun row =>
          ¬ (row.key = key ∧ row.batch = task.batch ∧ row.value = none) } task.batch
  else s

/-- The budget of `_maintain_owner_versions`: what is left of it, the versions to delete and
the tasks that are done. -/
def retireOwner (plan : Plan) (s : State ω ι ν)
    (budget : Nat × List OwnerVersion × List (Retired ι)) (task : Retired ι) :
    Nat × List OwnerVersion × List (Retired ι) :=
  let (remaining, versions, completed) := budget
  if remaining = 0 then budget
  else
    let old := (plan.order (s.versions.filter fun v =>
      v.owner = task.owner ∧ v.batch < task.batch)).take (remaining + 1)
    let selected := old.take remaining
    (remaining - max 1 selected.length, versions ++ selected,
      if old.length ≤ remaining then completed ++ [task] else completed)

/-- `_maintain_owner_versions` -/
def cleanOwners (rows : Nat) (plan : Plan) (s : State ω ι ν) : State ω ι ν :=
  let tasks := (plan.order (s.retired.filter fun task =>
    task.fact = none ∧ (task.batch, PublicationState.published) ∈ s.publications)).take rows
  let (_, versions, completed) := tasks.foldl (retireOwner plan s) (rows, [], [])
  let s := { s with
    versions := s.versions.filter fun v =>
      ¬ versions.any fun old => old.owner = v.owner && old.batch = v.batch
    retired := s.retired.filter (· ∉ completed) }
  (versions.map (·.batch) ++ completed.map (·.batch)).dedup.foldl prunePublication s

def cleanRemoved (owner batch : Nat) (s : State ω ι ν) : State ω ι ν :=
  let s := if s.heads.get? owner = some batch then
    { s with
      heads := s.heads.erase owner
      versions := s.versions.filter fun v => ¬ (v.owner = owner ∧ v.batch = batch) }
    else s
  prunePublication
    (pruneOwner { s with ownerRetired := s.ownerRetired.filter (· ≠ (owner, batch)) } owner) batch

/-- `PreparedStore.maintain`.  `work` is what the cleaning of checkpoints and catalog
orders does, where it finds work: the batches their rows refer to afterwards, and the
publications it tries to prune. -/
def maintain (rows : Nat) (plan : Plan) (work : Option (List Nat × List Nat))
    (s : State ω ι ν) : State ω ι ν :=
  match (plan.order (s.publications.filter (·.2 = .abandoned))).head? with
  | some p => cleanAbandoned rows plan p.1 s
  | none =>
    match (plan.order (s.retired.filter fun task =>
        (task.batch, PublicationState.published) ∈ s.publications)).head? with
    | some task =>
      match task.fact with
      | none => cleanOwners rows plan s
      | some (kind, identity) => cleanFact rows plan task kind identity s
    | none =>
      match work with
      | some (others, batches) => batches.foldl prunePublication { s with others := others }
      | none =>
        let seen := (plan.order (s.seen.filter fun row =>
          (row.batch, PublicationState.published) ∈ s.publications)).take rows
        if seen ≠ [] then
          (seen.map (·.batch)).dedup.foldl prunePublication
            { s with seen := s.seen.filter (· ∉ seen) }
        else
          match (plan.order (s.ownerRetired.filter fun row =>
              (row.2, PublicationState.published) ∈ s.publications)).head? with
          | some (owner, batch) => cleanRemoved owner batch s
          | none => s

/-! ## runs -/

/-- A call of the store or of its stage.  `others` is any call that writes catalog orders
or checkpoints. -/
inductive Event (ω ι ν : Type) where
  | begin_
  | declareOwner (key : ω) (replace : Bool)
  | startReconcile (kind : Kind) (key : ω)
  | upsert (kind : Kind) (key : ω) (items : List (ι × ν))
  | delete (kind : Kind) (key : ω) (keys : List ι)
  | finishReconcile (limit : Nat) (kind : Kind) (key : ω)
  | markRemoved (key : ω)
  | publish
  | abort
  | reopen
  | fail
  | acknowledge (owners : List Nat)
  | others (batches pins pruned : List Nat)
  | maintain (rows : Nat) (plan : Plan) (work : Option (List Nat × List Nat))

variable [LinearOrder ι] {σ : Type} [DecidableEq σ] (sign : ν → σ)

/-- The call as an operation that may raise. -/
def perform (s : State ω ι ν) : Event ω ι ν → Option (State ω ι ν)
  | .begin_ => begin_ s
  | .declareOwner key replace => declareOwner key replace s
  | .startReconcile kind key => startReconcile kind key s
  | .upsert kind key items => upsert sign kind key items s
  | .delete kind key keys => delete kind key keys s
  | .finishReconcile limit kind key => finishReconcile limit kind key s
  | .markRemoved key => markRemoved key s
  | .publish => publish s
  | .abort => abort s
  | .reopen => some (reopen s)
  | .fail => some (fail s)
  | .acknowledge owners => some (acknowledge owners s)
  | .others batches pins pruned =>
    some (pruned.foldl prunePublication { s with others := batches, pins := pins })
  | .maintain rows plan work => some (maintain rows plan work s)

def raised (s : State ω ι ν) : Event ω ι ν → State ω ι ν
  | .upsert _ _ _ => fail s
  | _ => s

def step (s : State ω ι ν) (event : Event ω ι ν) : State ω ι ν :=
  (perform sign s event).getD (raised s event)

end

end Codexon.PreparedStore
