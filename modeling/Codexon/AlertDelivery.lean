import Codexon.Dict

/-!
# Codexon.AlertDelivery

How `PreparedPublisher` delivers the model alerts of a prepared store: `adopt` compares the
alerts of a committed generation with the rows it kept of the last one, `publish` sends the
differences, `reset` starts an epoch from the kept rows.

The publisher belongs to one store, so its tokens differ in the generation only.
-/

namespace Codexon

namespace Dict

variable {κ ν : Type} [DecidableEq κ]

/-- The entries whose keys satisfy `p`. -/
def filterKeys (d : Dict κ ν) (p : κ → Bool) : Dict κ ν :=
  ⟨d.entries.filter fun e => p e.1, d.nodup.sublist (List.filter_sublist.map _)⟩

@[simp] theorem get?_filterKeys (d : Dict κ ν) (p : κ → Bool) (k : κ) :
    (d.filterKeys p).get? k = if p k then d.get? k else none := by
  refine ext_get? fun v => ?_
  cases hp : p k <;> simp [filterKeys, hp, get?_eq_some]

@[simp] theorem get?_empty (k : κ) : ({} : Dict κ ν).get? k = none := rfl

end Dict

namespace AlertDelivery

/-- `home` and `sid`. -/
abbrev Owner := String × String

/-- `MODEL_KEYS` of `analysis_delivery`. -/
def modelKeys : List String :=
  ["key", "ts", "model_observation_ts", "model_alert_confirmed", "requested_model",
    "response_model"]

/-- The values of a call under `MODEL_KEYS`. -/
abbrev Signature (ν : Type) := List (Option ν)

/-- A prepared owner: a row of `publication_heads`, and `record` for its calls. -/
structure Head (ι ν : Type) where
  owner : Owner
  title : String
  isInternal : Bool
  modelAlerts : Dict ι (Signature ν)
  record : ι → Option (String → Option ν)

/-- A committed generation.  `orderBatch` is read under the scope of the selection. -/
structure Generation (ι ν : Type) where
  heads : List (Head ι ν)
  nodup : (heads.map Head.owner).Nodup
  orderBatch : Bool → Nat
  ready : Bool

/-- The temporary tables `delivery_alerts` and `delivery_alert_owners` by their primary keys. -/
structure Tables (ι ν : Type) where
  alerts : Dict (Nat × Owner × ι) (Signature ν) := {}
  owners : Dict (Nat × Owner) (String × Bool) := {}
deriving DecidableEq

/-- The connection with its open savepoints. -/
structure Connection (ι ν : Type) where
  tables : Tables ι ν := {}
  savepoints : List (Tables ι ν) := []
deriving DecidableEq

/-- One model candidate of a publication. -/
structure Candidate (ν : Type) where
  home : String
  sid : String
  title : String
  fields : List (String × Option ν)
deriving DecidableEq

/-- `dict(home=…, sid=…, title=…, **dict(zip(MODEL_KEYS, signature)))`. -/
def candidate {ν : Type} (key : Owner) (title : String) (signature : Signature ν) : Candidate ν :=
  ⟨key.1, key.2, title, modelKeys.zip signature⟩

/-- `PreparedPublisher`, as far as model alerts go. -/
structure Publisher (ι ν : Type) where
  token : Option Nat := none
  orderIdentity : Option Nat := none
  isScoped : Bool := false
  owners : List Owner := []
  alertWork : Option Nat := none
  db : Connection ι ν := {}
  pendingAlerts : Dict (Owner × ι) (Candidate ν) := {}
  sequence : Nat := 0
  sentToken : Option Nat := none
  projectionDirty : Bool := true
deriving DecidableEq

/-- Where an adoption raises: after some statements of its savepoint, or as the views close
on the path that only moves the token. -/
inductive Failure where
  | after (statements : Nat)
  | closing
deriving DecidableEq

inductive Reply (ν : Type) where
  | adopted
  | published (modelCandidates : List (Candidate ν))
  | restarted
  | failed
deriving DecidableEq

variable {ι ν : Type} [DecidableEq ι]

/-! ## the tables -/

def Tables.deleteAlerts (t : Tables ι ν) (work : Nat) (key : Owner) : Tables ι ν :=
  { t with alerts := t.alerts.filterKeys fun k => !(k.1 = work ∧ k.2.1 = key : Bool) }

def Tables.deleteOwner (t : Tables ι ν) (work : Nat) (key : Owner) : Tables ι ν :=
  { t with owners := t.owners.filterKeys fun k => !(k = (work, key) : Bool) }

def Tables.insertOwner (t : Tables ι ν) (work : Nat) (h : Head ι ν) : Tables ι ν :=
  { t with owners := t.owners.set (work, h.owner) (h.title, h.isInternal) }

def Tables.insertAlerts (t : Tables ι ν) (work : Nat) (h : Head ι ν) : Tables ι ν :=
  { t with
    alerts := h.modelAlerts.entries.foldl (fun d e => d.set (work, h.owner, e.1) e.2) t.alerts }

def Tables.deleteWork (t : Tables ι ν) (work : Nat) : Tables ι ν :=
  { alerts := t.alerts.filterKeys fun k => !(k.1 = work : Bool)
    owners := t.owners.filterKeys fun k => !(k.1 = work : Bool) }

/-- `{identity: signature}` of the rows of one owner. -/
def Tables.alertsOf (t : Tables ι ν) (work : Nat) (key : Owner) : Dict ι (Signature ν) where
  entries := (t.alerts.entries.filter fun e => e.1.1 = work ∧ e.1.2.1 = key).map
    fun e => (e.1.2.2, e.2)
  nodup := by
    rw [List.map_map]
    refine List.Nodup.map_on ?_ ((List.Nodup.of_map _ t.alerts.nodup).filter _)
    intro a ha b hb hab
    simp only [List.mem_filter, decide_eq_true_eq] at ha hb
    have hkey : a.1 = b.1 := Prod.ext (ha.2.1.trans hb.2.1.symm)
      (Prod.ext (ha.2.2.trans hb.2.2.symm) hab)
    exact List.inj_on_of_nodup_map t.alerts.nodup ha.1 hb.1 hkey

def Connection.savepoint (c : Connection ι ν) : Connection ι ν :=
  { c with savepoints := c.tables :: c.savepoints }

/-- `ROLLBACK TO` the innermost savepoint, which stays open. -/
def Connection.rollbackTo (c : Connection ι ν) : Connection ι ν :=
  match c.savepoints with
  | [] => c
  | saved :: _ => { c with tables := saved }

def Connection.release (c : Connection ι ν) : Connection ι ν :=
  { c with savepoints := c.savepoints.tail }

/-! ## adoption -/

def Generation.head (g : Generation ι ν) (key : Owner) : Option (Head ι ν) :=
  g.heads.find? (·.owner = key)

/-- What the loop over the heads works on. -/
structure Working (ι ν : Type) where
  tables : Tables ι ν
  pendingAlerts : Dict (Owner × ι) (Candidate ν)
  oldAlerts : Dict ι (Signature ν) := {}

/-- `tuple(record.get(name) for name in MODEL_KEYS)`. -/
def recordSignature (record : String → Option ν) : Signature ν := modelKeys.map record

/-- The signature that a head now gives a call, or the fields its call has without one. -/
def Head.announced (h : Head ι ν) (identity : ι) : Option (Signature ν) :=
  (h.modelAlerts.get? identity).or ((h.record identity).map recordSignature)

variable [DecidableEq ν]

def Head.news (h : Head ι ν) (old : Dict ι (Signature ν)) (identity : ι) : Option (Candidate ν) :=
  if old.get? identity = h.modelAlerts.get? identity then none
  else (h.announced identity).map (candidate h.owner h.title)

/-- The loop over `old_alerts.keys()|new_alerts.keys()`. -/
def addPending (h : Head ι ν) (w : Working ι ν) : Working ι ν :=
  let olds := w.oldAlerts.entries.map Prod.fst
  let news := (h.modelAlerts.entries.map Prod.fst).filter (· ∉ olds)
  { w with
    pendingAlerts := (olds ++ news).foldl
      (fun d identity => (h.news w.oldAlerts identity).elim d (d.set (h.owner, identity)))
      w.pendingAlerts }

def removedSteps (work : Nat) (key : Owner) : List (Working ι ν → Working ι ν) :=
  [fun w => { w with tables := w.tables.deleteAlerts work key },
    fun w => { w with tables := w.tables.deleteOwner work key }]

/-- The statements for one head.  `prior` is the work id of the rows to compare with,
where there are any. -/
def headSteps (prior : Option Nat) (work : Nat) (scan : Bool) (h : Head ι ν) :
    List (Working ι ν → Working ι ν) :=
  (fun w => { w with oldAlerts := prior.elim {} fun p => w.tables.alertsOf p h.owner }) ::
    ((if scan then [] else removedSteps work h.owner) ++
      (if h.modelAlerts.entries = [] then [] else
        [fun w => { w with tables := w.tables.insertOwner work h },
          fun w => { w with tables := w.tables.insertAlerts work h }]) ++
      (if h.isInternal then [] else [addPending h]))

/-- `scan_alerts`, for the one store of the publisher. -/
def Publisher.scans (s : Publisher ι ν) : Bool := s.alertWork.isNone || s.token.isNone

/-- `next_work`, where `fresh` is a new id. -/
def Publisher.nextWork (s : Publisher ι ν) (fresh : Nat) : Nat :=
  if s.scans then fresh else s.alertWork.getD fresh

/-- The prior work, where `had_alerts` found a row of it. -/
def Publisher.hadAlerts (s : Publisher ι ν) : Option Nat :=
  s.alertWork.filter fun work => s.db.tables.alerts.entries.any (·.1.1 = work)

def Publisher.heads (s : Publisher ι ν) (g : Generation ι ν) (changed : List Owner) :
    List (Head ι ν) :=
  if s.scans then g.heads else g.heads.filter (·.owner ∈ changed)

def Publisher.steps (s : Publisher ι ν) (g : Generation ι ν) (fresh : Nat)
    (changed removed : List Owner) : List (Working ι ν → Working ι ν) :=
  removed.flatMap (removedSteps (s.nextWork fresh)) ++
    (s.heads g changed).flatMap (headSteps s.hadAlerts (s.nextWork fresh) s.scans)

/-- The statements of the adoption, the first `n` of them where there is a limit. -/
def Publisher.work (s : Publisher ι ν) (g : Generation ι ν) (fresh : Nat)
    (changed removed : List Owner) (limit : Option Nat) : Working ι ν :=
  let steps := s.steps g fresh changed removed
  (limit.elim steps steps.take).foldl (fun w step => step w)
    { tables := s.db.tables, pendingAlerts := s.pendingAlerts }

def scopeOwners (g : Generation ι ν) : Option (List Owner) → List Owner
  | none => g.heads.map Head.owner
  | some selected => (g.heads.map Head.owner).filter (· ∈ selected)

def Publisher.sameScope (s : Publisher ι ν) (selection : Option (List Owner)) : Bool :=
  selection.isSome = s.isScoped ∧
    selection.all fun selected =>
      selected.length = s.owners.length ∧ s.owners.all (· ∈ selected)

def Publisher.raised (s : Publisher ι ν) (w : Working ι ν) : Publisher ι ν :=
  { s with db := ({ s.db.savepoint with tables := w.tables }).rollbackTo.release }

def Publisher.adopted (s : Publisher ι ν) (g : Generation ι ν) (t fresh : Nat)
    (selection : Option (List Owner)) (w : Working ι ν) : Publisher ι ν :=
  let db := ({ s.db.savepoint with tables := w.tables }).release
  let next := s.nextWork fresh
  { s with
    token := some t
    orderIdentity := some (g.orderBatch selection.isSome)
    isScoped := selection.isSome
    owners := scopeOwners g selection
    alertWork := some next
    db := match s.alertWork with
      | some prior => if prior = next then db else { db with tables := db.tables.deleteWork prior }
      | none => db
    pendingAlerts := w.pendingAlerts
    projectionDirty := true }

/-- The path of `adopt` for a new token whose order is the adopted one and which names no owner. -/
def Publisher.quiet (s : Publisher ι ν) (g : Generation ι ν) (changed removed : List Owner)
    (selection : Option (List Owner)) : Bool :=
  s.token.isSome ∧ changed = [] ∧ removed = [] ∧ s.sameScope selection ∧
    s.orderIdentity = some (g.orderBatch selection.isSome)

/-- The selection that an adoption uses; `none` stands for `UNCHANGED`. -/
def Publisher.selection (s : Publisher ι ν) (selected : Option (Option (List Owner))) :
    Option (List Owner) :=
  selected.getD (if s.isScoped then some s.owners else none)

/-- `PreparedPublisher.adopt`.  The selection must be in the generation. -/
def adopt (gen : Nat → Generation ι ν) (s : Publisher ι ν) (t fresh : Nat)
    (changed removed : List Owner) (selected : Option (Option (List Owner)))
    (failure : Option Failure) : Reply ν × Publisher ι ν :=
  let selection := s.selection selected
  if s.token = some t ∧ s.sameScope selection then
    (if failure = none then .adopted else .failed, s)
  else
    let g := gen t
    match failure with
    | some (.after n) => (.failed, s.raised (s.work g fresh changed removed (some n)))
    | _ =>
      if !g.ready then (.failed, s.raised (s.work g fresh changed removed (some 0)))
      else if s.quiet g changed removed selection then
        -- the token moves first, and a rollback finds the savepoint released
        (if failure = none then .adopted else .failed,
          { s with token := some t, db := s.db.savepoint.release })
      else
        let w := s.work g fresh changed removed none
        if failure ≠ none ∨ selection.any fun selected =>
            !(selected.all (· ∈ g.heads.map Head.owner)) then (.failed, s.raised w)
        else (.adopted, s.adopted g t fresh selection w)

/-! ## publication -/

/-- `list(self.pending_alerts.values())`, as `publish` sends it, and the publisher after it.
`raises` is a failure anywhere before the fields are stored. -/
def deliver (s : Publisher ι ν) (t : Nat) (raises : Bool) : Reply ν × Publisher ι ν :=
  if raises ∨ s.token ≠ some t then (.failed, s)
  else if s.sentToken = s.token ∧ s.sequence + 1 ≠ 1 ∧ s.projectionDirty = false then
    (.published [], { s with sequence := s.sequence + 1 })
  else
    (.published (s.pendingAlerts.entries.map Prod.snd),
      { s with
        sequence := s.sequence + 1, sentToken := s.token, pendingAlerts := {}
        projectionDirty := false })

/-- `PreparedPublisher.publish`: the first one adopts. -/
def publish (gen : Nat → Generation ι ν) (s : Publisher ι ν) (t fresh : Nat)
    (adoption : Option Failure) (raises : Bool) : Reply ν × Publisher ι ν :=
  if s.token = none then
    let first := adopt gen s t fresh [] [] none adoption
    if first.1 = .failed then first else deliver first.2 t raises
  else deliver s t raises

def rowCandidate (t : Tables ι ν) (e : (Nat × Owner × ι) × Signature ν) : Option (Candidate ν) :=
  match t.owners.get? (e.1.1, e.1.2.1) with
  | some (title, false) => some (candidate e.1.2.1 title e.2)
  | _ => none

def keptCandidates (t : Tables ι ν) (work : Nat) : Dict (Owner × ι) (Candidate ν) :=
  (t.alerts.entries.filter (·.1.1 = work)).foldl
    (fun d e => (rowCandidate t e).elim d (d.set e.1.2)) {}

/-- `PreparedPublisher.reset`.  Before the first adoption there are no alerts. -/
def reset (s : Publisher ι ν) (raises : Bool) : Reply ν × Publisher ι ν :=
  if raises then (.failed, s)
  else
    (.restarted,
      { s with
        sequence := 0, sentToken := none, projectionDirty := true
        pendingAlerts := s.alertWork.elim {} (keptCandidates s.db.tables) })

/-- The calls a publisher gets, with the token that the store has at the time. -/
inductive Call where
  | adopt (token fresh : Nat) (changed removed : List Owner)
      (selected : Option (Option (List Owner))) (failure : Option Failure)
  | publish (token fresh : Nat) (adoption : Option Failure) (raises : Bool)
  | reset (raises : Bool)
deriving DecidableEq

def call (gen : Nat → Generation ι ν) (s : Publisher ι ν) : Call → Reply ν × Publisher ι ν
  | .adopt token fresh changed removed selected failure =>
    adopt gen s token fresh changed removed selected failure
  | .publish token fresh adoption raises => publish gen s token fresh adoption raises
  | .reset raises => reset s raises

end AlertDelivery

end Codexon
