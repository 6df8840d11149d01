import Mathlib.Data.List.Sort
import Codexon.DictMerge
import Codexon.Run

/-!
# Codexon.SnapshotDelivery

`SnapshotPublisher` and `SnapshotReceiver` of `cachemonitor/analysis_delivery.py`: the
publisher sends what changed since its last message, and the receiver keeps the whole.
A message travels as it is or in pages, cut as `publish_pages` of
`cachemonitor/prepared_delivery.py` cuts it; where the pages end is a matter of size and
is an input here.

`process_main` collects one summary for each session of the engine, which has ingested
the sessions of the snapshot; so a `Publication` carries the summary in the state of its
session, and each session of the engine is listed.  What `observed_choices` and
`project_choices` compute is part of the publication, and of a snapshot's envelope there
is only `prepared_token`.
-/

namespace Codexon.SnapshotDelivery

/-! ## filter choices -/

/-- A value of `filter_choices`: a list, `project_paths`, another dictionary, or a scalar. -/
inductive Choice (β : Type) where
  | items (xs : List β)
  | paths (projects : Dict String (List β))
  | table (entries : Dict String β)
  | value (v : β)
deriving DecidableEq

section

variable {β : Type}

def Choice.rank : Choice β → Nat
  | items _ => 0
  | paths _ => 1
  | table _ => 2
  | value _ => 3

/-- A list is extended, a dictionary updated, a scalar replaced.  The name decides the
kind, so that two kinds do not meet; here the later kind wins where they would. -/
def Choice.merge : Choice β → Choice β → Choice β
  | items xs, items ys => items (xs ++ ys)
  | paths a, paths b => paths (Dict.merges (· ++ ·) a b.entries)
  | table a, table b => table (Dict.merges (fun _ v => v) a b.entries)
  | value _, value v => value v
  | a, b => if a.rank < b.rank then b else a

abbrev Choices (β : Type) := Dict String (Choice β)

def pathPieces : String × List β → List (String × List β)
  | (project, []) => [(project, [])]
  | (project, path :: paths) => (path :: paths).map fun path => (project, [path])

/-- The pieces of one choice that `parts` yields. -/
def pieces : Choice β → List (Choice β)
  | .items [] => [.items []]
  | .items (x :: xs) => (x :: xs).map fun x => .items [x]
  | .paths projects =>
    if projects.entries = [] then [.paths {}]
    else (projects.entries.flatMap pathPieces).map fun e => .paths (Dict.set {} e.1 e.2)
  | .table entries =>
    if entries.entries = [] then [.table {}]
    else entries.entries.map fun e => .table (Dict.set {} e.1 e.2)
  | .value v => [.value v]

end

/-! ## messages -/

/-- A session on the wire, `light`. -/
structure Row (β : Type) where
  title : β
  fields : Dict String β
  cacheMisses : Dict String β
deriving DecidableEq

/-- A summary of the overlay. -/
structure Summary (β : Type) where
  cacheHealth : Option β
  cacheMisses : β
  rest : Dict String β
deriving DecidableEq

structure ModelCandidate (κ β : Type) where
  owner : κ
  title : β
  signature : List β
deriving DecidableEq

structure CacheCandidate (κ β : Type) where
  owner : κ
  title : β
  cacheHealth : Option β
  cacheMisses : β
deriving DecidableEq

/-- A message, or a page of one (`protocol == 2`). -/
structure Message (ε κ ν β : Type) where
  paged : Bool := false
  epoch : ε
  sequence : Nat
  reset : Bool
  more : Bool := false
  token : Option β := none
  sessions : List (κ × Row β) := []
  overlaySessions : List (κ × Summary β) := []
  removed : List κ := []
  modelCandidates : List (ModelCandidate κ β) := []
  cacheCandidates : List (CacheCandidate κ β) := []
  models : Option (List ν) := none
  filterChoices : Option (Choices β) := none

/-! ## the publisher -/

/-- A session of the snapshot. -/
structure Source (κ β : Type) where
  owner : κ
  title : β
  fields : Dict String β

/-- A record of a session, with whether its alert is confirmed and its `MODEL_KEYS`. -/
structure Record (β : Type) where
  modelAlertConfirmed : Bool
  signature : List β

/-- A session of the engine, with the summary that is collected from it. -/
structure State (ν β : Type) where
  contentRevision : Option Nat
  revision : Nat
  cacheMisses : Dict String β
  models : List ν
  records : List (String × Record β)
  summary : Summary β

structure Publication (κ ν β : Type) [DecidableEq κ] where
  sources : List (Source κ β)
  engine : Dict κ (State ν β)
  revision : Nat
  callRevision : Nat
  token : Option β
  observed : Choices β
  projects : Choices β
  homes : List β
  kinds : List β
  listed : ∀ owner ∈ engine.entries.map Prod.fst, owner ∈ sources.map (·.owner)

structure Publisher (ε κ ν β : Type) where
  epoch : ε
  sequence : Nat := 0
  sessions : Dict κ (Row β) := {}
  overlays : Dict κ (Summary β) := {}
  revisions : Dict κ Nat := {}
  models : Dict κ (List ν) := {}
  modelAlerts : Dict κ (Dict String (List β)) := {}
  revision : Option Nat := none
  callRevision : Option Nat := none

variable {ε κ ν β : Type} [DecidableEq κ] [LinearOrder ν] [DecidableEq β]

/-- The fields that stay out of `light`. -/
def heavy : List String :=
  ["history", "requests", "groups", "totals", "cache_misses", "turn_records", "turn_states",
    "transports", "unmatched_transports", "coverage_gaps", "_collection_pending", "remaining"]

/-- The entries whose keys are not among `names`. -/
def without (d : Dict String β) (names : List String) : Dict String β where
  entries := d.entries.filter (·.1 ∉ names)
  nodup := d.nodup.sublist (List.filter_sublist.map _)

def light (source : Source κ β) (state : State ν β) : Row β :=
  { title := source.title
    fields := without source.fields heavy
    cacheMisses := without state.cacheMisses ["events"] }

/-- What the loop over the sessions of the snapshot collects. -/
structure Visit (κ ν β : Type) where
  sessions : Dict κ (Row β) := {}
  revisions : Dict κ Nat
  models : Dict κ (List ν)
  modelAlerts : Dict κ (Dict String (List β))
  modelCandidates : List (ModelCandidate κ β) := []
  cacheCandidates : List (CacheCandidate κ β) := []

def confirmed (state : State ν β) : Dict String (List β) :=
  Dict.update {}
    ((state.records.filter (·.2.modelAlertConfirmed)).map fun r => (r.1, r.2.signature))

def alerts (source : Source κ β) (state : State ν β) (before : Dict String (List β)) :
    List (ModelCandidate κ β) :=
  state.records.filterMap fun (identity, record) =>
    if record.modelAlertConfirmed = false ∧ before.get? identity = none then none
    else if some record.signature = before.get? identity then none
    else some ⟨source.owner, source.title, record.signature⟩

def visit (engine : Dict κ (State ν β)) (v : Visit κ ν β) (source : Source κ β) : Visit κ ν β :=
  match engine.get? source.owner with
  | none => v
  | some state =>
    let revision := state.contentRevision.getD state.revision
    let v := { v with sessions := v.sessions.set source.owner (light source state) }
    if v.revisions.get? source.owner = some revision then v
    else
      { sessions := v.sessions
        revisions := v.revisions.set source.owner revision
        models := v.models.set source.owner state.models
        modelAlerts := v.modelAlerts.set source.owner (confirmed state)
        modelCandidates := v.modelCandidates ++
          alerts source state ((v.modelAlerts.get? source.owner).getD {})
        cacheCandidates := v.cacheCandidates ++
          [⟨source.owner, source.title, state.summary.cacheHealth, state.summary.cacheMisses⟩] }

def differing {α : Type} [DecidableEq α] (before after : Dict κ α) : List (κ × α) :=
  after.entries.filter fun e => before.get? e.1 ≠ some e.2

/-- The keys of a dictionary that a later one does not have. -/
def dropped {α : Type} (before after : Dict κ α) : List κ :=
  (before.entries.map Prod.fst).filter fun key => (after.get? key).isNone

/-- The entries of the owners in `sessions`. -/
def among {α γ : Type} (sessions : Dict κ γ) (d : Dict κ α) : Dict κ α where
  entries := d.entries.filter fun e => (sessions.get? e.1).isSome
  nodup := d.nodup.sublist (List.filter_sublist.map _)

def filterChoices (p : Publication κ ν β) : Choices β :=
  (((p.observed.set "homes" (.items p.homes)).update p.projects.entries).set "sources"
    (.items p.kinds))

def allModels (models : Dict κ (List ν)) : List ν :=
  (models.entries.flatMap (·.2)).dedup.insertionSort (· ≤ ·)

def visited (P : Publisher ε κ ν β) (p : Publication κ ν β) : Visit κ ν β :=
  p.sources.foldl (visit p.engine) ⟨{}, P.revisions, P.models, P.modelAlerts, [], []⟩

def publish (P : Publisher ε κ ν β) (p : Publication κ ν β) :
    Message ε κ ν β × Publisher ε κ ν β :=
  let v := visited P p
  let overlays := p.engine.mapVal fun _ state => state.summary
  let models := among v.sessions v.models
  let whole : Bool := P.sequence + 1 = 1 || P.callRevision ≠ some p.callRevision
  ({ epoch := P.epoch
     sequence := P.sequence + 1
     reset := P.sequence + 1 = 1
     token := p.token
     sessions := differing P.sessions v.sessions
     overlaySessions := differing P.overlays overlays
     removed := dropped P.sessions v.sessions
     modelCandidates := v.modelCandidates
     cacheCandidates := v.cacheCandidates
     models := if whole then some (allModels models) else none
     filterChoices := if whole then some (filterChoices p) else none },
   { epoch := P.epoch
     sequence := P.sequence + 1
     sessions := v.sessions
     overlays := overlays
     revisions := among v.sessions v.revisions
     models := models
     modelAlerts := among v.sessions v.modelAlerts
     revision := some p.revision
     callRevision := some p.callRevision })

/-- `heartbeat`, which raises where the publication is not the current one. -/
def heartbeat (P : Publisher ε κ ν β) (revision callRevision : Nat) (token : Option β) :
    Option (Message ε κ ν β × Publisher ε κ ν β) :=
  if P.sequence = 0 ∨ P.revision ≠ some revision ∨ P.callRevision ≠ some callRevision then none
  else some
    ({ epoch := P.epoch, sequence := P.sequence + 1, reset := false, token := token },
     { P with sequence := P.sequence + 1 })

/-! ## pages -/

/-- What `parts` yields. -/
inductive Part (κ ν β : Type) where
  | session (row : κ × Row β)
  | overlay (row : κ × Summary β)
  | removed (owner : κ)
  | modelCandidate (candidate : ModelCandidate κ β)
  | cacheCandidate (candidate : CacheCandidate κ β)
  | noModels
  | model (name : ν)
  | choice (name : String) (piece : Choice β)

def modelParts : Option (List ν) → List (Part κ ν β)
  | none => []
  | some [] => [.noModels]
  | some (name :: names) => (name :: names).map .model

def choiceParts : Option (Choices β) → List (Part κ ν β)
  | none => []
  | some choices => choices.entries.flatMap fun e => (pieces e.2).map (.choice e.1)

def parts (m : Message ε κ ν β) : List (Part κ ν β) :=
  m.sessions.map .session ++ m.overlaySessions.map .overlay ++ m.removed.map .removed ++
    m.modelCandidates.map .modelCandidate ++ m.cacheCandidates.map .cacheCandidate ++
    modelParts m.models ++ choiceParts m.filterChoices

def append (m : Message ε κ ν β) : Part κ ν β → Message ε κ ν β
  | .session row => { m with sessions := m.sessions ++ [row] }
  | .overlay row => { m with overlaySessions := m.overlaySessions ++ [row] }
  | .removed owner => { m with removed := m.removed ++ [owner] }
  | .modelCandidate candidate => { m with modelCandidates := m.modelCandidates ++ [candidate] }
  | .cacheCandidate candidate => { m with cacheCandidates := m.cacheCandidates ++ [candidate] }
  | .noModels => { m with models := some (m.models.getD [] ++ []) }
  | .model name => { m with models := some (m.models.getD [] ++ [name]) }
  | .choice name piece =>
    { m with
      filterChoices := some (Dict.merge Choice.merge (m.filterChoices.getD {}) (name, piece)) }

/-- `packet`, filled with a chunk of the parts. -/
def packet (m : Message ε κ ν β) (number : Nat) (first more : Bool) (chunk : List (Part κ ν β)) :
    Message ε κ ν β :=
  chunk.foldl append
    { paged := true, epoch := m.epoch, sequence := number, reset := first && m.reset, more := more
      token := m.token }

def pagesFrom (m : Message ε κ ν β) (number : Nat) (first : Bool) :
    List (List (Part κ ν β)) → List (Message ε κ ν β)
  | [] => []
  | [chunk] => [packet m number first false chunk]
  | chunk :: chunks => packet m number first true chunk :: pagesFrom m (number + 1) false chunks

/-- A list cut after the given numbers of members. -/
def chunks {α : Type} : List Nat → List α → List (List α)
  | [], xs => [xs]
  | size :: sizes, xs => xs.take size :: chunks sizes (xs.drop size)

def packets (m : Message ε κ ν β) : Option (List Nat) → List (Message ε κ ν β)
  | none => [m]
  | some sizes => pagesFrom m m.sequence true (chunks sizes (parts m))

/-! ## the receiver -/

/-- The copy that the pages of a publication fill. -/
structure Pending (κ ν β : Type) where
  sessions : Dict κ (Row β)
  overlays : Dict κ (Summary β)
  models : List ν
  filterChoices : Choices β
  modelsStarted : Bool := false
  choicesStarted : Bool := false
  changed : List (κ × Row β) := []
  removed : List κ := []
  modelCandidates : List (ModelCandidate κ β) := []
  cacheCandidates : List (CacheCandidate κ β) := []
  token : Option β := none
  reset : Bool

structure Receiver (ε κ ν β : Type) where
  epoch : Option ε := none
  sequence : Nat := 0
  sessions : Dict κ (Row β) := {}
  overlays : Dict κ (Summary β) := {}
  models : List ν := []
  retired : List ε := []
  filterChoices : Choices β := {}
  pending : Option (Pending κ ν β) := none

/-- What `receive` returns beside what the receiver holds. -/
structure Delivered (κ β : Type) where
  reset : Bool
  token : Option β
  changedSessions : List (κ × Row β)
  removed : List κ
  modelCandidates : List (ModelCandidate κ β)
  cacheCandidates : List (CacheCandidate κ β)
deriving DecidableEq

inductive Reply (κ β : Type) where
  | ignored
  | raises
  | value (delivered : Delivered κ β)
deriving DecidableEq

def amend {α : Type} (d : Dict κ α) (removed : List κ) (rows : List (κ × α)) : Dict κ α :=
  (removed.foldl Dict.erase d).update rows

def Pending.add (pending : Pending κ ν β) (m : Message ε κ ν β) : Pending κ ν β :=
  { sessions := amend pending.sessions m.removed m.sessions
    overlays := amend pending.overlays m.removed m.overlaySessions
    models := match m.models with
      | none => pending.models
      | some names => (if pending.modelsStarted then pending.models else []) ++ names
    filterChoices := match m.filterChoices with
      | none => pending.filterChoices
      | some choices =>
        Dict.merges Choice.merge (if pending.choicesStarted then pending.filterChoices else {})
          choices.entries
    modelsStarted := pending.modelsStarted || m.models.isSome
    choicesStarted := pending.choicesStarted || m.filterChoices.isSome
    changed := pending.changed ++ m.sessions
    removed := pending.removed ++ m.removed
    modelCandidates := pending.modelCandidates ++ m.modelCandidates
    cacheCandidates := pending.cacheCandidates ++ m.cacheCandidates
    token := m.token.or pending.token
    reset := pending.reset }

def Receiver.start (r : Receiver ε κ ν β) (m : Message ε κ ν β) : Pending κ ν β :=
  { sessions := if m.reset then {} else r.sessions
    overlays := if m.reset then {} else r.overlays
    models := r.models
    filterChoices := r.filterChoices
    reset := m.reset }

def Receiver.page (r : Receiver ε κ ν β) (m : Message ε κ ν β) :
    Reply κ β × Receiver ε κ ν β :=
  let pending := r.pending.getD (r.start m)
  if pending.token.isSome ∧ m.token.isSome ∧ m.token ≠ pending.token then
    (.raises, { r with pending := some pending })
  else
    let pending := pending.add m
    if m.more then (.ignored, { r with pending := some pending })
    else
      (.value ⟨pending.reset, pending.token, pending.changed, pending.removed,
          pending.modelCandidates, pending.cacheCandidates⟩,
        { r with
          sessions := pending.sessions, overlays := pending.overlays, models := pending.models
          filterChoices := pending.filterChoices, pending := none })

def Receiver.whole (r : Receiver ε κ ν β) (m : Message ε κ ν β) :
    Reply κ β × Receiver ε κ ν β :=
  if r.pending.isSome then (.raises, r)
  else
    (.value ⟨m.reset, m.token, m.sessions, m.removed, m.modelCandidates, m.cacheCandidates⟩,
      { r with
        sessions := amend r.sessions m.removed m.sessions
        overlays := amend r.overlays m.removed m.overlaySessions
        models := m.models.getD r.models
        filterChoices := m.filterChoices.getD r.filterChoices })

variable [DecidableEq ε]

/-- After the check for a reset. -/
def Receiver.advance (r : Receiver ε κ ν β) (m : Message ε κ ν β) :
    Reply κ β × Receiver ε κ ν β :=
  if r.epoch ≠ some m.epoch ∨ m.sequence ≤ r.sequence then (.ignored, r)
  else if m.sequence ≠ r.sequence + 1 then (.raises, r)
  else if m.paged then Receiver.page { r with sequence := m.sequence } m
  else Receiver.whole { r with sequence := m.sequence } m

def Receiver.restart (r : Receiver ε κ ν β) (m : Message ε κ ν β) : Receiver ε κ ν β :=
  { epoch := some m.epoch
    sequence := 0
    sessions := if m.paged then r.sessions else {}
    overlays := if m.paged then r.overlays else {}
    models := r.models
    retired := match r.epoch with
      | none => r.retired
      | some before => if before = m.epoch then r.retired else r.retired.insert before
    filterChoices := r.filterChoices
    pending := none }

def Receiver.receive (r : Receiver ε κ ν β) (m : Message ε κ ν β) :
    Reply κ β × Receiver ε κ ν β :=
  if m.reset = false then r.advance m
  else if m.epoch ∈ r.retired then (.ignored, r)
  else if r.epoch = some m.epoch ∧ m.sequence ≤ r.sequence then (.ignored, r)
  else if r.epoch.isSome ∧ r.epoch ≠ some m.epoch ∧ 64 ≤ r.retired.length then (.raises, r)
  else (r.restart m).advance m

end Codexon.SnapshotDelivery
