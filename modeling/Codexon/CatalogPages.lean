import Codexon.Json
import Codexon.Dict
import Codexon.Run

/-!
# Codexon.CatalogPages

`cachemonitor/usage_collection.py`: the catalog a live collection keeps in
memory (`LiveCollection.prepare`, as far as the identity of a catalog depends on
it) and the pages of it (`catalog_request`).

A session's encoded body is given by the body itself; a token certifies that
the body is the one before.  Of the activity only what decides about a change is
kept.  Requests are well formed: an offset is a number, homes are texts.
-/

namespace Codexon

namespace Catalog

/-- The reasons of `fail` that a well formed request can meet. -/
inductive Fault where
  | uncommitted
  | stale
  | scope
  | selectedPending
  | cursor
  | metadataKind
  | membershipFormat
  | entryBudget
  | metadataBudget
deriving DecidableEq, Repr

def Fault.text : Fault → PyStr
  | .uncommitted => py "uncommitted"
  | .stale => py "stale"
  | .scope => py "scope"
  | .selectedPending => py "selected_pending"
  | .cursor => py "cursor"
  | .metadataKind => py "metadata_kind"
  | .membershipFormat => py "membership_format"
  | .entryBudget => py "catalog_entry_budget"
  | .metadataBudget => py "catalog_metadata_budget"

/-! ## weights -/

/-- `raise ValueError('catalog_metadata_budget')` past the budget or the depth. -/
def bounded (budget depth weight : Nat) : Except Fault Nat :=
  if budget < weight ∨ 32 < depth then .error .metadataBudget else .ok weight

mutual
/-- `_catalog_weight` from a value on, where the stack has `depth` iterators. -/
def weigh (budget depth weight : Nat) : Json → Except Fault Nat
  | .arr xs =>
    match bounded budget (depth + 1) (weight + (64 + 32 * xs.length)) with
    | .ok weight => weighElems budget (depth + 1) weight xs
    | .error fault => .error fault
  | .obj members =>
    match bounded budget (depth + 1) (weight + (64 + 32 * members.length)) with
    | .ok weight => weighMembers budget (depth + 1) weight members
    | .error fault => .error fault
  | .str s => bounded budget depth (weight + (64 + 4 * s.length))
  | .null | .bool _ | .int _ | .float _ => bounded budget depth (weight + 32)

def weighElems (budget depth weight : Nat) : List Json → Except Fault Nat
  | [] => .ok weight
  | x :: xs =>
    match weigh budget depth weight x with
    | .ok weight => weighElems budget depth weight xs
    | .error fault => .error fault

/-- An item of a dictionary is a tuple. -/
def weighMembers (budget depth weight : Nat) : List (PyStr × Json) → Except Fault Nat
  | [] => .ok weight
  | (key, value) :: members =>
    match bounded budget (depth + 1) (weight + 128) with
    | .error fault => .error fault
    | .ok weight =>
      match bounded budget (depth + 1) (weight + (64 + 4 * key.length)) with
      | .error fault => .error fault
      | .ok weight =>
        match weigh budget (depth + 1) weight value with
        | .ok weight => weighMembers budget depth weight members
        | .error fault => .error fault
end

def catalogWeight (value : Json) (budget : Nat) : Except Fault Nat := weigh budget 1 0 value

def pageRows : Nat := 4096

def pageBytes : Nat := 4 * 1024 * 1024

/-! ## catalogs -/

/-- `(home, id)`. -/
abbrev Key := PyStr × PyStr

/-- `(epoch, sequence)`. -/
abbrev Identity := PyStr × Nat

/-- `CATALOG_STATE`. -/
def stateFields : List PyStr :=
  [py "collection_complete", py "status", py "totals", py "remaining"]

/-- A header without its membership lists, and these. -/
structure Header where
  rest : List (PyStr × Json)
  sessionCatalog : Option (List Json)
  demandMembers : Option (List Json)
deriving DecidableEq

/-- An entry of the manifest. -/
structure Entry where
  home : PyStr
  sid : PyStr
  revision : Nat
  bodyDigest : PyStr
  state : List (PyStr × Json)
  ownerMetadata : Option (List (PyStr × Json))
  ownerLineage : Option (List (PyStr × Json))
  analysisProof : Option Json
  sourceOrdinal : Nat
deriving DecidableEq

/-- The owner an entry refers to. -/
structure Reference where
  home : PyStr
  sid : PyStr
  revision : Nat
  bodyDigest : PyStr
  sourceOrdinal : Nat
deriving DecidableEq

def Entry.key (e : Entry) : Key := (e.home, e.sid)

def Entry.reference (e : Entry) : Reference :=
  ⟨e.home, e.sid, e.revision, e.bodyDigest, e.sourceOrdinal⟩

/-- The membership lists of a selection. -/
structure Membership where
  found : List Json
  sessionCatalog : List Json
  demandMembers : List Json
deriving DecidableEq

/-- A frozen selection. -/
structure Selection where
  membership : Membership
  membershipComplete : Bool
  owners : List Entry
  inaccessible : Bool
deriving DecidableEq

/-- What pages are made of. -/
structure Content where
  publication : Identity
  identity : Option Identity
  header : Header
  manifest : List Entry
  selections : List (PyStr × Selection)
deriving DecidableEq

/-- A request for a page. -/
structure Request where
  homes : List PyStr
  /-- The `selection_request` of a selection. -/
  selection : Option PyStr := none
  identity : Option Identity := none
  offset : Nat := 0
  includeMetadata : Bool := false
  lineage : Bool := false
  paged : Bool := true
  deferIncomplete : Bool := false
deriving DecidableEq

/-- What stands at one offset: a row of a membership list, or an owner. -/
inductive Item where
  | row (list : PyStr) (value : Json)
  | owner (e : Entry)
deriving DecidableEq

/-! ## one page -/

/-- `header.get('homes', [])`. -/
def Header.homes (h : Header) : List Json :=
  match Json.lookup h.rest (py "homes") with
  | some (.arr homes) => homes
  | _ => []

/-- `allowed.issubset(header.get('homes', []))`. -/
def Header.covers (h : Header) (homes : List PyStr) : Bool := homes.all fun home => .str home ∈ h.homes

def Header.loading (h : Header) : Bool :=
  match Json.lookup h.rest (py "index") with
  | some (.obj index) => ((Json.lookup index (py "loading")).map Json.truthy).getD false
  | _ => false

/-- `complete`, of a full catalog. -/
def Header.complete (h : Header) (homes : List PyStr) : Bool :=
  (match Json.lookup h.rest (py "catalog_complete") with
    | some value => value.truthy
    | none =>
      ((Json.lookup h.rest (py "usage_collection_complete")).map Json.truthy).getD false &&
        !h.loading) && h.covers homes

/-- `session_catalog` and `demand_members`, where present. -/
def Header.lists (h : Header) : List (PyStr × List Json) :=
  (h.sessionCatalog.map fun rows => (py "session_catalog", rows)).toList ++
    (h.demandMembers.map fun rows => (py "demand_members", rows)).toList

def Membership.lists (m : Membership) : List (PyStr × List Json) :=
  [(py "matches", m.found), (py "session_catalog", m.sessionCatalog),
    (py "demand_members", m.demandMembers)]

/-- What a request reads: its lists, its owners and whether they are complete. -/
structure Source where
  lists : List (PyStr × List Json)
  owners : List Entry
  complete : Bool

def Source.items (s : Source) (paged : Bool) : List Item :=
  (if paged then s.lists.flatMap fun l => l.2.map (Item.row l.1) else []) ++ s.owners.map Item.owner

def source (c : Content) (r : Request) : Except Fault Source :=
  match c.identity with
  | none => .error .uncommitted
  | some committed =>
    if r.identity.isSome ∧ r.identity ≠ some committed then .error .stale
    else
      match r.selection with
      | some request =>
        match (c.selections.find? (·.1 = request)).map (·.2) with
        | none => .error .selectedPending
        | some captured =>
          if captured.inaccessible then .error .scope
          else if r.offset ≠ 0 ∧ r.identity.isNone then .error .cursor
          else if !r.lineage then .error .metadataKind
          else if !r.paged then .error .membershipFormat
          else
            .ok ⟨captured.membership.lists, captured.owners,
              captured.membershipComplete && c.header.covers r.homes⟩
      | none =>
        if Json.lookup c.header.rest (py "catalog_scope") = some (.str (py "selected")) then
          .error .selectedPending
        else if r.offset ≠ 0 ∧ r.identity.isNone then .error .cursor
        else .ok ⟨c.header.lists, c.manifest, c.header.complete r.homes⟩

/-- `home_ids`: the last position of a home. -/
def homeId (homes : List PyStr) (home : PyStr) : Nat :=
  homes.length - 1 - homes.reverse.findIdx (· = home)

/-- `[[index, source['state'][key]] ..]`. -/
def stateRow (state : List (PyStr × Json)) : Json :=
  .arr ((stateFields.zipIdx).filterMap fun f =>
    (Json.lookup state f.1).map fun value => .arr [.int f.2, value])

def ownerRow (r : Request) (e : Entry) : Json :=
  let field := if r.lineage then e.ownerLineage else e.ownerMetadata
  let envelope : Json := match field with
    | none => .null
    | some members =>
      .obj (match e.analysisProof with
        | some proof => if r.lineage then Json.assign members (py "_analysis_proof") proof else members
        | none => members)
  .arr ([.int (homeId r.homes e.home), .str e.sid, .int e.revision, .str e.bodyDigest,
      stateRow e.state, .bool field.isSome] ++
    (if r.includeMetadata then [envelope] else []) ++
    if r.selection.isSome then [.int e.sourceOrdinal] else [])

def Item.json (r : Request) : Item → Json
  | .row _ value => value
  | .owner e => ownerRow r e

/-- The page has it: owners of other homes are passed over. -/
def Item.allowed (r : Request) : Item → Bool
  | .row _ _ => true
  | .owner e => e.home ∈ r.homes

/-- The loop over the sections, from `position` on: what it takes and where it
ends. -/
def fill (r : Request) : List Item → (position remaining : Nat) → (empty : Bool) →
    Except Fault (List Item × Nat)
  | [], position, _, _ => .ok ([], position)
  | item :: items, position, remaining, empty =>
    if !item.allowed r then fill r items (position + 1) remaining empty
    else
      match catalogWeight (item.json r) pageBytes with
      | .error fault => .error fault
      | .ok weight =>
        if remaining < weight + 32 then
          if empty then .error .entryBudget else .ok ([], position)
        else
          match fill r items (position + 1) (remaining - (weight + 32)) false with
          | .error fault => .error fault
          | .ok (taken, finish) => .ok (item :: taken, finish)

def identityJson (i : Identity) : Json := .arr [.str i.1, .int i.2]

def rowsOf (list : PyStr) (taken : List Item) : List Json :=
  taken.filterMap fun
    | .row l value => if l = list then some value else none
    | .owner _ => none

def ownersOf (r : Request) (taken : List Item) : List Json :=
  taken.filterMap fun
    | .row _ _ => none
    | .owner e => some (ownerRow r e)

def nextJson : Option Nat → Json
  | some offset => .int offset
  | none => .null

def membershipJson (s : Source) (taken : List Item) : Json :=
  .obj (s.lists.map fun l => (l.1, .arr (rowsOf l.1 taken)))

/-- The members of `result` that do not depend on the rows. -/
def resultFrame (c : Content) (r : Request) (s : Source) : List (PyStr × Json) :=
  let header : Json := .obj (c.header.rest ++
    if r.paged then [] else c.header.lists.map fun l => (l.1, .arr l.2))
  [(py "protocol", .int 6), (py "publication", identityJson c.publication),
    (py "catalog_identity", (c.identity.map identityJson).getD .null), (py "ready", .bool true),
    (py "header", header), (py "selected_homes", .arr (r.homes.map .str)),
    (py "membership_complete", .bool s.complete), (py "owner_format", .str (py "refs-v1")),
    (py "include_metadata", .bool r.includeMetadata),
    (py "metadata_kind", .str (if r.lineage then py "lineage" else py "full"))] ++
  (if r.paged then
    [(py "membership_format", .str (if r.selection.isSome then py "selected-v1" else py "paged-v1"))]
  else []) ++
  match r.selection with
  | some request => [(py "authority", .str (py "selected")), (py "selection_request", .str request)]
  | none => []

/-- `result`, with the rows taken; the order of its members does not matter. -/
def result (c : Content) (r : Request) (s : Source) (taken : List Item) (next : Option Nat) : Json :=
  .obj ((py "owners", .arr (ownersOf r taken)) :: (py "next_offset", nextJson next) ::
    ((if r.paged then [(py "membership", membershipJson s taken)] else []) ++ resultFrame c r s))

/-- A page. -/
structure Page where
  identity : Option Identity
  taken : List Item
  next : Option Nat
deriving DecidableEq

def defers (r : Request) (s : Source) : Bool := r.deferIncomplete && !s.complete && r.offset = 0

/-- The loop of a page and its result, before the last check. -/
def page (c : Content) (r : Request) (s : Source) (weight : Nat) : Except Fault Page :=
  match fill r (((s.items r.paged).drop r.offset).take pageRows) r.offset (pageBytes - weight) true with
  | .error fault => .error fault
  | .ok (taken, finish) =>
    .ok ⟨c.identity, taken, if finish < (s.items r.paged).length then some finish else none⟩

def catalogRequest (c : Content) (r : Request) : Except Fault Page :=
  match source c r with
  | .error fault => .error fault
  | .ok s =>
    match catalogWeight (result c r s [] none) pageBytes with
    | .error fault => .error fault
    | .ok weight =>
      if defers r s then .ok ⟨c.identity, [], none⟩
      else if (s.items r.paged).length < r.offset then .error .cursor
      else
        match page c r s weight with
        | .error fault => .error fault
        | .ok page =>
          match catalogWeight (result c r s page.taken page.next) pageBytes with
          | .error fault => .error fault
          | .ok _ => .ok page

/-! ## publications -/

/-- A session of a snapshot, with the metadata admitted for it.  `certified`: its
token is the one of the last publication. -/
structure Session where
  key : Key
  encoded : Bool := false
  certified : Bool := false
  fingerprint : Bytes
  bodyDigest : PyStr
  state : List (PyStr × Json)
  ownerMetadata : Option (List (PyStr × Json)) := none
  ownerLineage : Option (List (PyStr × Json)) := none
  analysisProof : Option Json := none

/-- A selection as it is requested. -/
structure Selected where
  homes : List PyStr
  membership : Membership
  membershipComplete : Bool

/-- What is published. -/
structure Snapshot where
  header : Header
  sessions : List Session
  distinct : (sessions.map (·.key)).Nodup
  activityKeys : List Key := []
  activitiesPresent : Bool := false
  activityDigest : Bytes := []
  selections : List (PyStr × Selected) := []

/-- A saved body. -/
structure Row where
  revision : Nat
  fingerprint : Bytes
  bodyDigest : PyStr
deriving DecidableEq

/-- What `durable` has of a selection. -/
structure SelectedContent where
  homes : List PyStr
  membership : Membership
  membershipComplete : Bool
  inaccessible : Bool
  owners : List (Reference × Option (List (PyStr × Json)))
deriving DecidableEq

/-- What `durable` is the fingerprint of. -/
structure Durable where
  epoch : PyStr
  stable : List (PyStr × Json)
  sessionCatalog : Option (List Json)
  demandMembers : Option (List Json)
  meaningfulIndex : List (PyStr × Json)
  meaningfulRevision : Nat
  activityDigest : Bytes
  activitiesPresent : Bool
  selections : List (PyStr × SelectedContent)
deriving DecidableEq

/-- The current publication of a live collection. -/
structure Live (δ : Type) where
  content : Content
  rows : Dict Key Row
  activityKeys : List Key
  activitiesPresent : Bool
  meaningfulRevision : Nat
  durable : δ

def counters : List PyStr :=
  [py "done", py "files", py "bytes_read", py "version", py "last_usage_success",
    py "usage_complete_at"]

/-- The part of a header that stays while a collection runs. -/
def Header.stable (h : Header) : List (PyStr × Json) :=
  h.rest.filter fun m => m.1 ∉ [py "ts", py "last_usage_collection_success", py "index"]

def Header.meaningfulIndex (h : Header) : List (PyStr × Json) :=
  match Json.lookup h.rest (py "index") with
  | some (.obj index) => index.filter fun m => m.1 ∉ counters
  | _ => []

def settledState (state : List (PyStr × Json)) : List (PyStr × Json) :=
  state.filter fun m => m.1 ≠ py "remaining"

/-- `row`, or the body of an `EncodedSession`. -/
def Session.saved (s : Session) (old : Option Row) (sequence : Nat) : Row :=
  match old with
  | some old =>
    if (if s.encoded then old.bodyDigest = s.bodyDigest
        else s.certified = true ∨ old.fingerprint = s.fingerprint) then old
    else ⟨sequence, s.fingerprint, s.bodyDigest⟩
  | none => ⟨sequence, s.fingerprint, s.bodyDigest⟩

/-- The entry of a session, and whether it changed in a way that means something. -/
def Session.entry (s : Session) (old : Option Entry) (saved : Row) (ordinal : Nat) : Entry × Bool :=
  let fresh : Entry :=
    ⟨s.key.1, s.key.2, saved.revision, saved.bodyDigest, s.state, s.ownerMetadata, s.ownerLineage,
      s.analysisProof, ordinal⟩
  match old with
  | some old =>
    if old.revision = saved.revision ∧ old.state = s.state then
      ({ old with
          ownerMetadata := s.ownerMetadata
          ownerLineage := s.ownerLineage
          analysisProof := s.analysisProof
          sourceOrdinal := ordinal }, false)
    else (fresh, old.revision ≠ saved.revision ∨ settledState old.state ≠ settledState s.state)
  | none => (fresh, true)

def Selected.owners (s : Selected) (manifest : List Entry) : List Entry :=
  manifest.filter fun e => e.home ∈ s.homes ∧
    s.membership.sessionCatalog.any fun
      | .arr [.str home, .str sid, _] => home = e.home ∧ sid = e.sid
      | _ => false

/-- A match names one home that is not among the selected ones. -/
def Selected.inaccessible (s : Selected) : Bool :=
  s.membership.found.any fun
    | .arr [_, _, .arr [home]] => !s.homes.any fun h => home = .str h
    | _ => false

def Selected.frozen (s : Selected) (manifest : List Entry) : Selection :=
  ⟨s.membership, s.membershipComplete, s.owners manifest, s.inaccessible⟩

def Selected.content (s : Selected) (manifest : List Entry) : SelectedContent :=
  ⟨s.homes, s.membership, s.membershipComplete, s.inaccessible,
    (s.owners manifest).map fun e => (e.reference, e.ownerLineage)⟩

section

variable {δ : Type}

/-- `previous`, in the same epoch. -/
def Live.inEpoch (previous : Option (Live δ)) (epoch : PyStr) : Option (Live δ) :=
  previous.filter fun l => l.content.publication.1 = epoch

def savedRow (previous : Option (Live δ)) (sequence : Nat) (s : Session) : Row :=
  s.saved (previous.bind fun l => l.rows.get? s.key) sequence

def preparedEntry (previous : Option (Live δ)) (sequence : Nat) (t : Session × Nat) : Entry × Bool :=
  t.1.entry (previous.bind fun l => l.content.manifest.find? fun e => e.key = t.1.key)
    (savedRow previous sequence t.1) t.2

def preparedEntries (previous : Option (Live δ)) (sequence : Nat) (sessions : List Session) :
    List (Entry × Bool) :=
  sessions.zipIdx.map (preparedEntry previous sequence)

def membershipChanged (previous : Option (Live δ)) (snapshot : Snapshot) : Bool :=
  match previous with
  | none => true
  | some l =>
    snapshot.sessions.map (·.key) ≠ l.content.manifest.map Entry.key ||
      snapshot.activityKeys ≠ l.activityKeys || snapshot.activitiesPresent ≠ l.activitiesPresent

def nextMeaningful (previous : Option (Live δ)) (snapshot : Snapshot) (sequence : Nat) : Nat :=
  match previous with
  | none => sequence
  | some l =>
    if (preparedEntries previous sequence snapshot.sessions).any (·.2) ||
        membershipChanged previous snapshot then sequence
    else l.meaningfulRevision

def durableOf (snapshot : Snapshot) (epoch : PyStr) (meaningfulRevision : Nat) (manifest : List Entry) :
    Durable where
  epoch
  stable := snapshot.header.stable
  sessionCatalog := snapshot.header.sessionCatalog
  demandMembers := snapshot.header.demandMembers
  meaningfulIndex := snapshot.header.meaningfulIndex
  meaningfulRevision
  activityDigest := snapshot.activityDigest
  activitiesPresent := snapshot.activitiesPresent
  selections := snapshot.selections.map fun s => (s.1, s.2.content manifest)

variable (fingerprint : Durable → δ)

/-- `LiveCollection.prepare`; the identity is given by `publish`. -/
def prepare (previous : Option (Live δ)) (snapshot : Snapshot) (epoch : PyStr) (sequence : Nat) :
    Live δ :=
  let previous := Live.inEpoch previous epoch
  let manifest := (preparedEntries previous sequence snapshot.sessions).map (·.1)
  let meaningfulRevision := nextMeaningful previous snapshot sequence
  { content := ⟨(epoch, sequence), none, snapshot.header, manifest,
      snapshot.selections.map fun s => (s.1, s.2.frozen manifest)⟩
    rows := snapshot.sessions.foldl (fun d s => d.set s.key (savedRow previous sequence s)) {}
    activityKeys := snapshot.activityKeys
    activitiesPresent := snapshot.activitiesPresent
    meaningfulRevision
    durable := fingerprint (durableOf snapshot epoch meaningfulRevision manifest) }

variable [DecidableEq δ]

/-- `CollectionChannel.publish`, for the live collection.  `removes`: an owner
known to be removed is still published or retained. -/
def publish (current : Option (Live δ)) (snapshot : Snapshot) (epoch : PyStr) (sequence : Nat)
    (removes : Bool) : Live δ :=
  let candidate := prepare fingerprint current snapshot epoch sequence
  let identity := match current with
    | some l => if candidate.durable = l.durable ∧ removes = false then l.content.identity
        else some (epoch, sequence)
    | none => some (epoch, sequence)
  { candidate with content := { candidate.content with identity } }

end

/-! ## following the pages -/

/-- What a page has, up to the parts of an owner's row that may change under one
identity. -/
inductive Mark where
  | row (list : PyStr) (value : Json)
  | owner (reference : Reference)
deriving DecidableEq

def Item.mark : Item → Mark
  | .row list value => .row list value
  | .owner e => .owner e.reference

def Mark.allowed (r : Request) : Mark → Bool
  | .row _ _ => true
  | .owner reference => reference.home ∈ r.homes

/-- A client that follows the pages of a request.  `pages`: how many it has. -/
structure Follower where
  request : Request
  identity : Identity
  pages : Nat
  received : List Mark
  next : Option Nat
  deferred : Bool
deriving DecidableEq

/-- A committed catalog: its membership lists and owners, and its selections. -/
structure Committed where
  lists : List (PyStr × List Json)
  owners : List Reference
  selections : List (PyStr × Membership × List Reference)

def Content.committed (c : Content) : Committed where
  lists := c.header.lists
  owners := c.manifest.map Entry.reference
  selections := c.selections.map fun s => (s.1, s.2.membership, s.2.owners.map Entry.reference)

def Committed.source (a : Committed) (r : Request) : List (PyStr × List Json) × List Reference :=
  match r.selection with
  | some request =>
    match (a.selections.find? fun s => s.1 = request).map (·.2) with
    | some selection => (selection.1.lists, selection.2)
    | none => ([], [])
  | none => (a.lists, a.owners)

def Committed.marks (a : Committed) (r : Request) : List Mark :=
  (if r.paged then (a.source r).1.flatMap fun l => l.2.map (Mark.row l.1) else []) ++
    (a.source r).2.map Mark.owner

/-- The live collection and the clients; besides, the epochs used, the last
publication and the catalogs committed. -/
structure World (δ ι : Type) where
  current : Option (Live δ) := none
  followers : ι → Option Follower := fun _ => none
  epochs : List PyStr := []
  last : Option Identity := none
  committed : List (Identity × Committed) := []

inductive Action (ι : Type) where
  | restart
  | publish (snapshot : Snapshot) (epoch : PyStr) (sequence : Nat) (removes : Bool)
  /-- A client asks for the first page. -/
  | start (client : ι) (r : Request)
  /-- A client asks for the next page. -/
  | follow (client : ι)

def started (c : Content) (r : Request) : Option Follower :=
  match catalogRequest c r, source c r with
  | .ok page, .ok s =>
    page.identity.map fun identity =>
      ⟨r, identity, 1, page.taken.map Item.mark, page.next, defers r s⟩
  | _, _ => none

def followed (c : Content) (f : Follower) (offset : Nat) : Option Follower :=
  match catalogRequest c { f.request with offset, identity := some f.identity } with
  | .ok page =>
    some { f with
      pages := f.pages + 1
      received := f.received ++ page.taken.map Item.mark
      next := page.next }
  | .error _ => none

namespace World

variable {δ ι : Type} [DecidableEq ι]

/-- A client's pages so far, or none. -/
def setFollower (w : World δ ι) (i : ι) (f : Option Follower) : World δ ι :=
  { w with followers := fun j => if j = i then f else w.followers j }

def step [DecidableEq δ] (fingerprint : Durable → δ) (w : World δ ι) : Action ι → World δ ι
  | .restart => { w with current := none }
  | .publish snapshot epoch sequence removes =>
    let l := Catalog.publish fingerprint w.current snapshot epoch sequence removes
    { w with
      current := some l
      epochs := epoch :: w.epochs
      last := some (epoch, sequence)
      committed := (l.content.identity.map fun identity => (identity, l.content.committed)).toList ++
        w.committed }
  | .start i r =>
    match w.current with
    | some l => w.setFollower i (started l.content { r with offset := 0, identity := none })
    | none => w
  | .follow i =>
    match w.current, w.followers i with
    | some l, some f =>
      match f.next with
      | some offset => w.setFollower i (followed l.content f offset)
      | none => w
    | _, _ => w

end World

end Catalog

end Codexon
