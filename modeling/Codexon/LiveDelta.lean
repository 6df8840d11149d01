import Codexon.CollectionChannel

/-!
# Codexon.LiveDelta

`cachemonitor/usage_collection.py`: what a live collection keeps of each
publication (`LiveCollection.prepare`), what it sends to a client that has an
earlier one (`request`) and what the client makes of it (`_read_live`).

A payload is sent with its entry here; the source sends the sizes and joins the
payloads.  A retained pending session has its body, its state and a mark.
-/

namespace Codexon.Delta

open Channel (Key Codec ScopeError)

/-- `(epoch, sequence)`. -/
abbrev Identity := PyStr × Nat

variable {β : Type}

def digestOf (codec : Codec β) (body : β) : Bytes := codec.digest (codec.encode body)

/-! ## publications -/

/-- A session, or an activity record, as it is published.  `metadata` is what the
catalog has of it besides; `certified`: its token is the one of the last publication. -/
structure Record (β : Type) where
  key : Key
  body : β
  state : Json := .null
  metadata : Json := .null
  encoded : Bool := false
  certified : Bool := false

/-- A row with its entry. -/
structure Item (β : Type) where
  key : Key
  revision : Nat
  stateRevision : Nat
  body : β
  state : Json
  metadata : Json

/-- What is published.  There are no activities if they are streamed. -/
structure Snapshot (β : Type) where
  sessions : List (Record β)
  distinct : (sessions.map (·.key)).Nodup
  activities : Option (List (Record β)) := none
  activitiesDistinct : ((activities.getD []).map (·.key)).Nodup
  /-- `activity_revision` is the one of the last publication. -/
  activitiesCertified : Bool := false
  homes : List PyStr := []
  /-- `index.loading`. -/
  loading : Bool := false

/-- The current publication. -/
structure Live (β : Type) where
  identity : Identity
  sessions : List (Item β)
  activities : List (Item β)
  activitiesPresent : Bool
  membershipRevision : Nat
  homes : List PyStr
  loading : Bool

def Record.keeps (codec : Codec β) (r : Record β) (old : Item β) : Bool :=
  if r.encoded then digestOf codec old.body = digestOf codec r.body
  else r.certified || codec.fingerprint old.body = codec.fingerprint r.body

/-- `row`, or the body of an `EncodedSession`. -/
def Record.saved (codec : Codec β) (r : Record β) (old : Option (Item β)) (sequence : Nat) : Nat × β :=
  match old with
  | some old =>
    if r.keeps codec old then (old.revision, old.body) else (sequence, r.body)
  | none => (sequence, r.body)

def Record.item (codec : Codec β) (r : Record β) (old : Option (Item β)) (sequence : Nat) : Item β :=
  let saved := r.saved codec old sequence
  match old with
  | some old =>
    if old.revision = saved.1 ∧ old.state = r.state then
      if old.metadata = r.metadata then { old with body := saved.2 }
      else { old with body := saved.2, metadata := r.metadata, stateRevision := sequence }
    else ⟨r.key, saved.1, sequence, saved.2, r.state, r.metadata⟩
  | none => ⟨r.key, saved.1, sequence, saved.2, r.state, r.metadata⟩

def itemsOf (codec : Codec β) (old : List (Item β)) (sequence : Nat) (records : List (Record β)) :
    List (Item β) :=
  records.map fun r => r.item codec (old.find? fun x => x.key = r.key) sequence

/-- `previous`, in the same epoch. -/
def Live.inEpoch (previous : Option (Live β)) (epoch : PyStr) : Option (Live β) :=
  previous.filter fun l => l.identity.1 = epoch

def prepare (codec : Codec β) (previous : Option (Live β)) (snapshot : Snapshot β)
    (identity : Identity) : Live β :=
  let previous := Live.inEpoch previous identity.1
  let sessions := itemsOf codec (previous.elim [] (·.sessions)) identity.2 snapshot.sessions
  let present := snapshot.activities.isSome
  let activities :=
    if previous.any fun l => snapshot.activitiesCertified && l.activitiesPresent == present then
      previous.elim [] (·.activities)
    else itemsOf codec (previous.elim [] (·.activities)) identity.2 (snapshot.activities.getD [])
  let membershipRevision := match previous with
    | none => identity.2
    | some l =>
      if sessions.map (·.key) ≠ l.sessions.map (·.key) ∨
          activities.map (·.key) ≠ l.activities.map (·.key) ∨ present ≠ l.activitiesPresent then
        identity.2
      else l.membershipRevision
  { identity, sessions, activities, activitiesPresent := present, membershipRevision
    homes := snapshot.homes, loading := snapshot.loading }

/-! ## a response -/

inductive Protocol where
  | three
  | four
  | five
deriving DecidableEq

/-- A request.  `recovered` has the digests of the bodies that a checkpoint proves. -/
structure Asked where
  protocol : Protocol
  known : Option Identity
  recovered : Dict Key Bytes := {}
  exclusions : List Key := []

/-- An entry as it is sent, and its payload unless the client has it. -/
structure Sent where
  key : Key
  revision : Nat
  digest : Bytes
  state : Json
  payload : Option Bytes

structure Response where
  protocol : Protocol
  identity : Identity
  full : Bool
  sessions : List Sent
  activities : Option (List Sent)
  homes : List PyStr
  loading : Bool

def since (l : Live β) (known : Option Identity) : Option Nat :=
  match known with
  | some known =>
    if known.1 = l.identity.1 ∧ 0 < known.2 ∧ known.2 ≤ l.identity.2 then some known.2 else none
  | none => none

/-- `since < revision`. -/
def newer (since : Option Nat) (revision : Nat) : Bool := since.all fun n => n < revision

def Asked.proves (a : Asked) (key : Key) (digest : Bytes) : Bool :=
  a.protocol = .five ∧ key ∉ a.exclusions ∧ a.recovered.get? key = some digest

/-- `manifest`, of the items whose `changed` revision is newer, or all. -/
def manifest (codec : Codec β) (full : Bool) (since : Option Nat) (changed : Item β → Nat)
    (proves : Key → Bytes → Bool) (items : List (Item β)) : List Sent :=
  (items.filter fun x => full || newer since (changed x)).map fun x =>
    { key := x.key
      revision := x.revision
      digest := digestOf codec x.body
      state := x.state
      payload :=
        if newer since x.revision && !proves x.key (digestOf codec x.body) then
          some (codec.encode x.body)
        else none }

def request (codec : Codec β) (l : Live β) (a : Asked) : Response :=
  let since := since l a.known
  let full := a.protocol = .three || newer since l.membershipRevision
  { protocol := a.protocol
    identity := l.identity
    full
    sessions := manifest codec full since (·.stateRevision) a.proves l.sessions
    activities :=
      if l.activitiesPresent then
        some (manifest codec full since (·.revision) (fun _ _ => false) l.activities)
      else none
    homes := l.homes
    loading := l.loading }

/-! ## a client -/

/-- A session a client holds: its revision, unless it is retained as pending, its
body with its digest, and its state. -/
structure Held (β : Type) where
  revision : Option Nat
  body : β
  digest : Bytes
  state : Json
  pending : Bool := false

/-- A client. -/
structure Client (β : Type) where
  publication : Option Identity := none
  sessions : Dict Key (Held β) := {}
  activities : Dict Key (Nat × β) := {}
  /-- What it read from the database before. -/
  stored : Dict Key (β × Json) := {}
  homes : List PyStr := []
  retainPending : Bool := false

namespace Client

variable (codec : Codec β) (c : Client β)

def cachedBody (key : Key) (digest : Bytes) : Option β :=
  match (c.sessions.get? key).filter (·.digest = digest) with
  | some held => some held.body
  | none => ((c.stored.get? key).map (·.1)).filter fun body => digestOf codec body = digest

def decodeBody (key : Key) (payload digest : Bytes) : Except ScopeError β :=
  if codec.digest payload ≠ digest then .error {}
  else .ok ((c.cachedBody codec key digest).getD (codec.decode payload))

def sessionRow (protocol : Protocol) (old : Option (Held β)) (e : Sent) : Except ScopeError (Held β) :=
  match e.payload with
  | some payload =>
    (c.decodeBody codec e.key payload e.digest).map fun body =>
      ⟨some e.revision, body, e.digest, e.state, false⟩
  | none =>
    match old.filter (·.revision = some e.revision) with
    | some old =>
      if e.digest = old.digest then .ok ⟨some e.revision, old.body, e.digest, e.state, false⟩
      else .error {}
    | none =>
      if protocol = .five then
        match c.cachedBody codec e.key e.digest with
        | some body => .ok ⟨some e.revision, body, e.digest, e.state, false⟩
        | none => .error {}
      else .error {}

def activityRow (old : Option (Nat × β)) (e : Sent) : Except ScopeError (Nat × β) :=
  match e.payload with
  | some payload => .ok (e.revision, codec.decode payload)
  | none =>
    match old with
    | some old => if old.1 = e.revision then .ok (e.revision, old.2) else .error {}
    | none => .error {}

def rows {ν : Type} (row : Option ν → Sent → Except ScopeError ν) (previous : Dict Key ν) :
    List Sent → Dict Key ν → Except ScopeError (Dict Key ν)
  | [], current => .ok current
  | e :: es, current =>
    match row (previous.get? e.key) e with
    | .ok held => rows row previous es (current.set e.key held)
    | .error error => .error error

/-- The sessions a client can retain: of its last live publication, or of the
database. -/
def candidates : List (Key × β × Json) :=
  if c.publication.isSome then c.sessions.entries.map fun e => (e.1, e.2.body, e.2.state)
  else c.stored.entries

def retain (homes : List PyStr) (loading : Bool) (current : Dict Key (Held β)) : Dict Key (Held β) :=
  if !c.retainPending then current
  else if !loading then
    ⟨current.entries.filter (!·.2.pending), current.nodup.sublist (List.filter_sublist.map _)⟩
  else
    c.candidates.foldl (fun d e =>
      if (d.get? e.1).isNone ∧ e.1.1 ∈ homes ∧ e.1.1 ∈ c.homes then
        d.set e.1 ⟨none, e.2.1, digestOf codec e.2.1, e.2.2, true⟩
      else d) current

def readLive (r : Response) : Except ScopeError (Client β) :=
  let sameEpoch := c.publication.map (·.1) = some r.identity.1
  let delta := r.protocol ≠ .three ∧ r.full = false
  if delta ∧ ¬sameEpoch then .error {}
  else
    let oldSessions := if sameEpoch then c.sessions else {}
    let oldActivities := if sameEpoch then c.activities else {}
    match rows (c.sessionRow codec r.protocol) oldSessions r.sessions (if delta then oldSessions else {}) with
    | .error error => .error error
    | .ok sessions =>
      match r.activities with
      | none =>
        .ok { c with
          publication := some r.identity
          sessions := c.retain codec r.homes r.loading sessions
          activities := {}
          stored := {} }
      | some entries =>
        match rows (activityRow codec) oldActivities entries (if delta then oldActivities else {}) with
        | .error error => .error error
        | .ok activities =>
          .ok { c with
            publication := some r.identity
            sessions := c.retain codec r.homes r.loading sessions
            activities
            stored := {} }

/-- The sessions it holds, but for the pending ones. -/
def shown : List (Key × β × Json) :=
  (c.sessions.entries.filter (!·.2.pending)).map fun e => (e.1, e.2.body, e.2.state)

end Client

/-! ## runs -/

/-- The live collection and its clients; besides, the epochs used and what was
published. -/
structure World (β ι : Type) where
  current : Option (Live β) := none
  clients : ι → Client β
  epochs : List PyStr := []
  published : List (Identity × Snapshot β) := []

inductive Action (β ι : Type) where
  | restart
  | publish (snapshot : Snapshot β) (identity : Identity)
  /-- A client reads; a checkpoint may prove bodies. -/
  | read (client : ι) (protocol : Protocol) (recovered : Dict Key Bytes) (exclusions : List Key)
  /-- A client reads the database. -/
  | store (client : ι) (stored : Dict Key (β × Json))

namespace World

variable {ι : Type} [DecidableEq ι] (codec : Codec β)

def read (w : World β ι) (i : ι) (l : Live β) (protocol : Protocol) (recovered : Dict Key Bytes)
    (exclusions : List Key) : Except ScopeError (Client β) :=
  (w.clients i).readLive codec
    (request codec l ⟨protocol, (w.clients i).publication, recovered, exclusions⟩)

def setClient (w : World β ι) (i : ι) (c : Client β) : World β ι :=
  { w with clients := fun j => if j = i then c else w.clients j }

def step (w : World β ι) : Action β ι → World β ι
  | .restart => { w with current := none }
  | .publish snapshot identity =>
    { w with
      current := some (prepare codec w.current snapshot identity)
      epochs := identity.1 :: w.epochs
      published := (identity, snapshot) :: w.published }
  | .read i protocol recovered exclusions =>
    match w.current with
    | some l =>
      match w.read codec i l protocol recovered exclusions with
      | .ok c => w.setClient i c
      | .error _ => w
    | none => w
  | .store i stored => w.setClient i { w.clients i with stored }

end World

end Codexon.Delta
