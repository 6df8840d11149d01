import Codexon.Dict
import Codexon.Json
import Codexon.Run

/-!
# Codexon.ActivityPages

`cachemonitor/usage_collection.py`: the activity stream of a publication and
the pages a client reads of it.

`CollectionChannel.publish` writes the changed activity rows under growing
revisions; `activity_page` reads the rows above a cursor, and
`acknowledge_activity` moves the cursor.  A publication is one transaction, and
of its header only what these functions read is spelled out.

`encode` stands for the compressed JSON of a record and `fingerprint` for the
digest that tells a publication durably equal to the current one.  A page is
given by its rows: `request_activity` is what their payloads decode to.
-/

namespace Codexon.Activity

/-- A record of `request_activity`. -/
structure Record where
  home : PyStr
  attempt : PyStr
  body : Json
deriving DecidableEq

/-- The key of the table `activity`. -/
abbrev Key := PyStr × PyStr

/-- A row of the table `activity`. -/
structure Row where
  revision : Nat
  position : Nat
  payload : Bytes
deriving DecidableEq

/-- What is published. -/
structure Snapshot where
  records : List Record
  source : Option PyStr
  limit : Option Int
  content : Json
  /-- A session known to be removed is still published or retained. -/
  removes : Bool := false

/-- The header of a publication. -/
structure Header where
  source : Option PyStr
  limit : Option Int
  content : Json
  highwater : Nat
  liveStart : Nat
deriving DecidableEq

/-- The durable part: the table `activity` and the header in `snapshot`. -/
structure Db where
  rows : Dict Key Row := {}
  header : Option Header := none
deriving DecidableEq

def maxRevision (rows : Dict Key Row) : Nat := (rows.entries.map (·.2.revision)).foldr max 0

/-- The publishing `CollectionChannel`: attributes not set yet are `none`. -/
structure Publisher where
  source : Option PyStr := none
  limit : Int := 0
  rowRevision : Nat := 0
  liveStart : Option Nat := none
  /-- `self.live`: its current header and durable digest, once published. -/
  live : Option (Option (Header × Bytes)) := none
deriving DecidableEq

section

variable (encode : Record → Bytes) (fingerprint : Header → Bytes)

def storeActivity (t : Dict Key Row × Nat) (record : Record) : Dict Key Row × Nat :=
  let (rows, revision) := t
  let payload := encode record
  if (rows.get? (record.home, record.attempt)).map (·.payload) = some payload then (rows, revision)
  else
    (rows.set (record.home, record.attempt)
      { revision := revision + 1, position := revision + 1, payload }, revision + 1)

/-- `snapshot`, with what the channel knows of the stream. -/
def Publisher.candidate (p : Publisher) (snapshot : Snapshot) : Header where
  source := snapshot.source
  limit := snapshot.limit
  content := snapshot.content
  highwater := p.rowRevision
  liveStart := p.liveStart.getD 0

def Publisher.equal (p : Publisher) (snapshot : Snapshot) : Prop :=
  p.live.join.map (·.2) = some (fingerprint (p.candidate snapshot)) ∧ snapshot.removes = false

instance (p : Publisher) (snapshot : Snapshot) : Decidable (p.equal fingerprint snapshot) :=
  inferInstanceAs (Decidable (_ ∧ _))

def Publisher.prior (p : Publisher) (db : Db) : Option PyStr × Int :=
  match p.source with
  | some source => (some source, p.limit)
  | none =>
    match db.header with
    | some header => (header.source, header.limit.getD 0)
    | none => (none, 0)

def Publisher.replaces (p : Publisher) (db : Db) (snapshot : Snapshot) : Prop :=
  (p.prior db).1 ≠ snapshot.source ∨ snapshot.limit.getD (p.prior db).2 < (p.prior db).2

instance (p : Publisher) (db : Db) (snapshot : Snapshot) : Decidable (p.replaces db snapshot) :=
  inferInstanceAs (Decidable (_ ∨ _))

/-- `publish`, of a snapshot with an activity stream. -/
def publish (p : Publisher) (db : Db) (snapshot : Snapshot) : Publisher × Db :=
  let candidate := p.candidate snapshot
  let durable := fingerprint candidate
  if p.equal fingerprint snapshot then ({ p with live := some (some (candidate, durable)) }, db)
  else
    let revision := maxRevision db.rows
    let liveStart := if p.replaces db snapshot then revision else p.liveStart.getD revision
    let rows := if p.replaces db snapshot then {} else db.rows
    let (rows, revision) := snapshot.records.foldl (storeActivity encode) (rows, revision)
    let header := { candidate with highwater := revision, liveStart }
    ({ source := snapshot.source
       limit := snapshot.limit.getD 0
       rowRevision := revision
       liveStart := some liveStart
       live := p.live.map fun _ => some (header, durable) },
     { rows, header := some header })

end

/-! ## pages -/

/-- `epoch` and the last revision of a page. -/
abbrev Cursor := PyStr × Nat

/-- What `activity_page` returns, for the header it was given: the rows behind
`request_activity`, and the cursor it read from. -/
structure Page where
  header : Header
  epoch : PyStr
  after : Nat
  rows : List Row
  finish : Nat
deriving DecidableEq

/-- `activity_more`. -/
def Page.more (page : Page) : Bool := page.finish < page.header.highwater

/-- The rows with `revision>? AND revision<=?`, `ORDER BY revision LIMIT 512`. -/
def selectRows (db : Db) (after highwater : Nat) : List Row :=
  (((db.rows.entries.map Prod.snd).filter fun row =>
    after < row.revision ∧ row.revision ≤ highwater).insertionSort
      fun a b => a.revision ≤ b.revision).take 512

/-- `f"{self.snapshot_path}:{self.scope}:{result.get('activity_source')}"`,
where `place` is the part that does not change. -/
def epochOf (place : PyStr) (source : Option PyStr) : PyStr := place ++ source.getD (py "None")

def activityPage (place : PyStr) (db : Db) (header : Header) (acknowledged : Option Cursor)
    (live : Bool) : Page :=
  let epoch := epochOf place header.source
  let after := match acknowledged with
    | some (known, finish) => if known = epoch then finish else if live then header.liveStart else 0
    | none => if live then header.liveStart else 0
  let after := if after > header.highwater then 0 else after
  let rows := selectRows db after header.highwater
  let finish := if rows.length = 512 then (rows.getLast?.map (·.revision)).getD 0 else header.highwater
  { header, epoch, after, rows, finish }

/-! ## clients and runs -/

/-- What a client has acknowledged of one cursor: the last page, and since its
epoch changed the starting point and the rows received. -/
structure Trail where
  page : Page
  start : Nat
  received : List Row
deriving DecidableEq

/-- A client: the header it read, the last page it asked for and the cursors
`activity_ack` (`false`) and `activity_live_ack` (`true`). -/
structure Client where
  header : Option Header := none
  page : Option (Bool × Page) := none
  trail : Bool → Option Trail := fun _ => none

/-- `activity_ack` or `activity_live_ack`. -/
def Client.acknowledged (c : Client) (live : Bool) : Option Cursor :=
  (c.trail live).map fun t => (t.page.epoch, t.page.finish)

def Trail.extend (trail : Option Trail) (page : Page) : Trail :=
  match trail with
  | some t =>
    if t.page.epoch = page.epoch then ⟨page, t.start, t.received ++ page.rows⟩
    else ⟨page, page.after, page.rows⟩
  | none => ⟨page, page.after, page.rows⟩

/-- The database, the publishing process and the clients. -/
structure World (ι : Type) where
  db : Db := {}
  publisher : Publisher := {}
  clients : ι → Client := fun _ => {}

/-- What happens: the publisher is restarted (with or without a live server) or
publishes; a client reads the header, of the live server or of the database,
asks for a page, or acknowledges the last one. -/
inductive Action (ι : Type) where
  | restart (live : Bool)
  | publish (snapshot : Snapshot)
  | read (client : ι) (live : Bool)
  | page (client : ι) (live : Bool)
  | acknowledge (client : ι)

namespace World

variable {ι : Type} [DecidableEq ι]

def setClient (w : World ι) (i : ι) (c : Client) : World ι :=
  { w with clients := fun j => if j = i then c else w.clients j }

def current (w : World ι) (live : Bool) : Option Header :=
  if live then w.publisher.live.join.map (·.1) else w.db.header

variable (encode : Record → Bytes) (fingerprint : Header → Bytes) (place : PyStr)

def step (w : World ι) : Action ι → World ι
  | .restart live => { w with publisher := { live := if live then some none else none } }
  | .publish snapshot =>
    let (publisher, db) := Activity.publish encode fingerprint w.publisher w.db snapshot
    { w with publisher, db }
  | .read i live =>
    match w.current live with
    | some header => w.setClient i { w.clients i with header := some header }
    | none => w
  | .page i live =>
    match (w.clients i).header with
    | some header =>
      w.setClient i { w.clients i with
        page := some (live,
          activityPage place w.db header ((w.clients i).acknowledged live) live) }
    | none => w
  | .acknowledge i =>
    match (w.clients i).page with
    | some (live, page) =>
      w.setClient i { w.clients i with
        trail := fun l =>
          if l = live then some (Trail.extend ((w.clients i).trail live) page)
          else (w.clients i).trail l }
    | none => w

end World

end Codexon.Activity
