import Codexon.Dict
import Codexon.Json

/-!
# Codexon.LedgerSync

`QuotaLedger.sync` of `cachemonitor/quota_cycles.py`: calls of prepared histories
written into the `calls`, `tracking_call_boundaries` and `cost_archive` tables.

A table is the partial map of its primary key.  `Pricing` stands for what the
price table decides: the cost of a row, the text of its price inputs, and which
stored price versions differ only in verification metadata.
-/

namespace Codexon.LedgerSync

/-! ## rows -/

/-- The `TOKEN_FIELDS` of a call. -/
structure Tokens where
  input : Option Int := none
  cached : Option Int := none
  written : Option Int := none
  output : Option Int := none
  reasoning : Option Int := none
deriving DecidableEq

/-- A prepared history row.  `serviceTier` and `cost` are `none` where the field is
missing. -/
structure HistoryRow where
  key : PyStr
  ts : ℚ
  model : Option PyStr := none
  serviceTier : Option (Option PyStr) := none
  tokens : Tokens := {}
  cost : Option (Option ℚ) := none
  inputConflict : Bool := false
  turn : Option PyStr := none
  requestObservedAt : Option ℚ := none
  requestTs : Option ℚ := none
deriving DecidableEq

/-- A session with its prepared history and turn records. -/
structure Session where
  home : PyStr
  sid : PyStr
  revision : Json
  history : List HistoryRow
  /-- `turn_records`: the start of a turn -/
  turns : PyStr → Option ℚ

def Session.owner (s : Session) : PyStr × PyStr := (s.home, s.sid)

/-- The identifier of a call. -/
def Session.uid (s : Session) (row : HistoryRow) : PyStr :=
  if (py "legacy:").isPrefixOf row.key || (py "record:").isPrefixOf row.key then
    s.sid ++ py ":" ++ row.key
  else row.key

def Session.key (s : Session) (row : HistoryRow) : PyStr × PyStr := (s.home, s.uid row)

/-- A row of `calls`, beside its key. -/
structure Call where
  sid : PyStr
  ts : ℚ
  model : PyStr
  tokens : Tokens
  cost : Option ℚ
  priceId : PyStr
  signature : PyStr
  serviceTier : Option PyStr
deriving DecidableEq

/-- A row of `cost_archive`, beside its key and its time. -/
structure Archived where
  cost : Option ℚ
  serviceTier : Option PyStr
deriving DecidableEq

/-- The tables. -/
structure Db where
  calls : PyStr × PyStr → Option Call
  boundaries : PyStr × PyStr → Option (Option ℚ)
  archive : (PyStr × PyStr) × PyStr × PyStr → Option Archived

def update {κ ν : Type} [DecidableEq κ] (table : κ → ν) (key : κ) (value : ν) : κ → ν :=
  fun k => if k = key then value else table k

/-! ## prices -/

/-- `price_inputs`, with the marker of a conflict. -/
structure PriceInputs where
  ts : ℚ
  model : Option PyStr
  serviceTier : Option PyStr
  tokens : Tokens
  inputConflict : Bool

/-- What the price table decides. -/
structure Pricing where
  /-- `PRICE_ID` -/
  priceId : PyStr
  /-- `token_cost(row)['cost']` -/
  tokenCost : HistoryRow → Option ℚ
  /-- `json.dumps(price_inputs)` -/
  dumps : PriceInputs → PyStr
  /-- the stored data of another version, without its metadata, are those of this one -/
  sameData : PyStr → Bool

variable (pricing : Pricing)

def Pricing.equivalent (identifier : PyStr) : Bool :=
  identifier = pricing.priceId || pricing.sameData identifier

def Pricing.costOf (row : HistoryRow) : Option ℚ :=
  match row.cost with
  | some cost => cost
  | none => pricing.tokenCost row

def Pricing.signatureOf (row : HistoryRow) : PyStr :=
  pricing.dumps ⟨row.ts, row.model, row.serviceTier.join, row.tokens, row.inputConflict⟩

/-- The text for a missing value. -/
def unknown : PyStr := py "미확인"

/-- The `calls` row of a history row. -/
def Pricing.image (sid : PyStr) (row : HistoryRow) : Call where
  sid := sid
  ts := row.ts
  model := match row.model with
    | none => unknown
    | some model => if model = [] then unknown else model
  tokens := row.tokens
  cost := pricing.costOf row
  priceId := pricing.priceId
  signature := pricing.signatureOf row
  serviceTier := row.serviceTier.getD (some unknown)

def Pricing.same (old : Call) (row : HistoryRow) : Bool :=
  old.signature = pricing.signatureOf row && old.cost = pricing.costOf row &&
    pricing.equivalent old.priceId

/-! ## one owner -/

def orTime (a b : Option ℚ) : Option ℚ := if (a.filter (· ≠ 0)).isSome then a else b

/-- When the request of a row began, and the last usage of each turn after it. -/
def requestedOf (turns : PyStr → Option ℚ) (previous : Dict PyStr ℚ) (row : HistoryRow) :
    Option ℚ × Dict PyStr ℚ :=
  let known := orTime row.requestObservedAt row.requestTs
  match row.turn.filter (· ≠ []) with
  | none => (known, previous)
  | some turn =>
    (known.or ((previous.get? turn).or (turns turn)), previous.set turn row.ts)

/-- The state of the loop over the history of an owner: the tables, the pending
batches with their identifiers, and what was seen so far. -/
structure Writer where
  db : Db
  calls : List ((PyStr × PyStr) × Call) := []
  boundaries : List ((PyStr × PyStr) × Option ℚ) := []
  pending : List PyStr := []
  previous : Dict PyStr ℚ := {}
  current : List PyStr := []

/-- `insert or replace into calls` with a batch of values. -/
def insertCalls (calls : PyStr × PyStr → Option Call) (batch : List ((PyStr × PyStr) × Call)) :
    PyStr × PyStr → Option Call :=
  batch.foldl (fun calls entry => update calls entry.1 (some entry.2)) calls

/-- `insert into tracking_call_boundaries … on conflict do update`. -/
def insertBoundaries (boundaries : PyStr × PyStr → Option (Option ℚ))
    (batch : List ((PyStr × PyStr) × Option ℚ)) : PyStr × PyStr → Option (Option ℚ) :=
  batch.foldl (fun boundaries entry => update boundaries entry.1 (some entry.2)) boundaries

/-- The tables after `flush_calls`. -/
def Writer.flushed (w : Writer) : Db :=
  { w.db with
    calls := insertCalls w.db.calls w.calls
    boundaries := insertBoundaries w.db.boundaries w.boundaries }

def Writer.flush (w : Writer) : Writer :=
  { w with db := w.flushed, calls := [], boundaries := [], pending := [] }

def Writer.addPending (w : Writer) (uid : PyStr) : List PyStr :=
  if uid ∈ w.pending then w.pending else uid :: w.pending

def syncBatchRows : Nat := 128

/-- `insert or ignore into cost_archive`. -/
def archiveCall (archive : (PyStr × PyStr) × PyStr × PyStr → Option Archived)
    (key : PyStr × PyStr) (old : Call) : (PyStr × PyStr) × PyStr × PyStr → Option Archived :=
  let at_ := (key, old.priceId, old.signature)
  update archive at_ ((archive at_).or (some ⟨old.cost, old.serviceTier⟩))

def storedOf (db : Db) (s : Session) (uid : PyStr) : Option (Call × Option (Option ℚ)) :=
  ((db.calls (s.home, uid)).filter (·.sid = s.sid)).map fun c => (c, db.boundaries (s.home, uid))

/-- Flush before an identifier that is pending, or when the batch is full. -/
def Writer.room (w : Writer) (uid : PyStr) : Writer :=
  if uid ∈ w.pending ∨ syncBatchRows ≤ w.pending.length then w.flush else w

/-- Put a boundary that differs from the stored one into the batch. -/
def Writer.boundary (w : Writer) (key : PyStr × PyStr) (started : Option (Option ℚ))
    (requested : Option ℚ) : Writer :=
  if started = some requested then w
  else
    { w with
      boundaries := w.boundaries ++ [(key, requested)]
      pending := w.addPending key.2 }

/-- Keep the stored calculation of a row under its owner, or archive it and put the
new one into the batch. -/
def Writer.calculation (s : Session) (w : Writer) (row : HistoryRow) (old : Option Call) :
    Writer :=
  match old with
  | none =>
    { w with
      calls := w.calls ++ [(s.key row, pricing.image s.sid row)]
      pending := w.addPending (s.uid row) }
  | some old =>
    if pricing.same old row then
      if old.sid = s.sid then w
      else
        -- `update calls set sid=?`, past the batch
        { w with
          db := { w.db with
            calls := update w.db.calls (s.key row)
              ((w.db.calls (s.key row)).map fun c => { c with sid := s.sid }) } }
    else
      { w with
        db := { w.db with archive := archiveCall w.db.archive (s.key row) old }
        calls := w.calls ++ [(s.key row, pricing.image s.sid row)]
        pending := w.addPending (s.uid row) }

def Writer.row (s : Session) (start : Db) (w : Writer) (row : HistoryRow) : Writer :=
  let uid := s.uid row
  let w := w.room uid
  let request := requestedOf s.turns w.previous row
  let w := { w with current := uid :: w.current, previous := request.2 }
  let old := storedOf start s uid
  (w.boundary (s.key row) (old.bind (·.2)) request.1).calculation pricing s row
    ((old.map (·.1)).or (w.db.calls (s.key row)))

def Session.ordered (s : Session) : List HistoryRow :=
  s.history.mergeSort fun a b => a.ts ≤ b.ts

def syncOwner (db : Db) (s : Session) : Db :=
  let w := (s.ordered.foldl (Writer.row pricing s db) { db }).flush
  { w.db with
    calls := fun k =>
      if k.1 = s.home ∧ (storedOf db s k.2).isSome ∧ k.2 ∉ w.current ∧
          ((w.db.calls k).filter (·.sid = s.sid)).isSome
      then none else w.db.calls k }

/-! ## sync -/

/-- The ledger: its tables, and the revision at which an owner was last written. -/
structure Ledger where
  db : Db
  revisions : PyStr × PyStr → Option Json

/-- The sessions of one `sync`, in the order of the engine.  `retained` are the
owners that are pending or whose home was recovered. -/
structure Cohort where
  sessions : List Session
  applied : Option (PyStr × PyStr → Json) := none
  retained : PyStr × PyStr → Bool := fun _ => false

def Cohort.revisionOf (cohort : Cohort) (s : Session) : Json :=
  match cohort.applied with
  | some applied => applied s.owner
  | none => s.revision

def Cohort.writes (cohort : Cohort) (revisions : PyStr × PyStr → Option Json) (s : Session) :
    Bool :=
  !cohort.retained s.owner &&
    !(cohort.applied.isNone && revisions s.owner = some (cohort.revisionOf s))

/-- One session of a `sync`. -/
def Ledger.write (cohort : Cohort) (ledger : Ledger) (s : Session) : Ledger :=
  if cohort.writes ledger.revisions s then
    { db := syncOwner pricing ledger.db s
      revisions := update ledger.revisions s.owner (some (cohort.revisionOf s)) }
  else ledger

def Ledger.sync (ledger : Ledger) (cohort : Cohort) : Ledger :=
  cohort.sessions.foldl (Ledger.write pricing cohort) ledger

end Codexon.LedgerSync
