import Codexon.Dict
import Codexon.Json

/-!
# Codexon.ReportRows

`QuotaLedger.report` and `_report_rows` of `cachemonitor/quota_cycles.py`: the
rows a report reads again, and the change log that tells which are stale.

A trigger on every source table counts a revision and writes it into a ring of
1024 slots, with the time from which rows may have changed.  A report that finds
every change since its last reading in the ring keeps its cached rows, and reads
of a changed query only the suffix from the earliest of these times.

`sql` stands for the text of the cached queries: each is a left join of one timed
table with the tables keyed by its ids, filtered and ordered by time first.
-/

namespace Codexon.ReportRows

/-! ## tables -/

/-- The source tables of cached queries; `other` is any table they do not read. -/
inductive SourceTable where
  | observations
  | observationContext
  | windowObservations
  | weeklyWindowRefs
  | calls
  | trackingObservations
  | other
deriving DecidableEq, Repr

def SourceTable.linked : SourceTable → Bool
  | observationContext | weeklyWindowRefs => true
  | _ => false

def SourceTable.timed : SourceTable → Bool
  | observations | windowObservations | calls | trackingObservations => true
  | _ => false

/-- A row of a source table: its home, its id (the `observation_id` of a
reference) and the value of its time column. -/
structure Record where
  home : PyStr
  id : PyStr
  time : Option ℚ
  cells : List Json
deriving DecidableEq

abbrev Store := SourceTable → List Record

/-- An insert, update or delete, with the time that its trigger records. -/
structure Change where
  table : SourceTable
  old : Option Record
  new : Option Record
  stamp : Option ℚ
deriving DecidableEq

def Change.apply (store : Store) (c : Change) : Store := fun table =>
  if table = c.table then
    (match c.old with
      | none => store table
      | some old => (store table).erase old) ++ c.new.toList
  else store table

/-- The timestamps of a change: those of the row before and after, or of the
observations that a linked row belongs to. -/
def Change.times (store : Store) (c : Change) : List ℚ :=
  (c.old.toList ++ c.new.toList).flatMap fun r =>
    if c.table.timed then r.time.toList
    else if c.table.linked then
      ((store .observations).filter (·.id = r.id)).flatMap (·.time.toList)
    else []

def Change.Recorded (store : Store) (c : Change) : Prop :=
  ∀ t, c.stamp = some t → ∀ x ∈ c.times store, t ≤ x

instance (store : Store) (c : Change) : Decidable (c.Recorded store) :=
  match h : c.stamp with
  | none => isTrue fun _ ht => by cases h.symm.trans ht
  | some t => decidable_of_iff (∀ x ∈ c.times store, t ≤ x)
      ⟨fun hall _ ht => Option.some.inj (h.symm.trans ht) ▸ hall, fun hall => hall t h⟩

/-! ## queries -/

/-- Rows of a result: ordered by time first. -/
class TimedRow (ρ : Type) extends LinearOrder ρ where
  time : ρ → ℚ
  time_mono : ∀ {a b : ρ}, a ≤ b → time a ≤ time b

/-- A cached query of one home. -/
structure Query (ρ : Type) [TimedRow ρ] where
  main : SourceTable
  sides : List SourceTable
  /-- `time >= cutoff`, where `none` is minus infinity -/
  cutoff : Option ℚ
  /-- The query ends with `time <= now`. -/
  clock : Bool
  condition : Record → Bool
  /-- The result rows of a main row and the side rows of its id. -/
  join : Record → (SourceTable → List Record) → List ρ
  join_time : ∀ r side row, row ∈ join r side → r.time = some (TimedRow.time row)
  main_timed : main.timed
  sides_linked : ∀ t ∈ sides, t.linked ∧ main = .observations

variable {ρ : Type} [TimedRow ρ]

def Query.tables (q : Query ρ) : List SourceTable := q.main :: q.sides

/-- The `where` clause. -/
def Query.visible (q : Query ρ) (home : PyStr) (now : ℚ) (r : Record) : Bool :=
  r.home = home && q.condition r &&
    match r.time with
    | none => false
    | some t => (match q.cutoff with | none => true | some c => decide (c ≤ t)) &&
        (!q.clock || decide (t ≤ now))

def Query.side (q : Query ρ) (store : Store) (r : Record) (table : SourceTable) : List Record :=
  if table ∈ q.sides then (store table).filter (·.id = r.id) else []

def Query.rowsOf (q : Query ρ) (home : PyStr) (store : Store) (now : ℚ) (r : Record) : List ρ :=
  if q.visible home now r then q.join r (q.side store r) else []

/-- The result in no particular order. -/
def Query.select (q : Query ρ) (home : PyStr) (store : Store) (now : ℚ) : List ρ :=
  (store q.main).flatMap (q.rowsOf home store now)

/-- `db.execute(sql, params)`. -/
def Query.exec (q : Query ρ) (home : PyStr) (store : Store) (now : ℚ) : List ρ :=
  (q.select home store now).mergeSort (· ≤ ·)

/-- The same query with `and time >= ?`. -/
def Query.execFrom (q : Query ρ) (home : PyStr) (store : Store) (now lower : ℚ) : List ρ :=
  ((q.select home store now).filter fun row => lower ≤ TimedRow.time row).mergeSort (· ≤ ·)

/-! ## the ring of changes -/

/-- A row of `report_changes`. -/
structure Event where
  slot : Nat
  revision : Nat
  table : SourceTable
  stamp : Option ℚ
deriving DecidableEq

def slots : Nat := 1024

/-- A cached query result. -/
structure Entry (ρ : Type) where
  params : List Json
  rows : List ρ

/-- What `_report_cache` remembers of the last report; `none` is no bound. -/
structure LastReport where
  home : PyStr
  time : ℚ
  limit : Option ℚ
deriving DecidableEq

/-- A ledger: its tables with `report_revision` and `report_changes`, and the
cache of one connection.  Events stand in the order of their revisions. -/
structure Ledger (ρ : Type) where
  store : Store
  revision : Nat := 0
  ring : List Event := []
  last : Option LastReport := none
  inputRevision : Option Nat := none
  cache : Dict PyStr (Entry ρ) := {}

namespace Ledger

def change (s : Ledger ρ) (c : Change) : Ledger ρ :=
  let revision := s.revision + 1
  { s with
    store := c.apply s.store, revision
    ring := s.ring.filter (·.slot ≠ revision % slots) ++
      [⟨revision % slots, revision, c.table, c.stamp⟩] }

/-! ## reading rows -/

/-- The search for the first row at or after `lower`. -/
def bisect (rows : List ρ) (lower : ℚ) (left right : Nat) : Nat :=
  if left < right then
    let mid := (left + right) / 2
    match rows[mid]? with
    | none => left
    | some row =>
      if TimedRow.time row < lower then bisect rows lower (mid + 1) right
      else bisect rows lower left mid
  else left
termination_by right - left

/-- The earliest time, unless one is NULL. -/
def earliest : List (Option ℚ) → Option ℚ
  | [] => none
  | [t] => t
  | none :: _ => none
  | some t :: ts => (earliest ts).map (min t)

/-- How the rows of a query are weighed, and the weight that may be kept. -/
structure Budget (ρ : Type) where
  weigh : ρ → Nat
  limit : Nat

def Budget.weight (budget : Budget ρ) (rows : List ρ) : Nat := (rows.map budget.weigh).sum

/-- Keep the rows when they fit beside the other queries, else drop the entry.
The weights grow from row to row, so the last one decides. -/
def keepRows (budget : Budget ρ) (cache : Dict PyStr (Entry ρ)) (key : PyStr) (params : List Json)
    (rows : List ρ) : Dict PyStr (Entry ρ) :=
  let others := ((cache.entries.filter (·.1 ≠ key)).map fun e => budget.weight e.2.rows).sum
  if budget.weight rows + others ≤ budget.limit then cache.set key ⟨params, rows⟩
  else cache.erase key

def reportRows (sql : PyStr → List Json → Query ρ) (budget : Budget ρ) (home : PyStr)
    (store : Store) (now : ℚ) (changes : List (SourceTable × Option ℚ))
    (cache : Dict PyStr (Entry ρ)) (key : PyStr) (params : List Json) :
    List ρ × Dict PyStr (Entry ρ) :=
  let q := sql key params
  let relevant := (changes.filter (·.1 ∈ q.tables)).map (·.2)
  let fresh := q.exec home store now
  match (cache.get? key).filter (·.params = params) with
  | none => (fresh, keepRows budget cache key params fresh)
  | some previous =>
    if relevant = [] then (previous.rows, cache)
    else
      match earliest relevant with
      | none => (fresh, keepRows budget cache key params fresh)
      | some lower =>
        let left := bisect previous.rows lower 0 previous.rows.length
        let rows := previous.rows.take left ++ q.execFrom home store now lower
        (rows, keepRows budget cache key params rows)

/-! ## reports -/

/-- One report: its time, the homes of the account, the queries it reads with
their parameters, and the future times of other columns. -/
structure Report where
  home : PyStr
  now : ℚ
  scope : List PyStr
  home_mem : home ∈ scope
  reads : List (PyStr × List Json)
  futures : List ℚ

/-- The tables of `FUTURE_COLUMNS` that cached queries read. -/
def futureTables : List SourceTable :=
  [.observations, .windowObservations, .calls, .trackingObservations]

/-- The times after `now` that `until` is the least of. -/
def boundaries (store : Store) (r : Report) : List ℚ :=
  (futureTables.flatMap fun table =>
    ((store table).filter fun x => table = .trackingObservations || x.home ∈ r.scope).flatMap
      fun x => x.time.toList.filter (r.now < ·)) ++ r.futures

def events (s : Ledger ρ) : List Event :=
  match s.inputRevision with
  | none => []
  | some before => if before ≤ s.revision then s.ring.filter (before < ·.revision) else []

/-- The cached rows can be brought up to date. -/
def valid (s : Ledger ρ) (r : Report) : Bool :=
  match s.last, s.inputRevision with
  | some last, some before =>
    last.home = r.home && last.time ≤ r.now &&
      (match last.limit with | none => true | some limit => decide (r.now < limit)) &&
      decide (before ≤ s.revision) && s.revision - before = s.events.length
  | _, _ => false

def changes (s : Ledger ρ) (r : Report) : List (SourceTable × Option ℚ) :=
  if s.valid r then s.events.map fun e => (e.table, e.stamp) else []

def startCache (s : Ledger ρ) (r : Report) : Dict PyStr (Entry ρ) :=
  if s.valid r then s.cache else {}

def readAll (sql : PyStr → List Json → Query ρ) (budget : Budget ρ) (home : PyStr)
    (store : Store) (now : ℚ) (changes : List (SourceTable × Option ℚ))
    (cache : Dict PyStr (Entry ρ)) :
    List (PyStr × List Json) → List (List ρ) × Dict PyStr (Entry ρ)
  | [] => ([], cache)
  | read :: reads =>
    let (rows, cache) := reportRows sql budget home store now changes cache read.1 read.2
    let (rest, cache) := readAll sql budget home store now changes cache reads
    (rows :: rest, cache)

def readings (sql : PyStr → List Json → Query ρ) (budget : Budget ρ) (s : Ledger ρ) (r : Report) :
    List (List ρ) × Dict PyStr (Entry ρ) :=
  readAll sql budget r.home s.store r.now (s.changes r) (s.startCache r) r.reads

/-- `report`, with its rows left aside. -/
def report (sql : PyStr → List Json → Query ρ) (budget : Budget ρ) (s : Ledger ρ) (r : Report) :
    Ledger ρ :=
  { s with
    cache := (readings sql budget s r).2
    inputRevision := some s.revision
    last := some ⟨r.home, r.now, (boundaries s.store r).min?⟩ }

/-- A step of a run. -/
inductive Step where
  | change (c : Change)
  | report (r : Report)

def step (sql : PyStr → List Json → Query ρ) (budget : Budget ρ) (s : Ledger ρ) :
    Step → Ledger ρ
  | .change c => s.change c
  | .report r => s.report sql budget r

end Ledger

end Codexon.ReportRows
