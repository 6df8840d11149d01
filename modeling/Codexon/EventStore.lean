import Codexon.Table

/-!
# Codexon.EventStore

`cachemonitor/event_store.py`: the three tables of the packed event store and
the `event_rows` view that joins them.

`α` is the type of the SQL values that are not NULL, with the equality of
`IS`; NULL is `none`.  Row ids are unbounded integers: an id SQLite picks is
an input of the statement.
-/

namespace Codexon

namespace EventStore

/-- A row of `event_paths`. -/
structure PathRow (α : Type) where
  id : Int
  path : Option α
deriving DecidableEq, Repr

/-- A row of `event_sessions`.  `revision` is `replay_revision`; `none` is the
REAL that the counter becomes beyond 64 bits. -/
structure SessionRow (α : Type) where
  id : Int
  home : Option α
  tid : Option α
  revision : Option Int := some 0
deriving DecidableEq, Repr

/-- A row of `event_records`. -/
structure RecordRow (α : Type) where
  seq : Int
  pathId : Option Int
  pos : Option α
  sessionId : Option Int
  ts : Option α
  data : Option α
  quota : α
deriving DecidableEq, Repr

/-- A row of the `event_rows` view. -/
structure EventRow (α : Type) where
  path : Option α
  pos : Option α
  home : Option α
  tid : Option α
  ts : Option α
  data : Option α
  rowid : Int
  quota : α
deriving DecidableEq, Repr

/-- The tables, and the number of replay epochs drawn so far. -/
structure Store (α : Type) where
  paths : Table (PathRow α) PathRow.id := Table.empty
  sessions : Table (SessionRow α) SessionRow.id := Table.empty
  records : Table (RecordRow α) RecordRow.seq := Table.empty
  epoch : Nat := 0
deriving DecidableEq

namespace Store

variable {α : Type}

/-- The left join with `event_paths`. -/
def pathOf (s : Store α) (r : RecordRow α) : Option α :=
  (r.pathId.bind s.paths.find?).bind (·.path)

/-- The row of the view for a record of session `o`. -/
def eventRow (s : Store α) (o : SessionRow α) (r : RecordRow α) : EventRow α :=
  ⟨s.pathOf r, r.pos, o.home, o.tid, r.ts, r.data, r.seq, r.quota⟩

/-- The `event_rows` view, in the order of `rowid`. -/
def eventRows (s : Store α) : List (EventRow α) :=
  s.records.rows.filterMap fun r => (r.sessionId.bind s.sessions.find?).map fun o => s.eventRow o r

def ownerRows [DecidableEq α] (s : Store α) (home tid : Option α) : List (EventRow α) :=
  s.eventRows.filter fun e => e.home = home ∧ e.tid = tid

end Store

end EventStore

/-!
## replay

`EventStore.replay_triggers` and `owner_replay_token`: the triggers that count
the changes of each owner in `replay_revision` and rotate the replay epoch, and
the token a replay checkpoint is trusted by.

A statement changes one row.  Its BEFORE triggers run, constraints are
checked, conflicting rows are deleted by REPLACE without delete triggers
(`recursive_triggers` is off), the row is written, and the AFTER triggers run.
A statement that violates a constraint is rolled back with its triggers' work
(`admits`).
-/

namespace EventStore

def SessionRow.owns {α : Type} [DecidableEq α] (o : SessionRow α) (home tid : Option α) : Bool :=
  o.home = home ∧ o.tid = tid

/-- `(path_id=NEW.path_id AND pos=NEW.pos)`, which NULL never satisfies. -/
def RecordRow.samePlace {α : Type} [DecidableEq α] (r new : RecordRow α) : Bool :=
  r.pathId.isSome ∧ r.pathId = new.pathId ∧ r.pos.isSome ∧ r.pos = new.pos

namespace Store

variable {α : Type} [DecidableEq α]

/-! ## what triggers do -/

/-- `replay_revision+n`, a REAL from `2 ^ 63` on. -/
def raise (n : Int) (revision : Option Int) : Option Int :=
  revision.bind fun m => if m + n < 2 ^ 63 then some (m + n) else none

def bumped (n : Int) (hit : SessionRow α → Bool) (o : SessionRow α) : SessionRow α :=
  if hit o then { o with revision := raise n o.revision } else o

omit [DecidableEq α] in
@[simp] theorem bumped_id (n : Int) (hit : SessionRow α → Bool) (o : SessionRow α) :
    (bumped n hit o).id = o.id := by unfold bumped; split <;> rfl

/-- `UPDATE event_sessions SET replay_revision=replay_revision+n WHERE …`. -/
def bump (s : Store α) (n : Int) (hit : SessionRow α → Bool) : Store α :=
  { s with sessions := s.sessions.map (bumped n hit) (bumped_id n hit) }

/-- The sessions `(SELECT session_id FROM event_records WHERE …)`. -/
def inRecords (s : Store α) (hit : RecordRow α → Bool) (o : SessionRow α) : Bool :=
  s.records.rows.any fun r => hit r && r.sessionId = some o.id

/-- `UPDATE event_store_state SET replay_epoch=lower(hex(randomblob(16)))`. -/
def rotate (s : Store α) : Store α := { s with epoch := s.epoch + 1 }

/-! ## the triggers -/

def replacesPath (s : Store α) (id : Int) (path : Option α) : SessionRow α → Bool :=
  s.inRecords fun r => s.paths.rows.any fun p =>
    (p.id = id ∨ p.path = path) ∧ r.pathId = some p.id

def pathReplace (s : Store α) (id : Int) (path : Option α) : Store α :=
  s.bump 1 (s.replacesPath id path)

def path (s : Store α) (old new : PathRow α) : Store α :=
  if old.id ≠ new.id ∨ old.path ≠ new.path then
    s.bump 1 (s.inRecords fun r => r.pathId = some old.id ∨ r.pathId = some new.id)
  else s

def pathDelete (s : Store α) (old : PathRow α) : Store α :=
  s.bump 1 (s.inRecords fun r => r.pathId = some old.id)

def ownerDelete (s : Store α) : Store α := s.rotate

def ownerReplace (s : Store α) (id : Int) (new : SessionRow α) : Store α :=
  if s.sessions.rows.any fun o => o.id = id ∨ o.owns new.home new.tid then s.rotate else s

def ownerRevive (s : Store α) (new : SessionRow α) : Store α :=
  if s.records.rows.any fun r => r.sessionId = some new.id then s.rotate else s

def moved (old new : SessionRow α) : Bool :=
  old.id ≠ new.id ∨ old.home ≠ new.home ∨ old.tid ≠ new.tid

def ownerMove (s : Store α) (old new : SessionRow α) : Store α :=
  if moved old new then s.rotate else s

def owner (s : Store α) (old new : SessionRow α) : Store α :=
  if moved old new then s.bump 1 (·.id = new.id) else s

def replace (s : Store α) (seq : Int) (new : RecordRow α) : Store α :=
  s.bump 1 (s.inRecords fun r => r.samePlace new ∨ r.seq = seq)

def insert (s : Store α) (new : RecordRow α) : Store α :=
  s.bump 1 (fun o => new.sessionId = some o.id)

def update (s : Store α) (old new : RecordRow α) : Store α :=
  if old ≠ new then
    s.bump (if old.seq ≠ new.seq then 2 else 1)
      (fun o => old.sessionId = some o.id ∨ new.sessionId = some o.id)
  else s

def delete (s : Store α) (old : RecordRow α) : Store α :=
  s.bump 1 (fun o => old.sessionId = some o.id)

end Store

/-! ## statements -/

/-- A row statement.  An insertion is `INSERT` or `INSERT OR REPLACE`; with
`auto` the id was left to SQLite, which picked an unused one. -/
inductive Statement (α : Type) where
  | insertPath (orReplace auto : Bool) (new : PathRow α)
  | updatePath (id : Int) (new : PathRow α)
  | deletePath (id : Int)
  | insertSession (orReplace auto : Bool) (new : SessionRow α)
  | updateSession (id : Int) (new : SessionRow α)
  | deleteSession (id : Int)
  | insertRecord (orReplace auto : Bool) (new : RecordRow α)
  | updateRecord (seq : Int) (new : RecordRow α)
  | deleteRecord (seq : Int)
deriving DecidableEq, Repr

namespace Store

variable {α : Type} [DecidableEq α]

def seen (auto : Bool) (id : Int) : Int := if auto then -1 else id

/-- Rows that keep `new` out: its id, or its non-NULL unique columns. -/
def pathConflict (new p : PathRow α) : Bool :=
  p.id = new.id ∨ p.path.isSome ∧ p.path = new.path

def sessionConflict (new o : SessionRow α) : Bool :=
  o.id = new.id ∨ o.home.isSome ∧ o.tid.isSome ∧ o.owns new.home new.tid

def recordConflict (new r : RecordRow α) : Bool :=
  r.seq = new.seq ∨ r.samePlace new

def admits (s : Store α) : Statement α → Bool
  | .insertPath orReplace auto new =>
    (auto → s.paths.find? new.id = none) ∧
      (orReplace ∨ ¬ s.paths.rows.any (pathConflict new))
  | .updatePath id new => ¬ s.paths.rows.any fun p => p.id ≠ id ∧ pathConflict new p
  | .insertSession orReplace auto new =>
    (auto → s.sessions.find? new.id = none) ∧
      (orReplace ∨ ¬ s.sessions.rows.any (sessionConflict new))
  | .updateSession id new => ¬ s.sessions.rows.any fun o => o.id ≠ id ∧ sessionConflict new o
  | .insertRecord orReplace auto new =>
    (auto → s.records.find? new.seq = none) ∧
      (orReplace ∨ ¬ s.records.rows.any (recordConflict new))
  | .updateRecord seq new => ¬ s.records.rows.any fun r => r.seq ≠ seq ∧ recordConflict new r
  | .deletePath _ | .deleteSession _ | .deleteRecord _ => true

def apply (s : Store α) : Statement α → Store α
  | .insertPath _ auto new =>
    let s := s.pathReplace (seen auto new.id) new.path
    { s with paths := (s.paths.filter (!pathConflict new ·)).put new }
  | .updatePath id new => match s.paths.find? id with
      | none => s
      | some old =>
        let s := { s with paths := (s.paths.filter (·.id ≠ id)).put new }
        s.path old new
  | .deletePath id => match s.paths.find? id with
      | none => s
      | some old =>
        let s := s.pathDelete old
        { s with paths := s.paths.filter (·.id ≠ id) }
  | .insertSession _ auto new =>
    let s := s.ownerReplace (seen auto new.id) new
    let s := { s with sessions := (s.sessions.filter (!sessionConflict new ·)).put new }
    s.ownerRevive new
  | .updateSession id new => match s.sessions.find? id with
      | none => s
      | some old =>
        let s := s.ownerMove old new
        let s := { s with sessions := (s.sessions.filter (·.id ≠ id)).put new }
        s.owner old new
  | .deleteSession id => match s.sessions.find? id with
      | none => s
      | some _ =>
        let s := s.ownerDelete
        { s with sessions := s.sessions.filter (·.id ≠ id) }
  | .insertRecord _ auto new =>
    let s := s.replace (seen auto new.seq) new
    let s := { s with records := (s.records.filter (!recordConflict new ·)).put new }
    s.insert new
  | .updateRecord seq new => match s.records.find? seq with
      | none => s
      | some old =>
        let s := { s with records := (s.records.filter (·.seq ≠ seq)).put new }
        s.update old new
  | .deleteRecord seq => match s.records.find? seq with
      | none => s
      | some old =>
        let s := { s with records := s.records.filter (·.seq ≠ seq) }
        s.delete old

def step (s : Store α) (statement : Statement α) : Store α :=
  if s.admits statement then s.apply statement else s

/-! ## tokens -/

/-- The first session row of the owner: the index on `(home, tid)` lists equal
owners in the order of their ids. -/
def ownerRow (s : Store α) (home tid : Option α) : Option (SessionRow α) :=
  s.sessions.rows.find? (·.owns home tid)

/-- `owner_replay_token`, where `draw n` is the `n`th epoch drawn. -/
def ownerReplayToken {ε : Type} (draw : Nat → ε) (s : Store α) (home tid : Option α) :
    Option (ε × Int × Int) :=
  match s.ownerRow home tid with
  | some ⟨id, _, _, some revision⟩ => if revision < 0 then none else some (draw s.epoch, id, revision)
  | _ => none

end Store

end EventStore

end Codexon
