import Mathlib.Data.Finset.Basic
import Codexon.EventStore
import Codexon.Run

/-!
# Codexon.ObservationImport

`ObservationImport` of `cachemonitor/quota_history_import.py`: quota observations are read
from the usage index in slices and enter the ledger together with a cursor, which is
resumed while the index has only been appended to.

The index is the store of `Codexon.EventStore` with its replay triggers.  A step reads one
snapshot; the index may be written again before the ledger commits.  An index that is not
trusted is imported as a whole by other code: the step answers `legacy` there.
-/

namespace Codexon.ObservationImport

open EventStore

/-- What the code makes of stored values.  `rateLimits` is `none` where reading raises, and
`some none` where the record has no rate limits. -/
structure Reading (α β ε : Type) where
  one : α
  rateLimits : Option α → Option (Option β)
  size : Option α → Nat
  draw : Nat → ε

/-- `(epoch, revision, maximum)` -/
abbrev Token (ε : Type) := ε × Int × Int

abbrev Observation (α β : Type) := Option α × Option α × β

section

variable {α β ε : Type}

/-! ## tokens -/

/-- `sum(replay_revision)`, where no counter has become a REAL. -/
def total : List (SessionRow α) → Option Int
  | [] => some 0
  | o :: os => o.revision.bind fun revision => (total os).map (revision + ·)

/-- `coalesce(max(seq),0)` -/
def maximum (s : Store α) : Int := (s.records.rows.getLast?.map (·.seq)).getD 0

def current (R : Reading α β ε) (s : Store α) : Option (Token ε) :=
  (total s.sessions.rows).bind fun revision =>
    if revision < 0 then none else some (R.draw s.epoch, revision, maximum s)

/-- The records with `low < seq ≤ high`. -/
def between (s : Store α) (low high : Int) : List (RecordRow α) :=
  s.records.rows.filter fun r => low < r.seq ∧ r.seq ≤ high

variable [DecidableEq ε]

def samePrefix (s : Store α) (old : Option (Token ε)) (current : Token ε) : Bool :=
  match old with
  | none => false
  | some old =>
    if current = old then true
    else if current.1 ≠ old.1 ∨ current.2.2 < old.2.2 then false
    else current.2.1 - old.2.1 = (between s old.2.2 current.2.2).length

/-! ## slices -/

def SOURCE_ROWS : Nat := 16384

def OBSERVATIONS : Nat := 128

def SOURCE_BYTES : Nat := 1024 * 1024

def sliceEnd (s : Store α) (cursor high : Int) : Int :=
  ((between s cursor high)[SOURCE_ROWS - 1]?.map (·.seq)).getD high

/-- A row that a slice reads. -/
structure SourceRow (α : Type) where
  seq : Int
  home : Option α
  ts : Option α
  data : Option α
deriving DecidableEq

/-- The join with `event_sessions`. -/
def joined (s : Store α) (r : RecordRow α) : Option (SourceRow α) :=
  (r.sessionId.bind s.sessions.find?).map fun o => ⟨r.seq, o.home, r.ts, r.data⟩

variable [DecidableEq α]

def sliceRows (R : Reading α β ε) (s : Store α) (cursor high : Int) : List (SourceRow α) :=
  (((between s cursor (sliceEnd s cursor high)).filter (·.quota = R.one)).filterMap
    (joined s)).take (OBSERVATIONS + 1)

structure Scan (α β : Type) where
  cursor : Int
  size : Nat := 0
  batch : List (Observation α β) := []

def observation (row : SourceRow α) : Option β → List (Observation α β)
  | none => []
  | some quota => [(row.home, row.ts, quota)]

def within (homes : Finset α) (row : SourceRow α) : Bool := row.home.any (· ∈ homes)

/-- The loop over the rows of a slice, and whether it read them all; `late` is the clock.  It
is `none` where a row raises. -/
def scan (R : Reading α β ε) (homes : Finset α) (start : Int) (late : Nat → Bool) :
    List (SourceRow α) → Nat → Scan α β → Option (Scan α β × Bool)
  | [], _, v => some (v, true)
  | row :: rows, position, v =>
    if OBSERVATIONS ≤ position then some (v, false)
    else if within homes row = false then
      scan R homes start late rows (position + 1) { v with cursor := row.seq }
    else if v.cursor ≠ start ∧
        (SOURCE_BYTES < v.size + R.size row.data ∨ late position = true) then some (v, false)
    else match R.rateLimits row.data with
      | none => none
      | some quota =>
        scan R homes start late rows (position + 1)
          { cursor := row.seq
            size := v.size + R.size row.data
            batch := v.batch ++ observation row quota }

end

/-! ## the import -/

/-- A row of `observation_import_progress`. -/
structure Progress (α ε : Type) where
  scope : Finset α
  token : Token ε
  cursor : Int
  complete : Bool

/-- An `ObservationImport`. -/
structure Reader (α ε : Type) where
  homes : Finset α
  cursor : Int := 0
  token : Option (Token ε) := none
  version : Option Nat := none
  finished : Bool := false

/-- What a step is about to commit. -/
structure Slice (α β ε : Type) where
  token : Token ε
  cursor : Int
  complete : Bool
  batch : List (Observation α β)

inductive Reply where
  | yes
  | no
  | raises
  | legacy
deriving DecidableEq

section

variable {α β ε : Type} [DecidableEq α] [DecidableEq ε]

def init (progress : Option (Progress α ε)) (homes : Finset α) : Reader α ε :=
  match progress with
  | none => { homes := homes, finished := homes = ∅ }
  | some saved =>
    if saved.scope = homes ∧ 0 ≤ saved.token.2.1 ∧ 0 ≤ saved.token.2.2 ∧ 0 ≤ saved.cursor ∧
        saved.cursor ≤ saved.token.2.2 then
      { homes := homes, cursor := saved.cursor, token := some saved.token
        finished := homes = ∅ }
    else { homes := homes, finished := homes = ∅ }

/-- `_layout`, where `changed` says that the schema is another one. -/
def Reader.layout (reader : Reader α ε) (changed : Bool) : Reader α ε :=
  if changed then { reader with token := none, cursor := 0 } else reader

/-- The token of the snapshot, kept while `data_version` is. -/
def Reader.current (R : Reading α β ε) (s : Store α) (version : Nat) (reader : Reader α ε) :
    Option (Token ε) :=
  if reader.version = some version ∧ reader.token.isSome then reader.token
  else ObservationImport.current R s

def Reader.resumed (s : Store α) (reader : Reader α ε) (current : Token ε) : Int :=
  if samePrefix s reader.token current then reader.cursor else 0

/-- What a step reads from a snapshot: `none` where a row raises. -/
def Reader.slice (R : Reading α β ε) (s : Store α) (reader : Reader α ε) (current : Token ε)
    (late : Nat → Bool) : Option (Slice α β ε) :=
  let start := reader.resumed s current
  (scan R reader.homes start late (sliceRows R s start current.2.2) 0 { cursor := start }).map
    fun (v, exhausted) =>
      let cursor := if exhausted then sliceEnd s start current.2.2 else v.cursor
      { token := current, cursor := cursor, complete := current.2.2 ≤ cursor, batch := v.batch }

/-- The index, the ledger and the import that is open. -/
structure System (α β ε : Type) where
  store : Store α
  version : Nat := 0
  imported : List (Observation α β) := []
  progress : Option (Progress α ε) := none
  reader : Option (Reader α ε) := none

/-- A step that fails: the token is as before, and the cursor is where the step left it. -/
def Reader.failed (reader : Reader α ε) (cursor : Int) : Reader α ε :=
  { reader with cursor := cursor }

def Reader.left (s : Store α) (reader : Reader α ε) (changed reset : Bool)
    (current : Option (Token ε)) : Int :=
  match reset, current with
  | false, _ => reader.cursor
  | true, none => (reader.layout changed).cursor
  | true, some current => (reader.layout changed).resumed s current

/-- `step` of an import that is not finished: `fails` makes it fail before the ledger
commits, and with `reset` after the cursor was set back. -/
def Reader.step (R : Reading α β ε) (x : System α β ε) (reader : Reader α ε) (changed : Bool)
    (late : Nat → Bool) (fails reset : Bool) : Reply × System α β ε :=
  let opened := reader.layout changed
  let current := opened.current R x.store x.version
  let failure (reset : Bool) : System α β ε :=
    { x with reader := some (reader.failed (reader.left x.store changed reset current)) }
  if fails then (.raises, failure reset)
  else match current with
    | none => (.legacy, { x with reader := some { reader with finished := true } })
    | some token => match opened.slice R x.store token late with
      | none => (.raises, failure true)
      | some slice =>
        (if slice.complete then .yes else .no,
          { x with
            imported := x.imported ++ slice.batch
            progress := some ⟨reader.homes, slice.token, slice.cursor, slice.complete⟩
            reader := some { homes := reader.homes, cursor := slice.cursor,
                             token := some slice.token, version := some x.version,
                             finished := slice.complete } })

def write (x : System α β ε) (statement : Statement α) : System α β ε :=
  { x with store := x.store.step statement, version := x.version + 1 }

inductive Event (α : Type) where
  | write (statement : Statement α)
  | begin_ (homes : Finset α)
  | close
  | step (changed : Bool) (late : Nat → Bool) (fails reset : Bool) (writes : List (Statement α))

/-- What an event answers, and its system; `writes` come between the snapshot and the commit. -/
def perform (R : Reading α β ε) (x : System α β ε) : Event α → Reply × System α β ε
  | .write statement => (.no, write x statement)
  | .begin_ homes => (.no, { x with reader := some (init x.progress homes) })
  | .close => (.no, { x with reader := none })
  | .step changed late fails reset writes => match x.reader with
      | none => (.raises, x)
      | some reader =>
        if reader.finished then (.yes, x)
        else
          let answer := reader.step R x changed late fails reset
          (answer.1, writes.foldl write answer.2)

def step (R : Reading α β ε) (x : System α β ε) (event : Event α) : System α β ε :=
  (perform R x event).2

/-! ## covered writes -/

/-- The triggers count the write: a written record has an owner, a new owner starts at a
counter that is not negative, and nothing else lowers a counter. -/
def Counted (s : Store α) (statement : Statement α) : Prop :=
  s.admits statement → match statement with
    | .insertRecord _ _ new => ∃ o ∈ s.sessions.rows, new.sessionId = some o.id
    | .updateRecord seq new => (s.records.find? seq).isSome →
        ∃ o ∈ s.sessions.rows, new.sessionId = some o.id
    | .insertSession _ _ new => ∃ n ∈ new.revision, 0 ≤ n
    | .updateSession id new => ∀ old ∈ s.sessions.find? id, Store.moved old new = false →
        ∀ n ∈ new.revision, ∃ m ∈ old.revision, m ≤ n
    | _ => True

end

end Codexon.ObservationImport
