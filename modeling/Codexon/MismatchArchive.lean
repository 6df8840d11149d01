import Mathlib.Data.List.Dedup
import Mathlib.Data.String.Basic
import Codexon.DictMerge
import Codexon.Run

/-!
# Codexon.MismatchArchive

`MismatchArchive` of `cachemonitor/mismatch_history.py`: a scan of a view observes
calls, a confirmed model mismatch goes to a bounded map of pending rows, and `retry`
writes these to the archive, which may be closed or failing.

`step` is a loop; here it is its passes, with the calls of `retry` around them, so
that it may stop between any two.  What the view answers, the clock readings and
how far a write gets are part of the event.
-/

namespace Codexon.MismatchArchive

/-! ## rows -/

/-- `(home, sid)` -/
abbrev Owner := String × String

/-- `correction_reason` -/
inductive Reason where
  | modelConflict
  | modelAgrees
  | confirmationWithdrawn
  | conflictingOccurrences
deriving DecidableEq

/-- The `FIELDS` of a prepared row.  `body` are those that nothing here reads. -/
structure Snapshot (τ σ : Type) where
  home : String
  sid : String
  ts : τ
  requestedModel : String
  responseModel : String
  modelObservationTs : Option τ := none
  effort : Option String := none
  requestedEffort : Option String := none
  responseEffort : Option String := none
  responseServiceTier : Option String := none
  body : σ
deriving DecidableEq

/-- A row of `mismatch_occurrences`.  A time is `none` where `_finite` refuses it. -/
structure Occurrence (τ ο : Type) where
  home : String
  sid : String
  alertConfirmed : Bool
  requestedModel : String
  responseModel : String
  ts : Option τ := none
  modelObservationTs : Option τ := none
  modelConflict : Bool := false
  responseEffortConfirmed : Bool := false
  responseEffortConflict : Bool := false
  responseTierConfirmed : Bool := false
  requestedEffortConflict : Bool := false
  body : ο

/-- A pending row. -/
structure Row (τ σ : Type) where
  snapshot : Snapshot τ σ
  sourceOwners : List Owner
  firstCapturedAt : τ
  changedAt : τ
  correctionAt : Option τ
  correctionReason : Option Reason
deriving DecidableEq

/-- A row of `calls`. -/
structure Stored (τ σ : Type) where
  home : String
  sid : String
  recordedAt : τ
  snapshot : Snapshot τ σ
  sourceOwners : List Owner
  firstCapturedAt : τ
  changedAt : τ
  correctionAt : Option τ
  correctionReason : Option Reason
deriving DecidableEq

def Stored.decode {τ σ : Type} (saved : Stored τ σ) : Row τ σ :=
  ⟨saved.snapshot, saved.sourceOwners, saved.firstCapturedAt, saved.changedAt, saved.correctionAt,
    saved.correctionReason⟩

/-- The columns of `INSERT INTO calls`. -/
def Row.insert {τ σ : Type} (row : Row τ σ) : Stored τ σ :=
  ⟨row.snapshot.home, row.snapshot.sid, row.snapshot.ts, row.snapshot, row.sourceOwners,
    row.firstCapturedAt, row.changedAt, row.correctionAt, row.correctionReason⟩

/-- What is not modelled: `prepare_row`, restricted to `FIELDS`, and the length of the JSON text
of a row and its key. -/
structure Env (κ τ σ ο : Type) where
  prepareRow : Occurrence τ ο → Snapshot τ σ
  encodedBytes : κ → Row τ σ → Nat

section

variable {κ τ σ ο : Type}

/-- `confirmed_snapshot`: the outer `none` is the exception. -/
def confirmedSnapshot (env : Env κ τ σ ο) (row : Occurrence τ ο) (observedAt : τ) :
    Option (Option (Snapshot τ σ)) :=
  if row.alertConfirmed = false then some none
  else if row.requestedModel = "" ∨ row.responseModel = "" then none
  else
    let result := env.prepareRow row
    some (some { result with
      ts := (row.ts.or row.modelObservationTs).getD observedAt
      responseEffort := if row.responseEffortConfirmed = false ∨ row.responseEffortConflict = true
        then none else result.responseEffort
      responseServiceTier := if row.responseTierConfirmed then result.responseServiceTier else none
      effort := if row.requestedEffortConflict then none else result.effort
      requestedEffort := if row.requestedEffortConflict then none else result.requestedEffort })

/-! ## state -/

/-- `scan['phase']` -/
inductive Phase where
  | candidates
  | changed
  | saved
  | pending
deriving DecidableEq

/-- A scan.  The pages of the view and what `_saved_keys` yields come with the events. -/
structure Scan (κ : Type) where
  owners : Option (List Owner)
  phase : Phase := .candidates
  buffer : List κ := []
  complete : Bool := false
  /-- `scan['pending']` -/
  keys : Option (List κ) := none
deriving DecidableEq

/-- The object, and the file: `stored`, `storedGap` and `storedRevision`. -/
structure State (κ τ σ : Type) where
  pendingLimit : Nat
  pending : Dict κ (Row τ σ × Nat) := {}
  pendingBytes : Int := 0
  db : Bool := false
  revision : Nat := 0
  error : Bool := false
  gap : Bool := false
  savedGap : Bool := false
  needsScan : Bool := true
  failures : Nat := 0
  scan : Option (Scan κ) := none
  waitingScans : List (Scan κ) := []
  stored : Dict κ (Stored τ σ) := {}
  storedGap : Bool := false
  storedRevision : Nat := 0

def State.hasWork (s : State κ τ σ) : Bool := s.scan.isSome || !s.waitingScans.isEmpty

/-- What becomes of a call of `retry`: whether the back-off is over, the archive opens, how many
rows are written in time, and whether the transaction fails. -/
structure Write where
  due : Bool := true
  opens : Bool := true
  rows : Nat := 64
  fails : Bool := false
deriving DecidableEq

def failure (s : State κ τ σ) : State κ τ σ :=
  { s with error := true, needsScan := true, failures := s.failures + 1 }

/-- `_open`: `none` for the exception. -/
def open_ (opens : Bool) (s : State κ τ σ) : Option (State κ τ σ) :=
  if s.db then some s
  else if opens then
    some { s with
      db := true
      revision := s.storedRevision
      savedGap := s.storedGap
      gap := s.gap || s.storedGap }
  else none

variable [DecidableEq κ] [LinearOrder τ] [DecidableEq σ]

/-! ## writing -/

def writeRow (stored : Dict κ (Stored τ σ)) (key : κ) (row : Row τ σ) :
    Dict κ (Stored τ σ) × Bool :=
  match stored.get? key with
  | none => (stored.set key row.insert, true)
  | some saved =>
    if saved.decode = row then (stored, false)
    else (stored.set key { row.insert with
      recordedAt := saved.recordedAt, firstCapturedAt := saved.firstCapturedAt }, true)

def writeRows (stored : Dict κ (Stored τ σ)) :
    List (κ × Row τ σ × Nat) → Dict κ (Stored τ σ) × Bool
  | [] => (stored, false)
  | (key, row, _) :: entries =>
    let first := writeRow stored key row
    let rest := writeRows first.1 entries
    (rest.1, first.2 || rest.2)

/-- The transaction of `retry`, and the loop that removes what was committed. -/
def commit (rows : Nat) (s : State κ τ σ) : State κ τ σ :=
  let taken := s.pending.entries.take (min rows 64)
  let written := writeRows s.stored taken
  let flag := s.gap && !s.savedGap
  { s with
    stored := written.1
    storedGap := s.storedGap || flag
    storedRevision := if flag || written.2 then s.storedRevision + 1 else s.storedRevision
    pending := taken.foldl (fun pending entry => pending.erase entry.1) s.pending
    pendingBytes := s.pendingBytes - (taken.map fun entry => (entry.2.2 : Int)).sum }

def retry (force : Bool) (write : Write) (s : State κ τ σ) : State κ τ σ :=
  if force = false ∧ write.due = false then s
  else
    match open_ write.opens s with
    | none => failure s
    | some s =>
      if write.fails then failure s
      else
        let s := commit write.rows s
        { s with
          revision := s.storedRevision
          savedGap := s.gap
          needsScan := s.needsScan || decide (0 < s.failures)
          failures := 0
          error := false }

/-! ## observing -/

def saved (s : State κ τ σ) (key : κ) : Option (Row τ σ) :=
  match s.pending.get? key with
  | some entry => some entry.1
  | none => if s.db then (s.stored.get? key).map Stored.decode else none

def sizeOf_ (env : Env κ τ σ ο) (key : κ) (row : Row τ σ) (old : Option (Row τ σ × Nat)) : Nat :=
  let actual := env.encodedBytes key row + 256
  match old with
  | some entry => max actual entry.2
  | none => actual + 2048

def needed (s : State κ τ σ) (key : κ) (size : Nat) : Int :=
  s.pendingBytes - ((s.pending.get? key).map fun entry => (entry.2 : Int)).getD 0 + size

/-- The end of `_queue`. -/
def enqueue (key : κ) (row : Row τ σ) (size : Nat) (s : State κ τ σ) : State κ τ σ :=
  if needed s key size > s.pendingLimit then { s with gap := true, needsScan := true }
  else { s with
    pending := s.pending.set key (row, size)
    pendingBytes := needed s key size }

def queue (env : Env κ τ σ ο) (key : κ) (row : Row τ σ) (write : Write) (s : State κ τ σ) :
    State κ τ σ :=
  let size := sizeOf_ env key row (s.pending.get? key)
  if needed s key size > s.pendingLimit ∧ s.db = true ∧ s.error = false
    then enqueue key row size (retry true write s)
  else enqueue key row size s

variable [Zero τ]

/-- The locals of the loop of `_observe`. -/
structure Tally (τ σ : Type) where
  present : Nat := 0
  sourceOwners : List Owner := []
  confirmations : Nat := 0
  contradictory : Bool := false
  pair : Option (String × String) := none
  selected : Option (Snapshot τ σ) := none
  reason : Option Reason := none

def newer (snapshot selected : Snapshot τ σ) : Bool :=
  let time := snapshot.modelObservationTs.getD 0
  let time' := selected.modelObservationTs.getD 0
  time' < time || (time = time' && selected.sid < snapshot.sid)

/-- An iteration of the loop of `_observe`: `none` for the exception. -/
def Tally.add (env : Env κ τ σ ο) (observedAt : τ) (tally : Tally τ σ) (row : Occurrence τ ο) :
    Option (Tally τ σ) :=
  let tally := { tally with
    present := tally.present + 1, sourceOwners := (row.home, row.sid) :: tally.sourceOwners }
  match confirmedSnapshot env row observedAt with
  | none => none
  | some (some snapshot) =>
    let pair := (snapshot.requestedModel, snapshot.responseModel)
    some { tally with
      confirmations := tally.confirmations + 1
      contradictory := tally.contradictory || (tally.pair.isSome && tally.pair ≠ some pair)
      pair := some pair
      selected := match tally.selected with
        | none => some snapshot
        | some selected => if newer snapshot selected then some snapshot else some selected }
  | some none =>
    some { tally with
      reason := some (if row.modelConflict then .modelConflict
        else if row.requestedModel = row.responseModel ∧ row.requestedModel ≠ "" then .modelAgrees
        else .confirmationWithdrawn) }

def sortOwners (owners : List Owner) : List Owner :=
  owners.dedup.mergeSort fun a b => a.1 < b.1 || (a.1 = b.1 && a.2 ≤ b.2)

/-- `reason`, after the loop. -/
def Tally.correction (tally : Tally τ σ) : Option Reason :=
  if tally.contradictory = true ∨
      (tally.confirmations ≠ 0 ∧ tally.confirmations ≠ tally.present)
    then some .conflictingOccurrences else tally.reason

/-- The value that `_observe` compares with what is saved. -/
def Tally.value (tally : Tally τ σ) (previous : Option (Row τ σ)) (at_ : τ) :
    Option (Row τ σ) :=
  let reason := tally.correction
  if tally.present = 0 then none
  else
    match tally.selected, previous with
    | some selected, some previous => some
        ⟨{ selected with ts := previous.snapshot.ts }, sortOwners tally.sourceOwners,
          previous.firstCapturedAt, at_, reason.map fun _ => at_, reason⟩
    | some selected, none => some
        ⟨selected, sortOwners tally.sourceOwners, at_, at_, reason.map fun _ => at_, reason⟩
    | none, some previous => some
        ⟨previous.snapshot, sortOwners tally.sourceOwners, previous.firstCapturedAt, at_, some at_,
          reason⟩
    | none, none => none

/-- Equal but for `changed_at` and `correction_at`. -/
def Row.comparable (row : Row τ σ) : Snapshot τ σ × List Owner × τ × Option Reason :=
  (row.snapshot, row.sourceOwners, row.firstCapturedAt, row.correctionReason)

/-- `_observe`: `none` for the exception. -/
def observe (env : Env κ τ σ ο) (key : κ) (rows : List (Occurrence τ ο)) (at_ : τ) (write : Write)
    (s : State κ τ σ) : Option (State κ τ σ) :=
  (rows.foldlM (Tally.add env at_) {}).map fun tally =>
    let previous := saved s key
    match tally.value previous at_ with
    | none => s
    | some value =>
      if previous.map Row.comparable = some value.comparable then s
      else queue env key value write s

/-! ## scans -/

/-- `capture`, to its call of `step` or `retry`. -/
def capture (owners : Option (List Owner)) (s : State κ τ σ) : State κ τ σ :=
  let full := s.needsScan || owners.isNone
  if full = false ∧ owners = some [] then s
  else if s.waitingScans.length + s.scan.toList.length ≥ 2 then
    { s with gap := true, needsScan := true }
  else { s with
    waitingScans := s.waitingScans ++ [{ owners := if full then none else owners }]
    needsScan := if full then false else s.needsScan }

/-- A pass of the loop of `_next_identity`. -/
inductive Pass (κ : Type) where
  | identity (key : κ) (existingOnly : Bool) (scan : Scan κ)
  | again (scan : Scan κ)
  | done

/-- `_next_identity`, with a page of the view and what `_saved_keys` yields next. -/
def nextIdentity (pending : List κ) (page : List κ × Bool) (next : Option κ) (scan : Scan κ) :
    Pass κ :=
  match scan.buffer with
  | key :: buffer => .identity key (scan.phase = .changed) { scan with buffer := buffer }
  | [] =>
    match scan.phase with
    | .saved =>
      match next with
      | some key => .identity key true scan
      | none => .again { scan with phase := .pending }
    | .pending =>
      match scan.keys.getD pending with
      | key :: keys => .identity key true { scan with keys := some keys }
      | [] => .done
    | phase =>
      if scan.complete then .again { scan with
        phase := if phase = .candidates ∧ scan.owners.isSome then .changed else .saved
        complete := false }
      else .again { scan with buffer := page.1, complete := page.2 }

/-- The `except` of `step`. -/
def abandon (s : State κ τ σ) : State κ τ σ := failure { s with scan := none, gap := true }

/-- What the view, the iterators and the clock answer in a pass of `step`: `fails` where the
view raises or the capture is cancelled, after the rows that it gave. -/
structure Answers (κ τ ο : Type) where
  page : List κ × Bool := ([], true)
  next : Option κ := none
  rows : List (Occurrence τ ο) := []
  at_ : τ
  fails : Bool := false
  write : Write := {}

def State.current (s : State κ τ σ) : Option (Scan κ × List (Scan κ)) :=
  match s.scan, s.waitingScans with
  | some scan, waiting => some (scan, waiting)
  | none, scan :: waiting => some (scan, waiting)
  | none, [] => none

/-- A pass that got an identity. -/
def visit (env : Env κ τ σ ο) (answers : Answers κ τ ο) (key : κ) (existingOnly : Bool)
    (s : State κ τ σ) : State κ τ σ :=
  if answers.fails then abandon s
  else if existingOnly = true ∧ (saved s key).isNone then s
  else (observe env key answers.rows answers.at_ answers.write s).getD (abandon s)

/-- A pass of the loop of `step`. -/
def pass (env : Env κ τ σ ο) (answers : Answers κ τ ο) (s : State κ τ σ) : State κ τ σ :=
  match s.current with
  | none => s
  | some (scan, waiting) =>
    let s := { s with waitingScans := waiting }
    match nextIdentity (s.pending.entries.map Prod.fst) answers.page answers.next scan with
    | .again scan => if answers.fails then abandon s else { s with scan := some scan }
    | .done => { s with scan := none }
    | .identity key existingOnly scan =>
      visit env answers key existingOnly { s with scan := some scan }

/-- The scans that `close` gives up: what was not scanned or written leaves the gap. -/
def dropScans (s : State κ τ σ) : State κ τ σ :=
  { s with
    gap := s.gap || s.hasWork || !s.pending.entries.isEmpty
    scan := none
    waitingScans := [] }

/-- `close`, after its loops. -/
def close (write : Write) (s : State κ τ σ) : State κ τ σ :=
  let s := dropScans s
  { (if s.gap ≠ s.savedGap ∨ s.pending.entries ≠ [] then retry true write s else s) with
    db := false }

/-! ## runs -/

inductive Event (κ τ ο : Type) where
  | capture (owners : Option (List Owner))
  | pass (answers : Answers κ τ ο)
  | retry (force : Bool) (write : Write)
  | close (write : Write)

def step (env : Env κ τ σ ο) (s : State κ τ σ) : Event κ τ ο → State κ τ σ
  | .capture owners => capture owners s
  | .pass answers => pass env answers s
  | .retry force write => retry force write s
  | .close write => close write s

end

end Codexon.MismatchArchive
