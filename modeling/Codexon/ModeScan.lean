import Codexon.Dict
import Codexon.Json
import Codexon.Run

/-!
# Codexon.ModeScan

`cachemonitor/quota_cycles.py`: `QuotaLedger.scan_modes` and the part of the
ledger it reads and writes.  `request_mode_observation` is a parameter (with
the text `json.dumps` makes of its result), and so is the outcome of a write.
What `rebuild_mode_evidence` derives from the stored events is not part of the
model.
-/

namespace Codexon

def MODE_SCAN_ROWS : Nat := 10000

def MODE_SCAN_MATCHES : Nat := 500

/-- The target of the rows that are read. -/
def sessionHandlers : PyStr := py "codex_core::session::handlers"

/-- A row of the log: what an entry holds, and its id. -/
structure LogRow where
  id : Nat
  target : PyStr
  threadId : PyStr
  body : PyStr
deriving DecidableEq

/-- `row[1]` of a row, if it is true: the thread of a session handler. -/
def LogRow.handled (row : LogRow) : Bool := row.target = sessionHandlers && !row.threadId.isEmpty

/-- What `request_mode_observation` finds: the turn, and the data to store. -/
structure ModeObservation where
  turn : PyStr
  data : PyStr
deriving DecidableEq

/-- A home, or an owner (home and thread). -/
abbrev CursorKey := PyStr × Option PyStr

/-- The key of `mode_events`: home, id, thread and turn. -/
abbrev EventKey := PyStr × Nat × PyStr × PyStr

/-- The part of a `QuotaLedger` that `scan_modes` uses. -/
structure ModeLedger where
  modeOffsets : Dict CursorKey Nat := {}
  modeBackfill : Dict CursorKey Nat := {}
  modeEvents : Dict EventKey PyStr := {}
  modeScan : Dict PyStr (Nat × Nat) := {}
deriving DecidableEq

/-- `rows,first,last` of `scan`. -/
structure Scan where
  rows : List LogRow := []
  first : Option Nat := none
  last : Option Nat := none

namespace Scan

/-- The loop of `scan` over the rows of the cursor. -/
def collect (s : Scan) : List LogRow → Scan
  | [] => s
  | row :: rest =>
    let s := { s with first := s.first.or (some row.id), last := some row.id }
    if row.handled then
      let s := { s with rows := s.rows ++ [row] }
      if MODE_SCAN_MATCHES ≤ s.rows.length then s else s.collect rest
    else s.collect rest

end Scan

/-- The rows a cursor reads at all: those of the owner it is for. -/
def selected (sid : Option PyStr) (row : LogRow) : Bool :=
  sid.all fun sid => row.threadId = sid && row.target = sessionHandlers

/-- `scan`: the rows of a condition, from the start or from the end of the log. -/
def scan (log : List LogRow) (sid : Option PyStr) (condition : LogRow → Bool) (reverse : Bool) : Scan :=
  let ordered := if reverse then log.reverse else log
  Scan.collect {} ((ordered.filter fun row => condition row && selected sid row).take MODE_SCAN_ROWS)

namespace ModeLedger

section

variable (observe : PyStr → Option ModeObservation)

def storeRows (home : PyStr) (fails : Nat → Bool) (events : Dict EventKey PyStr) :
    List LogRow → Dict EventKey PyStr × Bool
  | [] => (events, true)
  | row :: rest =>
    match observe row.body with
    | none => storeRows home fails events rest
    | some parsed =>
      let key : EventKey := (home, row.id, row.threadId, parsed.turn)
      if events.get? key = some parsed.data then storeRows home fails events rest
      else if fails row.id then (events, false)
      else storeRows home fails (events.set key parsed.data) rest

/-- The newest rows: from the end of the log when there is no cursor, else
after it.  Also the cursor they lead to. -/
def scanLatest (s : ModeLedger) (key : CursorKey) (log : List LogRow) :
    ModeLedger × List LogRow × Nat :=
  match s.modeOffsets.get? key with
  | none =>
    let found := scan log key.2 (fun _ => true) true
    ({ s with modeBackfill := s.modeBackfill.set key (found.last.getD 0) },
      found.rows.reverse, found.first.getD 0)
  | some offset =>
    let found := scan log key.2 (fun row => offset < row.id) false
    (s, found.rows, found.last.getD offset)

def scanOlder (s : ModeLedger) (key : CursorKey) (log : List LogRow) : ModeLedger × List LogRow :=
  let before := (s.modeBackfill.get? key).getD 0
  if before ≠ 0 then
    let older := scan log key.2 (fun row => row.id < before) true
    ({ s with modeBackfill := s.modeBackfill.set key (older.last.getD 0) }, older.rows.reverse)
  else (s, [])

def checkShorter (s : ModeLedger) (key : CursorKey) (log : List LogRow) : ModeLedger :=
  if (log.getLast?.map (·.id)).getD 0 < (s.modeOffsets.get? key).getD 0 then
    { s with modeOffsets := s.modeOffsets.erase key, modeBackfill := s.modeBackfill.erase key }
  else s

/-- One round of the loop of `scan_modes`: a home or an owner whose log can be
read.  An error of a write ends the round. -/
def scanSource (s : ModeLedger) (key : CursorKey) (log : List LogRow) (fails : Nat → Bool) :
    ModeLedger :=
  let s := s.checkShorter key log
  let (s, rows, latest) := s.scanLatest key log
  let (s, older) := s.scanOlder key log
  match storeRows observe key.1 fails s.modeEvents (older ++ rows) with
  | (events, false) => { s with modeEvents := events }
  | (events, true) =>
    let s := { s with modeEvents := events, modeOffsets := s.modeOffsets.set key latest }
    if key.2.isSome then s
    else { s with
      modeScan := s.modeScan.set key.1 (latest, (s.modeBackfill.get? key).getD 0) }

end

end ModeLedger

/-! ## a ledger and its logs -/

/-- An entry of a log before it has an id, and the ids it leaves out. -/
structure LogEntry where
  gap : Nat := 0
  target : PyStr
  threadId : PyStr
  body : PyStr

def numbered (last : Nat) : List LogEntry → List LogRow
  | [] => []
  | entry :: rest =>
    let id := last + entry.gap + 1
    { id, target := entry.target, threadId := entry.threadId, body := entry.body } ::
      numbered id rest

/-- The ledger, and the log of each home. -/
structure ModeWorld where
  ledger : ModeLedger := {}
  logs : PyStr → List LogRow := fun _ => []

namespace ModeWorld

def append (w : ModeWorld) (appended : PyStr → List LogEntry) : ModeWorld := { w with
  logs := fun home =>
    w.logs home ++ numbered (((w.logs home).getLast?.map (·.id)).getD 0) (appended home) }

variable (observe : PyStr → Option ModeObservation)

def visit (fails : CursorKey → Nat → Bool) (w : ModeWorld) (key : CursorKey) : ModeWorld := { w with
  ledger := w.ledger.scanSource observe key (w.logs key.1) (fails key) }

end ModeWorld

end Codexon
