import Codexon.Keyed
import Codexon.PackedRows
import Codexon.Tracking

/-!
# Codexon.QuotaPeriods

`_history_rows` and `_history_groups` of `cachemonitor/quota_view.py`: the rows of a packed
history are classified and cut into periods, from a checkpoint on or with the periods of
the history before.

What is pickled and loaded again stands for itself.
-/

namespace Codexon.QuotaPeriods

open PackedRows

/-! ## records -/

inductive Window where
  | weekly
  | fiveHour
deriving DecidableEq

/-- `row['reset_kind']`. -/
inductive ResetKind where
  | scheduled
  | arbitrary
  | measurement
deriving DecidableEq

inductive RecordId where
  | stored (id : PyStr)
  /-- `'clear:'+str(c['end'])`. -/
  | clear (stop : ℚ)
deriving DecidableEq

/-- A record of the history.  What is no number of `used` is `none`. -/
structure Record where
  id : RecordId
  time : ℚ
  window : Window
  account : Option PyStr
  source : Option PyStr
  used : Option PyNum
  reset : Option PyFloat
  measurementReset : Bool := false
deriving DecidableEq

def Record.texts (r : Record) : List PyStr :=
  (match r.id with | .stored id => [id] | .clear _ => []) ++ r.account.toList ++ r.source.toList

def reader : Reader Record ℚ := ⟨Record.time, Record.texts⟩

structure Control where
  time : ℚ
  enabled : Bool
deriving DecidableEq

/-- What the last row of a cleared cycle left. -/
structure Baseline where
  window : Window
  account : Option PyStr
  source : Option PyStr
  used : Option PyNum
  reset : Option PyFloat
deriving DecidableEq

/-- A record of `cycle_clears`; the baseline of a deletion is `null`. -/
structure Edit where
  account : PyStr
  start : ℚ
  stop : ℚ
  baseline : Option Baseline
deriving DecidableEq

/-- A classified record. -/
structure Row where
  record : Record
  remaining : PyNum
  resetKind : Option ResetKind
  connect : Bool
  trackingContinuous : Bool
deriving DecidableEq

/-- What `_checkpoint` saves of the loop. -/
structure State where
  count : Nat := 0
  removed : Bool := false
  previous : Option Row := none
  detector : ResetTracker := {}
  controlPosition : Nat := 0
  enabled : Bool := true
deriving DecidableEq

/-- The time of a row and the state before it. -/
abbrev Checkpoint := ℚ × State

/-- What is read of a report; `cycleAccounts` are the accounts of its cycles. -/
structure Report where
  account : Option PyStr
  cycleAccounts : List (Option PyStr) := []
  controls : List Control := []
  cycleClears : List Edit := []
  history : Packed ℚ
  historyIdentified : Option Bool := none
  historyResume : Option Checkpoint := none

def named (account : Option PyStr) : Bool := account.any (· ≠ [])

/-! ## candidates -/

variable {δ : Type} (enc : Encoding Record δ)

/-- `any(r.get('account')==account and r['window']==mode for r in history)`. -/
def Report.observed (report : Report) (mode : Window) : Bool :=
  (report.history.iter enc).any fun r => r.account = report.account && r.window = mode

def Report.identified (report : Report) (mode : Window) : Bool :=
  report.historyIdentified.getD (named report.account && report.observed enc mode)

def Report.edits (report : Report) (mode : Window) : List Edit :=
  if mode = .weekly then report.cycleClears.filter fun c => some c.account = report.account else []

def Report.deletes (report : Report) (mode : Window) : List Edit :=
  Keyed.sort Edit.start ((report.edits mode).filter fun c => c.baseline.isNone)

def Report.clears (report : Report) (mode : Window) : List Edit :=
  Keyed.sort Edit.start ((report.edits mode).filter fun c => c.baseline.isSome)

def lastEdit (edits : List Edit) (t : ℚ) : Option Edit :=
  (edits.take (bisectRight (edits.map Edit.start) t)).getLast?

def retained (account : Option PyStr) (clears : List Edit) (r : Record) : Bool :=
  (lastEdit clears r.time).all fun c => r.account ≠ account || c.stop < r.time

def Edit.baselineRecord (c : Edit) : Option Record :=
  c.baseline.map fun b => {
    id := .clear c.stop
    time := c.stop
    window := b.window
    account := b.account
    source := b.source
    used := b.used
    reset := b.reset
    measurementReset := true }

def gather (account : Option PyStr) (clears : List Edit) (history baselines : List Record) :
    List Record :=
  if clears = [] then history
  else
    Keyed.merge Record.time (history.filter (retained account clears))
      (Keyed.sort Record.time baselines)

/-- What is read, from `resumeAt` on. -/
def Report.records (report : Report) (mode : Window) (resumeAt : Option ℚ) : List Record :=
  let history :=
    match resumeAt with
    | none => report.history.iter enc
    | some t => report.history.iterFrom enc reader t
  let clears := report.clears mode
  gather report.account clears history
    ((clears.filter fun c => resumeAt.all (· ≤ c.stop)).filterMap Edit.baselineRecord)

def Report.candidates (report : Report) (mode : Window) (resumeAt : Option ℚ) : List Record :=
  (report.records enc mode resumeAt).filter fun r =>
    r.window = mode && (!report.identified enc mode || r.account = report.account)

/-- `rank.get(record.get('source'), 0)`. -/
def sourceRank (r : Record) : Nat :=
  if r.source = some (py "live") then 2 else if r.source = some (py "local") then 1 else 0

/-- Of the records of each time, the last of the highest rank; `best` is of those read. -/
def preferred (best : Option Record) : List Record → List Record
  | [] => best.toList
  | r :: rest =>
    match best with
    | none => preferred (some r) rest
    | some b =>
      if r.time = b.time then
        preferred (some (if sourceRank b ≤ sourceRank r then r else b)) rest
      else b :: preferred (some r) rest

/-! ## classification -/

/-- `record['at'] - previous['at'] <= OBSERVATION_FRESHNESS`. -/
def fresh (t previous : ℚ) : Bool :=
  PyFloat.roundDouble (t < previous) |t - previous| ≤ (120 : PyFloat)

/-- A number that is no percentage ends what is continuous. -/
def usable (r : Record) : Option PyNum :=
  r.used.filter fun u => u.value.isfinite && decide ((0 : PyFloat) ≤ u.value) &&
    decide (u.value ≤ (100 : PyFloat))

/-- The controls up to `t`: whether there are any, and the state after them. -/
def State.control (s : State) (controls : List Control) (t : ℚ) : Bool × State :=
  let passed := (controls.drop s.controlPosition).takeWhile fun c => c.time ≤ t
  (passed ≠ [], { s with
    controlPosition := s.controlPosition + passed.length
    enabled := (passed.getLast?.map Control.enabled).getD s.enabled })

def sameTracking (s : State) (interrupted : Bool) (r : Record) : Bool :=
  match s.previous with
  | none => false
  | some previous =>
    s.enabled && !interrupted && previous.record.time < r.time &&
      !(named previous.record.account && named r.account && previous.record.account ≠ r.account)

def ofEvent : ResetEvent → ResetKind
  | .scheduledReset => .scheduled
  | .arbitraryReset => .arbitrary

def State.classify (s : State) (mode : Window) (interrupted : Bool) (r : Record) (used : PyNum) :
    Row × State :=
  let same := sameTracking s interrupted r
  let continuous := same && s.previous.any fun previous => fresh r.time previous.record.time
  let remaining := used.hundredMinus
  let (event, detector) :=
    if mode = .weekly then
      s.detector.observe remaining.value (.finite r.time) r.reset same
    else (none, s.detector)
  let continuous := continuous && !r.measurementReset &&
    !(s.previous.any fun previous => previous.record.measurementReset)
  let row := {
    record := r
    remaining
    resetKind := if r.measurementReset then some .measurement else event.map ofEvent
    connect := continuous && decide (0 < s.count)
    trackingContinuous := same }
  (row, { s with detector, previous := some row })

/-- What a classification reads of a report. -/
structure Plan where
  mode : Window
  start : Option ℚ
  stop : Option ℚ
  controls : List Control
  deletes : List Edit

/-- A row that is yielded, and `_checkpoint['value']` at that moment. -/
structure Yield where
  row : Row
  value : Checkpoint
deriving DecidableEq

/-- How the loop goes on after a record: with the next one, with the next one after a row,
or not at all. -/
inductive Outcome where
  | skip (s : State)
  | yield (row : Row) (s : State)
  | stop

/-- The body of the loop of `_history_rows`. -/
def State.step (plan : Plan) (s : State) (r : Record) : Outcome :=
  let (interrupted, s) := s.control plan.controls r.time
  match usable r with
  | none => .skip { s with previous := none }
  | some used =>
    if plan.stop.any (· < r.time) then .stop
    else
      let (row, s) := s.classify plan.mode interrupted r used
      if plan.start.any (r.time < ·) then .skip s
      else
        let s := { s with count := s.count + 1 }
        if plan.deletes = [] then .yield row s
        else if (lastEdit plan.deletes r.time).any (r.time < ·.stop) then
          .skip { s with removed := true }
        else if s.removed then
          .yield { row with connect := false, trackingContinuous := false }
            { s with removed := false }
        else .yield row s

/-- The loop; `value` is what `_checkpoint` holds. -/
def rowsFrom (plan : Plan) (value : Option Checkpoint) (s : State) : List Record → List Yield
  | [] => []
  | r :: rest =>
    match s.step plan r with
    | .skip s => rowsFrom plan value s rest
    | .yield row s' =>
      let value := if row.resetKind.isSome then (r.time, s) else value.getD (r.time, s)
      { row, value } :: rowsFrom plan (some value) s' rest
    | .stop => []

def Report.plan (report : Report) (mode : Window) (start stop : Option ℚ) : Plan where
  mode := mode
  start := start
  stop := stop
  controls := Keyed.sort Control.time report.controls
  deletes := report.deletes mode

def historyRows (report : Report) (mode : Window) (start stop : Option ℚ)
    (resume : Option Checkpoint) : List Yield :=
  rowsFrom (report.plan mode start stop) none ((resume.map Prod.snd).getD {})
    (preferred none (report.candidates enc mode (resume.map Prod.fst)))

end Codexon.QuotaPeriods
