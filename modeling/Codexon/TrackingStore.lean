import Codexon.Tracking
import Codexon.Json

/-!
# Codexon.TrackingStore

`cachemonitor/quota_tracking_store.py`, `build`: the replay of one home's
observations and monitoring controls into display groups, with the checkpoint
a later build may resume from.

A row carries the quota document `PayloadReader.decode` returns for it, in the
shape `clean_limits` and `normalize_limits` give it: `None` and a missing key
are `none`.  SQLite stores `nan` as NULL, so a `nan` time here is a NULL
column: no comparison selects it.  The compressed size of a group's rows,
which only decides whether a checkpoint is kept, is the parameter `packed`.
-/

namespace Codexon.TrackingStore

/-! ## tables -/

/-- `quota['windows']['weekly']`. -/
structure Window where
  usedPercent : PyNum
  resetsAt : Option PyNum
deriving DecidableEq

/-- The fields of a quota document the replay reads. -/
structure Quota where
  account : Option PyStr
  planType : Option PyStr
  bucket : Option PyStr
  weekly : Option Window
  separateModels : List PyStr
  source : Option PyStr
deriving DecidableEq

/-- A row of `tracking_observations` with its decoded payload. -/
structure Row where
  seq : Int
  home : PyStr
  requested : PyFloat
  received : PyFloat
  quota : Except PyError Quota

/-- A row of `tracking_controls`. -/
structure Control where
  home : PyStr
  atTime : PyFloat
  enabled : Bool
deriving DecidableEq

/-- The tables a replay reads.  `policy` is `tracking_policies` at the current
policy version. -/
structure Db where
  config : PyStr → Option PyFloat
  policy : PyStr → Option PyFloat
  controls : List Control
  observations : List Row

/-- `order by received,seq`. -/
def Row.le (a b : Row) : Bool :=
  decide (a.received < b.received) || PyFloat.eq a.received b.received && decide (a.seq ≤ b.seq)

/-- `order by at`. -/
def Control.le (a b : Control) : Bool := decide (a.atTime ≤ b.atTime)

/-- `select … where home=? and requested>=? and received<=? order by received,seq`. -/
def Db.rows (db : Db) (home : PyStr) (started now : PyFloat) : List Row :=
  (db.observations.filter fun r =>
    r.home = home ∧ started ≤ r.requested ∧ r.received ≤ now).insertionSort (Row.le · ·)

/-- `select … where home=? and at>=? and at<=? order by at`. -/
def Db.controlRows (db : Db) (home : PyStr) (started now : PyFloat) : List Control :=
  (db.controls.filter fun c =>
    c.home = home ∧ started ≤ c.atTime ∧ c.atTime ≤ now).insertionSort (Control.le · ·)

/-! ## the replay -/

/-- The components of an observation's epoch. -/
inductive EpochPart where
  | text (s : Option PyStr)
  | time (x : PyFloat)
  | models (ms : List PyStr)
deriving DecidableEq

/-- One display row; `minutes` is always 10080. -/
structure DisplayRow where
  id : PyStr
  atTime : PyFloat
  used : PyNum
  reset : PyNum
  account : PyStr
  plan : PyStr
  bucket : PyStr
  separate : PyStr
  source : PyStr
deriving DecidableEq

/-- One display group.  The source's dictionary also carries constants. -/
structure Group where
  id : PyStr
  observations : List DisplayRow
  boundary : PyFloat
  reason : CloseReason
deriving DecidableEq

/-- The local variables of the replay loop: the tracker, the raw rows of its
open segment by sequence, the finished groups and the monitoring switch. -/
structure Replay where
  state : TrackingState EpochPart
  raw : List (Int × DisplayRow) := []
  groups : List Group := []
  lastObservedAt : Option PyFloat := none
  monitoring : Bool := false
  enabledAt : PyFloat
deriving DecidableEq

def pop (raw : List (Int × DisplayRow)) (sequence : Int) :
    Except PyError (DisplayRow × List (Int × DisplayRow)) :=
  match raw.find? (·.1 = sequence) with
  | some (_, row) => .ok (row, raw.filter (·.1 ≠ sequence))
  | none => .error .keyError

def popAll : List (Int × DisplayRow) → List (Observation EpochPart) →
    Except PyError (List DisplayRow × List (Int × DisplayRow))
  | raw, [] => .ok ([], raw)
  | raw, value :: values => do
    let (row, raw) ← pop raw value.sequence
    let (rows, raw) ← popAll raw values
    return (row :: rows, raw)

/-- The loop of `finish_groups` over the closed segments. -/
def finishSegments : List (Segment EpochPart) → List (Int × DisplayRow) → List Group →
    Except PyError (List (Int × DisplayRow) × List Group)
  | [], raw, groups => .ok (raw, groups)
  | interval :: closed, raw, groups => do
    let (rows, raw) ← popAll raw interval.observations
    finishSegments closed raw (groups ++ [{
      id := py "forward:" ++ Json.intRepr interval.start.sequence
      observations := rows
      boundary := interval.start.receivedAt
      reason := interval.reason }])

/-- `finish_groups`: a closed segment cannot consume future observations, so
its display rows are transferred at once. -/
def Replay.finishGroups (r : Replay) : Except PyError Replay := do
  let (raw, groups) ← finishSegments r.state.closed r.raw r.groups
  return { r with state := { r.state with closed := [] }, raw, groups }

/-- The body of the loop in `apply_controls`. -/
def Replay.applyControl (r : Replay) (c : Control) : Except PyError Replay := do
  if c.enabled then
    return { r with
      enabledAt := if r.monitoring then r.enabledAt else c.atTime
      monitoring := true }
  else
    let r ← Replay.finishGroups { r with state := r.state.close .monitoringOff false }
    return { r with monitoring := false }

/-- `apply_controls(until)`: the replay and the controls not yet due. -/
def applyControls (until_ : PyFloat) : List Control → Replay →
    Except PyError (Replay × List Control)
  | [], r => .ok (r, [])
  | c :: cs, r =>
    if c.atTime ≤ until_ then do
      let r ← r.applyControl c
      applyControls until_ cs r
    else .ok (r, c :: cs)

/-- The list of separate models with its epoch component and display text, as
cached from the previous row. -/
abbrev Separate := List PyStr × List PyStr × PyStr

/-- `previous_separate`: reuse the sorted tuple and text of an equal list. -/
def separateOf (previous : Option Separate) (separate : List PyStr) : Separate :=
  match previous with
  | some (last, epoch, text) =>
    if separate = last then (last, epoch, text) else fresh
  | none => fresh
where
  fresh : Separate := (separate, separate.insertionSort (· ≤ ·),
    (Json.dumps Json.spaced (.arr (separate.map .str))).getD [])

/-- A row the replay does not skip: its account, weekly window and deadline. -/
def Quota.reading (q : Quota) : Option (PyStr × Window × PyNum) :=
  match q.weekly, q.account with
  | some window, some account =>
    match window.resetsAt with
    | some reset => if account ≠ [] ∧ reset.truthy then some (account, window, reset) else none
    | none => none
  | _, _ => none

def observationOf (row : Row) (q : Quota) (account : PyStr) (window : Window) (reset : PyNum)
    (separateEpoch : List PyStr) : Observation EpochPart :=
  { sequence := row.seq
    requestedAt := row.requested
    receivedAt := row.received
    remaining := window.usedPercent.hundredMinus.value
    epoch := [.text (some account), .text q.planType, .text q.bucket, .time reset.value,
      .models separateEpoch]
    resetsAt := some reset.value }

def displayOf (row : Row) (q : Quota) (account : PyStr) (window : Window) (reset : PyNum)
    (separateText : PyStr) : DisplayRow :=
  { id := py "tracking:" ++ Json.intRepr row.seq
    atTime := row.received
    used := window.usedPercent
    reset
    account
    plan := q.planType.getD []
    bucket := q.bucket.getD []
    separate := separateText
    source := q.source.getD (py "live") }

/-- Offer one observation with its display row to the tracker.  A rejected row
loses its display row again; a recovery keeps the new one only. -/
def Replay.offer (r : Replay) (value : Observation EpochPart) (display : DisplayRow) :
    Except PyError Replay := do
  let raw := r.raw.filter (·.1 ≠ value.sequence) ++ [(value.sequence, display)]
  let (accepted, state) ← r.state.observe value
  if !accepted then
    let (_, raw) ← pop raw value.sequence
    Replay.finishGroups { r with state, raw }
  else if r.state.replaces value then
    let (row, _) ← pop raw value.sequence
    Replay.finishGroups { r with state, raw := [(value.sequence, row)] }
  else Replay.finishGroups { r with state, raw }

/-- The loop body after `apply_controls`. -/
def Replay.consume (r : Replay) (previous : Option Separate) (row : Row) :
    Except PyError (Replay × Option Separate) := do
  let q ← row.quota
  match q.reading with
  | none => return (r, previous)
  | some (account, window, reset) =>
    let separate := separateOf previous q.separateModels
    let value := observationOf row q account window reset separate.2.1
    let r := { r with lastObservedAt := some row.received }
    if !r.monitoring || decide (value.requestedAt < r.enabledAt) then
      return (r, some separate)
    else
      let r ← r.offer value (displayOf row q account window reset separate.2.2)
      return (r, some separate)

def replayRows : List Row → List Control → Option Separate → Replay →
    Except PyError (Replay × List Control)
  | [], controls, _, r => .ok (r, controls)
  | row :: rows, controls, previous, r => do
    let (r, controls) ← applyControls row.received controls r
    let (r, previous) ← r.consume previous row
    replayRows rows controls previous r

/-- The loop and the controls up to `now` that follow the last row. -/
def replayUntil (now : PyFloat) (rows : List Row) (controls : List Control) (r : Replay) :
    Except PyError Replay := do
  let (r, controls) ← replayRows rows controls none r
  let (r, _) ← applyControls now controls r
  return r

/-! ## `build` -/

/-- What a build leaves in `replay_cache`. -/
structure Checkpoint where
  home : PyStr
  started : PyFloat
  atTime : PyFloat
  replay : Replay

/-- One entry of the change report: a table and the time of the changed row. -/
structure Change where
  table : PyStr
  atTime : Option PyFloat

/-- A change that a checkpoint at `time` cannot absorb. -/
def Change.stale (time : PyFloat) (c : Change) : Bool :=
  c.table = py "tracking_config" || c.table = py "tracking_policies" ||
    c.table = py "tracking_controls" ||
    c.table = py "tracking_observations" && c.atTime.all (· ≤ time)

def Checkpoint.usable (cp : Checkpoint) (home : PyStr) (started now : PyFloat)
    (changes : List Change) : Bool :=
  cp.home = home && cp.started = started && !decide (now < cp.atTime) &&
    !changes.any (Change.stale cp.atTime)

/-- The part of a build's result the replay determines. -/
structure Built where
  groups : List Group
  enabled : Bool
  lastObservedAt : Option PyFloat
deriving DecidableEq

def replayCacheBytes : Nat := 64 * 1024 * 1024

/-- The retained size of the open segment's rows. -/
def rawWeight (raw : List (Int × DisplayRow)) : Nat :=
  (raw.map fun (_, row) => 768 + 4 * (row.id.length + row.account.length + row.plan.length +
    row.bucket.length + row.separate.length + row.source.length)).sum

section

-- Number and total size of a group's compressed blocks.
variable (packed : List DisplayRow → Nat × Nat)

def Replay.weight (r : Replay) : Nat :=
  (r.groups.map fun g => 512 + 128 * (packed g.observations).1 + (packed g.observations).2).sum +
    rawWeight r.raw

def Replay.display (r : Replay) : Except PyError Replay :=
  if r.state.baseline.isSome && r.state.endpoint.isSome then
    Replay.finishGroups { r with state := r.state.close .on false }
  else .ok r

/-- The replay of a build: resumed from a usable checkpoint, over the rows and
controls after it, or from the start. -/
def replayFrom (db : Db) (home : PyStr) (started now : PyFloat) (cache : Option Checkpoint) :
    Except PyError Replay :=
  match cache with
  | some cp => replayUntil now
      ((db.rows home started now).filter fun r => decide (cp.atTime < r.received))
      ((db.controlRows home started now).filter fun c => decide (cp.atTime < c.atTime))
      { cp.replay with state := { cp.replay.state with closed := [] } }
  | none => replayUntil now (db.rows home started now) (db.controlRows home started now)
      { state := { activatedAt := started }, enabledAt := started }

/-- `build(db, home, now, pack_groups=True, replay_cache=…, changes=…)`: the
result and the checkpoint left in the cache.  Without a configuration there is
no result; without the current policy it is an empty one and the cache is not
touched. -/
def build (db : Db) (home : PyStr) (now : PyFloat) (cache : Option Checkpoint)
    (changes : List Change) : Except PyError (Option Built × Option Checkpoint) :=
  match db.config home, db.policy home with
  | none, _ => .ok (none, cache)
  | some _, none => .ok (some ⟨[], false, none⟩, cache)
  | some _, some started => do
    let r ← replayFrom db home started now (cache.filter (·.usable home started now changes))
    let checkpoint := if r.weight packed ≤ replayCacheBytes then
        some ⟨home, started, now, { r with state := { r.state with closed := [] } }⟩
      else none
    let shown ← r.display
    return (some ⟨shown.groups, shown.monitoring, shown.lastObservedAt⟩, checkpoint)

end

end Codexon.TrackingStore
