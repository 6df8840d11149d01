import Codexon.QuotaPeriods

/-!
# Codexon.QuotaPeriods.Groups

`_history_groups` of `cachemonitor/quota_view.py`: the periods of the weekly rows, with the
closed periods of the history before where its blocks are shared.

Whether two blocks or two histories are the same object is a parameter of each call.
-/

namespace Codexon.QuotaPeriods

open PackedRows

def historyGroupCacheBytes : Nat := 16 * 1024 * 1024

def historyGroupCacheCount : Nat := 4096

/-- The rows of a period. -/
structure Group where
  start : ℚ
  resetKind : Option ResetKind
  isPartial : Bool
  rows : List Row

/-- What is kept of a classified period. -/
structure Entry (δ : Type) where
  start : ℚ
  resetKind : Option ResetKind
  isPartial : Bool
  lastAt : ℚ
  state : Checkpoint
  signature : δ
  matchesAccount : Bool
  times : List ℚ
  flags : List Nat

/-- What the periods depend on beside the rows. -/
structure Context where
  account : Option PyStr
  groupAccount : PyStr
  controls : List Control
  cycleClears : List Edit
  observed : Bool

/-- `pickle` and `sys.getsizeof`, of contexts, groups and entries. -/
structure Pickles (δ : Type) where
  dumpsContext : Context → Bytes
  dumpsGroup : Group → Bytes
  size : Entry δ → Nat

/-- `_history_groups` of a view. -/
structure GroupCache (δ : Type) where
  context : δ
  source : Packed ℚ
  groups : Option (List (Entry δ)) := some []
  weight : Nat := 0
  last : Option (Entry δ) := none

/-- The relation `is` on blocks and on histories. -/
structure SameObject where
  block : Bytes → Bytes → Bool
  history : Packed ℚ → Packed ℚ → Bool

variable {δ : Type} (enc : Encoding Record δ) (pickles : Pickles δ) (report : Report)

/-! ## periods -/

/-- `account`, for which the first one of a cycle stands in. -/
def Report.groupAccount : PyStr :=
  (([report.account] ++ report.cycleAccounts).find? named).join.getD []

def Report.context : Context where
  account := report.account
  groupAccount := report.groupAccount
  controls := report.controls
  cycleClears := report.cycleClears
  observed := report.observed enc .weekly

/-- A period begins. -/
def Yield.opens (y : Yield) : Group × Checkpoint :=
  ({ start := y.row.record.time
     resetKind := y.row.resetKind
     isPartial := y.row.resetKind.isNone
     rows := [y.row] }, y.value)

/-- The loop that cuts the rows into periods, each with the checkpoint of its first row. -/
def collect (current : Option (Group × Checkpoint)) : List Yield → List (Group × Checkpoint)
  | [] => current.toList
  | y :: rest =>
    match current with
    | none => collect (some y.opens) rest
    | some (group, state) =>
      if y.row.resetKind.isSome then (group, state) :: collect (some y.opens) rest
      else collect (some ({ group with rows := group.rows ++ [y.row] }, state)) rest

def finished (account : PyStr) (closed : Group × Checkpoint) : Entry δ :=
  let group := closed.1
  { start := group.start
    resetKind := group.resetKind
    isPartial := group.isPartial
    lastAt := (group.rows.getLast?.map fun row => row.record.time).getD group.start
    state := closed.2
    signature := enc.sha256 (pickles.dumpsGroup group)
    matchesAccount := group.rows.any fun row => account = [] || row.record.account = some account
    times := group.rows.map fun row => row.record.time
    flags := group.rows.map fun row => row.connect.toNat + 2 * row.trackingContinuous.toNat }

def Report.entriesFrom (resume : Option Checkpoint) : List (Entry δ) :=
  (collect none (historyRows enc report .weekly none none resume)).map
    (finished enc pickles report.groupAccount)

/-! ## rows of a period -/

/-- The loop of `_history_rows` with a classification: the times and flags that are left, and
the kind of a first row. -/
def replay (kind : Option ResetKind) : List (ℚ × Nat) → List Record → Except PyError (List Row)
  | [], _ => .ok []
  | _, [] => .ok []
  | (t, flags) :: marks, r :: rest =>
    if r.time ≠ t then replay kind ((t, flags) :: marks) rest
    else
      match r.used with
      | none => .error .typeError
      | some used => do
        let row := {
          record := r
          remaining := used.hundredMinus
          resetKind := kind
          connect := decide (flags % 2 = 1)
          trackingContinuous := decide (flags / 2 % 2 = 1) }
        return row :: (← replay none marks rest)

def Report.period (entry : Entry δ) : Report where
  account := report.account
  controls := report.controls
  cycleClears := report.cycleClears
  history := report.history.rangeBlocks entry.start entry.lastAt

/-- `_PeriodHistory.__iter__`. -/
def Report.periodRows (entry : Entry δ) : Except PyError (List Row) :=
  replay entry.resetKind (entry.times.zip entry.flags)
    (preferred none ((report.period entry).candidates enc .weekly (some entry.state.1)))

/-- What is yielded of a period; its rows are read when they are asked for. -/
structure Period (δ : Type) where
  start : ℚ
  resetKind : Option ResetKind
  isPartial : Bool
  lastAt : ℚ
  signature : δ
  matchesAccount : Bool
  times : List ℚ
  rows : Except PyError (List Row)

def Report.saved (entry : Entry δ) : Period δ where
  start := entry.start
  resetKind := entry.resetKind
  isPartial := entry.isPartial
  lastAt := entry.lastAt
  signature := entry.signature
  matchesAccount := entry.matchesAccount
  times := entry.times
  rows := report.periodRows enc entry

/-! ## reuse -/

/-- `remember`: beyond its limits the cache keeps no entries. -/
def GroupCache.remember (cache : GroupCache δ) (entry : Entry δ) : GroupCache δ :=
  match cache.groups with
  | none => { cache with last := some entry }
  | some groups =>
    let weight := pickles.size entry
    if historyGroupCacheCount ≤ groups.length ∨
        historyGroupCacheBytes < cache.weight + weight then
      { cache with last := some entry, groups := none, weight := 0 }
    else
      { cache with
        last := some entry
        groups := some (groups ++ [entry])
        weight := cache.weight + weight }

def SameObject.common (same : SameObject) (old new : List Bytes) : Nat :=
  ((old.zip new).takeWhile fun pair => same.block pair.1 pair.2).length

/-- `reuse`, of the entries of `old`; every block has its end in `time_ends`. -/
def reuseCount (same : SameObject) (source : Packed ℚ) (groups : List (Entry δ))
    (history : Packed ℚ) : Nat :=
  if same.history source history then groups.length
  else
    let common := same.common source.blocks history.blocks
    if common = 0 then 0
    else
      match source.timeEnds[common - 1]? with
      | none => 0
      | some changedAt =>
        let starts := groups.map Entry.start
        (min (starts.length - 1 : Int) (bisectLeft starts changedAt - 1)).toNat

variable [DecidableEq δ]

/-- The entries of the view before, when they are of the same context. -/
def Report.reusable (previous : Option (GroupCache δ)) : Option (Packed ℚ × List (Entry δ)) := do
  let prior ← previous
  let groups ← prior.groups
  if prior.context = enc.sha256 (pickles.dumpsContext (report.context enc)) then
    return (prior.source, groups)
  else none

/-- The entries that `source` yields. -/
def Report.entries (same : SameObject) (previous : Option (GroupCache δ)) : List (Entry δ) :=
  match report.reusable enc pickles previous with
  | none => report.entriesFrom enc pickles report.historyResume
  | some (source, groups) =>
    let reuse := reuseCount same source groups report.history
    groups.take reuse ++
      if same.history source report.history then []
      else
        let resume :=
          if reuse = 0 then report.historyResume else groups[reuse]?.map Entry.state
        report.entriesFrom enc pickles resume

/-- `_history_groups`: the periods, and the cache once they are read. -/
def historyGroups (same : SameObject) (previous : Option (GroupCache δ)) :
    List (Period δ) × GroupCache δ :=
  let entries := report.entries enc pickles same previous
  (entries.map (report.saved enc),
    entries.foldl (GroupCache.remember pickles) {
      context := enc.sha256 (pickles.dumpsContext (report.context enc))
      source := report.history })

end Codexon.QuotaPeriods
