import Codexon.QuotaWindows
import Codexon.Ranges

/-!
# Codexon.RequestIntervals

`local_request_intervals` of `cachemonitor/quota_attribution.py`: the intervals between observed
ends in which local requests were priced.
-/

namespace Codexon.RequestIntervals

open QuotaClip (Endpoint CostRow Cycle)

/-- A request of the local record; it may not be done yet. -/
structure Window where
  uid : PyStr
  start : Option ℚ := none
  stop : Option ℚ := none

/-- From one observed end to another, by their indices. -/
abbrev Span := Nat × Nat

/-- What is not in the intervals. -/
structure Diagnostics where
  idleDelta : ℚ := 0
  pendingDelta : ℚ := 0
  unmatchedCalls : Nat := 0
  pendingWindows : Nat := 0

/-- `bounds`: from the end before a request to one or two ends after it. -/
def bounds (times : List ℚ) (start stop : Option ℚ) (pending : Bool) : Option Span :=
  match times.head?, times.getLast?, start.or stop with
  | some first, some last, some start =>
    let stop := stop.getD last
    if stop < start then none
    else if stop < first ∨ last < start then none
    else
      let lo := bisectLeft times start
      let hi := bisectLeft times stop
      if !pending && (lo = 0 || times.length ≤ hi) then none
      else
        let lo := lo - 1
        let hi := min (times.length - 1) (hi + 1)
        if lo < hi then some (lo, hi) else none
  | _, _, _ => none

def requestStart (row : CostRow) : Option ℚ := row.localRequestStart.getD row.requestStart

/-- The spans that the loops find, and the priced rows by their indices. -/
structure Evidence where
  blocked : List Span := []
  candidates : List (Span × Nat) := []
  allRanges : List Span := []

/-- The body of the loop over the rows that count. -/
def Evidence.addRow (times : List ℚ) (e : Evidence) (entry : CostRow × Nat) : Evidence :=
  let (row, index) := entry
  match bounds times (requestStart row) (some row.ts) false with
  | some span =>
    if row.cost.isSome then
      { e with
        allRanges := e.allRanges ++ [span]
        candidates := e.candidates ++ [(span, index)] }
    else { e with allRanges := e.allRanges ++ [span], blocked := e.blocked ++ [span] }
  | none =>
    match bounds times (requestStart row) (some row.ts) true with
    | some span => { e with blocked := e.blocked ++ [span], allRanges := e.allRanges ++ [span] }
    | none => e

def Evidence.addRequest (times : List ℚ) (known : List PyStr) (e : Evidence) (request : Window) :
    Evidence :=
  if request.uid ∈ known then e
  else
    match bounds times request.start request.stop true with
    | some span => { e with blocked := e.blocked ++ [span], allRanges := e.allRanges ++ [span] }
    | none => e

def knownIds (cycle : Cycle) : List PyStr :=
  (cycle.costRows.filter fun r => r.uid ≠ [] ∧
    (r.cost.isSome ∨ QuotaClip.aliased r.model ∈ cycle.separateModels)).map (·.uid)

def overlaps (blocked : List Span) (span : Span) : Bool :=
  let position := bisectRight (blocked.map Prod.snd) span.1
  (blocked[position]?).any fun b => b.1 < span.2

/-- A candidate that another request blocks does without the second end after it. -/
def shortened (times : List ℚ) (blocked : List Span) (span : Span) (ts : ℚ) : Span :=
  if overlaps blocked span then
    let firstPost := bisectLeft times ts
    if span.1 < firstPost ∧ firstPost < span.2 ∧ !overlaps blocked (span.1, firstPost) then
      (span.1, firstPost)
    else span
  else span

def deltaOf (points : List Endpoint) (spans : List Span) : ℚ :=
  (spans.map fun span => max 0 ((points.getD span.2 (0, 0)).2 - (points.getD span.1 (0, 0)).2)).sum

def times (cycle : Cycle) : List ℚ := cycle.endpoints.map Prod.fst

def eligible (cycle : Cycle) : List CostRow := cycle.eligible cycle.costRows

/-- What the loops find. -/
def evidence (cycle : Cycle) (requests : List Window) : Evidence :=
  requests.foldl (Evidence.addRequest (times cycle) (knownIds cycle))
    ((eligible cycle).zipIdx.foldl (Evidence.addRow (times cycle)) {})

def accepted (cycle : Cycle) (requests : List Window) : List (Span × Nat) :=
  let blocked := Ranges.merge (evidence cycle requests).blocked
  (evidence cycle requests).candidates.map fun candidate =>
    match (eligible cycle)[candidate.2]? with
    | some row => (shortened (times cycle) blocked candidate.1 row.ts, candidate.2)
    | none => candidate

def selected (cycle : Cycle) (requests : List Window) : List CostRow :=
  let included := (accepted cycle requests).map Prod.snd
  ((eligible cycle).zipIdx.filter fun entry => entry.2 ∈ included).map fun entry =>
    { entry.1 with requestStart := requestStart entry.1 }

def ranges (cycle : Cycle) (requests : List Window) : List Span :=
  Ranges.merge ((accepted cycle requests).map Prod.fst)

def source (cycle : Cycle) (requests : List Window) : Cycle :=
  { cycle with
    costRows := selected cycle requests
    pendingUsageTimes := []
    pendingUsageCalls := 0
    modeStandardCost := none }

/-- `clipper`: `_clip_quota_interval`, or the index that is prepared for it. -/
def clipper (prepared : Bool) (source : Cycle) (lo hi : ℚ) : Option Cycle :=
  if prepared then QuotaWindows.clipThrough source lo hi
  else QuotaClip.clip source (some lo) (some hi)

/-- The interval of a merged span; `text` writes a time. -/
def part (text : ℚ → PyStr) (prepared : Bool) (cycle : Cycle) (requests : List Window)
    (range : Span) : Option Cycle :=
  let lo := (times cycle).getD range.1 0
  let hi := (times cycle).getD range.2 0
  match clipper prepared (source cycle requests) lo hi with
  | some part =>
    if part.pricedCalls ≠ 0 then
      some { part with
        id := cycle.id ++ py ":local:" ++ text lo
        provisional := range.2 = (times cycle).length - 1 && cycle.provisional }
    else none
  | none => none

def localRequestIntervals (text : ℚ → PyStr) (prepared : Bool) (cycle : Cycle)
    (requests : List Window) : List Cycle × Diagnostics :=
  if cycle.endpoints.length < 2 then ([], {})
  else
    let available := deltaOf cycle.endpoints (Ranges.merge (evidence cycle requests).allRanges)
    let used := deltaOf cycle.endpoints (ranges cycle requests)
    ((ranges cycle requests).filterMap (part text prepared cycle requests), {
      idleDelta := max 0 (cycle.delta - available)
      pendingDelta := max 0 (available - used)
      unmatchedCalls := (eligible cycle).length - (selected cycle requests).length
      pendingWindows := (Ranges.merge (evidence cycle requests).blocked).length })

end Codexon.RequestIntervals
