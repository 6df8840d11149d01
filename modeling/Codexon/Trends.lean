import Codexon.Keyed
import Codexon.Native
import Codexon.Slots
import Codexon.Statistics

/-!
# Codexon.Trends

The samples of a performance trend: where `PerformanceTrends.build` of
`cachemonitor/performance_trends.py` samples calls, and `trend_samples` of `trends.rs` in the
extension.

Numbers are exact, so every number is finite.  The extension reads numbers as doubles, and gives up
with an `OverflowError` when the integers that it reads could not all be exact.
-/

namespace Codexon.Trends

/-! ## calls -/

/-- A number of Python, and whether it is an `int`. -/
structure Num where
  value : ℚ
  integer : Bool := false
deriving DecidableEq

/-- An item of a row. -/
inductive Value where
  | number (n : Num)
  | other
deriving DecidableEq

/-- The items of a row that are measured. -/
inductive Field where
  | duration
  | outputSpeed
  | cost
  | sessionCache
  | input
  | cached
  | output
  | completionLatency
  | reasoning
  | count
deriving DecidableEq

/-- `METRICS`, the reasoning of an effort, and the number of calls. -/
inductive Metric where
  | duration
  | outputSpeed
  | cost
  | sessionCache
  | input
  | reasoning (effort : PyStr)
  | count
deriving DecidableEq

namespace Metric

/-- `'reasoning' if metric.startswith('reasoning:') else metric` -/
def field : Metric → Field
  | duration => .duration
  | outputSpeed => .outputSpeed
  | cost => .cost
  | sessionCache => .sessionCache
  | input => .input
  | reasoning _ => .reasoning
  | count => .count

/-- `metric.split(':',1)[1] if metric.startswith('reasoning:') else None` -/
def effort : Metric → Option PyStr
  | reasoning effort => some effort
  | _ => none

/-- `metric not in ('session_cache','count')` -/
def sampled : Metric → Bool
  | sessionCache | count => false
  | _ => true

end Metric

/-- `{k:r.get(k) for k in ('home','sid','key','turn')}` -/
structure Record where
  home : PyStr := []
  sid : PyStr := []
  key : Option PyStr := none
  turn : Option PyStr := none
deriving DecidableEq

/-- A row of a call. -/
structure Row where
  ts : ℚ
  model : Option PyStr := none
  serviceTier : Option PyStr := none
  effort : Option PyStr := none
  record : Record := {}
  inputConflict : Bool := false
  items : Dict Field Value := {}
deriving DecidableEq

/-- `미확인` -/
def unknown : PyStr := py "미확인"

/-- `text or '미확인'` -/
def label (text : Option PyStr) : PyStr := if text.getD [] = [] then unknown else text.getD []

def valid (value : Option Value) : Option Num :=
  match value with
  | some (.number n) => if 0 ≤ n.value then some n else none
  | _ => none

/-- The range that is shown, and its columns. -/
structure View where
  start : ℚ
  stop : ℚ
  width : Nat
deriving DecidableEq

namespace View

/-- `start <= ts <= end` -/
def shows (view : View) (ts : ℚ) : Bool := view.start ≤ ts && ts ≤ view.stop

/-- `(ts - start) / (end - start) * width` -/
def position (view : View) (ts : ℚ) : ℚ := (ts - view.start) / (view.stop - view.start) * view.width

end View

/-- Model, mode and effort. -/
abbrev Scope := PyStr × PyStr × PyStr

/-- Model, mode and column. -/
abbrev Pixel := PyStr × PyStr × Nat

/-- The calls that a call is compared with: `deque(maxlen=50)`. -/
def limit : Nat := 50

/-! ## Python -/

/-- `비교 기록 부족`, `진행 중인 구간`, `평소 범위 이탈` and `평소 범위` -/
inductive Status where
  | scarce
  | ongoing
  | outside
  | usual
deriving DecidableEq

structure Verdict where
  baseline : Option ℚ := none
  delta : Option ℚ := none
  baselineCount : Nat
  direction : Int := 0
  status : Status := .scarce
deriving DecidableEq

def assessment (value : ℚ) (previous : List ℚ) (cache complete : Bool) : Verdict :=
  let n := previous.length
  if !complete then { baselineCount := n, status := .ongoing }
  else if n < 10 then { baselineCount := n }
  else
    let center := Statistics.median previous
    let mad := Statistics.median (previous.map fun x => |x - center|)
    let delta := value - center
    let abnormal := 35 / 10 * (14826 / 10000) * mad < |delta| ∧
      (if cache then 10 else |center| * (2 / 10)) < |delta|
    { baseline := some center
      delta := some delta
      baselineCount := n
      direction := if abnormal then (if 0 < delta then 1 else -1) else 0
      status := if abnormal then .outside else .usual }

/-- A point; `row` is the call that it is made of, and tells objects apart. -/
structure Point where
  row : Nat
  ts : ℚ
  value : Num
  model : PyStr
  serviceTier : PyStr
  effort : PyStr
  record : Record
  verdict : Verdict
  count : Option Nat := none
deriving DecidableEq

def Row.point (row : Row) (index : Nat) (value : Num) (verdict : Verdict) : Point where
  row := index
  ts := row.ts
  value := value
  model := label row.model
  serviceTier := label row.serviceTier
  effort := label row.effort
  record := row.record
  verdict := verdict

/-- The points of a column. -/
structure Cell where
  first : Point
  low : Point
  high : Point
  last : Point
  anomalies : List Point := []

def Cell.of (p : Point) : Cell := { first := p, low := p, high := p, last := p }

def Cell.add (cell : Cell) (p : Point) : Cell where
  first := cell.first
  low := if p.value.value < cell.low.value.value then p else cell.low
  high := if cell.high.value.value < p.value.value then p else cell.high
  last := p
  anomalies := if p.verdict.direction = 0 then cell.anomalies else cell.anomalies ++ [p]

/-- The variables of the loop over the rows. -/
structure Sampling where
  pools : Dict Scope (List ℚ) := {}
  pending : Dict Scope (ℚ × List ℚ) := {}
  pixels : Dict Pixel Cell := {}
  n : Nat := 0
  total : Nat := 0
  bounds : List ℚ := []

namespace Sampling

def pool (s : Sampling) (scope : Scope) : List ℚ := (s.pools.get? scope).getD []

/-- What is pending from before `ts` becomes part of the pool. -/
def settle (s : Sampling) (scope : Scope) (ts : ℚ) : Sampling :=
  match s.pending.get? scope with
  | some prior =>
    if prior.1 < ts then
      { s with
        pools := s.pools.set scope ((s.pool scope ++ prior.2).rtake limit)
        pending := s.pending.erase scope }
    else { s with pools := s.pools.set scope (s.pool scope) }
  | none => { s with pools := s.pools.set scope (s.pool scope) }

/-- `pending.setdefault(scope,(ts,[]))[1].append(value)` -/
def pend (s : Sampling) (scope : Scope) (ts value : ℚ) : Sampling :=
  let prior := (s.pending.get? scope).getD (ts, [])
  { s with pending := s.pending.set scope (prior.1, prior.2 ++ [value]) }

def plot (s : Sampling) (view : View) (p : Point) : Sampling :=
  let position := view.position p.ts
  let column := min ((view.width : Int) - 1) (max 0 (position.num.tdiv position.den))
  let key := (p.model, p.serviceTier, column.toNat)
  { s with
    n := s.n + 1
    bounds := s.bounds ++ [p.value.value]
    pixels := s.pixels.set key (((s.pixels.get? key).getD (.of p)).add p) }

def add (s : Sampling) (metric : Metric) (view : View) (index : Nat) (row : Row)
    (value : Option Value) (complete : Bool) : Sampling :=
  match valid value with
  | none => s
  | some value =>
    let effort := if metric.sampled then label row.effort else []
    let scope := (label row.model, label row.serviceTier, effort)
    let s := s.settle scope row.ts
    let verdict := assessment value.value (s.pool scope) (metric = .sessionCache) complete
    let s := if complete then s.pend scope row.ts value.value else s
    if view.shows row.ts then s.plot view (row.point index value verdict) else s

/-- The body of the loop over the rows. -/
def step (s : Sampling) (metric : Metric) (view : View) (index : Nat) (row : Row) : Sampling :=
  if metric.effort.any (label row.effort ≠ ·) then s
  else
    let s := if view.shows row.ts then { s with total := s.total + 1 } else s
    s.add metric view index row (row.items.get? metric.field) true

def loop (metric : Metric) (view : View) : Nat → List Row → Sampling → Sampling
  | _, [], s => s
  | index, row :: rows, s => loop metric view (index + 1) rows (s.step metric view index row)

end Sampling

/-- `{id(p): p for p in points}.values()` -/
def unique (points : List Point) : List Point :=
  points.foldl (fun seen p => if p.row ∈ seen.map Point.row then seen else seen ++ [p]) []

def Cell.anomaly (cell : Cell) (direction : Int) : Option Point :=
  let points := cell.anomalies.filter (·.verdict.direction = direction)
  points.head?.map fun p => { p with count := some points.length }

def Cell.samples (cell : Cell) : List Point :=
  unique [cell.first, cell.low, cell.high, cell.last] ++ (cell.anomaly (-1)).toList ++
    (cell.anomaly 1).toList

/-- The parts of a panel that samples decide. -/
structure Panel where
  n : Nat
  total : Nat
  points : List Point
  low : ℚ
  high : ℚ
deriving DecidableEq

def Panel.of (n total : Nat) (samples : List Point) (bounds : List ℚ) : Panel where
  n := n
  total := total
  points := Keyed.sort Point.ts samples
  low := bounds.min?.getD 0
  high := bounds.max?.getD 1

def panelPython (metric : Metric) (view : View) (rows : List Row) : Panel :=
  let s := Sampling.loop metric view 0 rows {}
  Panel.of s.n s.total (s.pixels.entries.flatMap fun e => e.2.samples) s.bounds

/-! ## the extension -/

abbrev Reading := StateT ℚ (Except PyError)

def largestExact : ℚ := 9007199254740991

def number (row : Row) (field : Field) : Reading (Option ℚ) :=
  match row.items.get? field with
  | some (.number n) => do
    if n.integer then
      modify (· + |n.value|)
      if largestExact < (← get) then throw .overflowError
    pure (if 0 ≤ n.value then some n.value else none)
  | _ => pure none

def text (text : Option PyStr) : Reading PyStr :=
  match text with
  | some text => if text ≠ [] then Native.extractText text else pure unknown
  | none => pure unknown

structure Observation where
  row : Nat
  at_ : ℚ
  value : ℚ
  scope : Scope
deriving DecidableEq

def observe (field : Field) (index : Nat) (row : Row) (effort : PyStr) :
    Reading (List Observation) := do
  match ← number row field with
  | none => pure []
  | some value =>
    let model ← text row.model
    let tier ← text row.serviceTier
    pure [{ row := index, at_ := row.ts, value := value, scope := (model, tier, effort) }]

def observeRows (field : Field) (view : View) (effort : Option PyStr) :
    Nat → List Row → Reading (Nat × List Observation)
  | _, [] => pure (0, [])
  | index, row :: rows => do
    let own ← text row.effort
    if effort.any (· ≠ own) then observeRows field view effort (index + 1) rows
    else
      let found ← observe field index row own
      let (total, observations) ← observeRows field view effort (index + 1) rows
      pure ((if view.shows row.ts then 1 else 0) + total, found ++ observations)

structure Sample where
  row : Nat
  value : ℚ
  baseline : Option ℚ
  delta : Option ℚ
  previous : Nat
  direction : Int

structure History where
  values : List ℚ := []
  pendingAt : Option ℚ := none
  pending : List ℚ := []

/-- What is pending from before `at_` becomes part of the values. -/
def History.settle (h : History) (at_ : ℚ) : History :=
  if h.pendingAt.any (· < at_) then
    { values := h.pending.foldl (Statistics.push limit) h.values }
  else h

/-- `history.pending_at.get_or_insert(at)`, and the value. -/
def History.pend (h : History) (at_ value : ℚ) : History :=
  { h with pendingAt := some (h.pendingAt.getD at_), pending := h.pending ++ [value] }

def History.sample (h : History) (row : Nat) (value : ℚ) : Sample :=
  if 10 ≤ h.values.length then
    let values := Statistics.ordered h.values
    let center := Statistics.middle values
    let deviation := Statistics.median (values.map fun x => |x - center|)
    let delta := value - center
    let abnormal := 35 / 10 * (14826 / 10000) * deviation < |delta| ∧
      |center| * (2 / 10) < |delta|
    { row := row
      value := value
      baseline := some center
      delta := some delta
      previous := h.values.length
      direction := if abnormal then (if 0 < delta then 1 else -1) else 0 }
  else
    { row := row
      value := value
      baseline := none
      delta := none
      previous := h.values.length
      direction := 0 }

/-- `Cell` of the extension. -/
structure Column where
  first : Sample
  low : Sample
  high : Sample
  last : Sample
  negative : Option (Sample × Nat) := none
  positive : Option (Sample × Nat) := none

def Column.of (s : Sample) : Column := { first := s, low := s, high := s, last := s }

def another (anomaly : Option (Sample × Nat)) (s : Sample) : Option (Sample × Nat) :=
  match anomaly with
  | some (first, count) => some (first, count + 1)
  | none => some (s, 1)

def Column.add (c : Column) (s : Sample) : Column where
  first := c.first
  low := if s.value < c.low.value then s else c.low
  high := if c.high.value < s.value then s else c.high
  last := s
  negative := if s.direction < 0 then another c.negative s else c.negative
  positive := if 0 < s.direction then another c.positive s else c.positive

/-- The variables of the loop over the observations; infinite bounds are missing. -/
structure Sweep where
  histories : Dict Scope History := {}
  cells : Slots Pixel Column := {}
  count : Nat := 0
  minimum : Option ℚ := none
  maximum : Option ℚ := none

def Sweep.plot (w : Sweep) (view : View) (o : Observation) (s : Sample) : Sweep :=
  let pixel := min ⌊view.position o.at_⌋.toNat (view.width - 1)
  { w with
    count := w.count + 1
    minimum := some (w.minimum.elim s.value fun m => min m s.value)
    maximum := some (w.maximum.elim s.value fun m => max m s.value)
    cells := w.cells.upsert (o.scope.1, o.scope.2.1, pixel) (.of s) (·.add s) }

def Sweep.add (view : View) (w : Sweep) (o : Observation) : Sweep :=
  let history := ((w.histories.get? o.scope).getD {}).settle o.at_
  let sample := history.sample o.row o.value
  let w := { w with histories := w.histories.set o.scope (history.pend o.at_ o.value) }
  if o.at_ < view.start ∨ view.stop < o.at_ then w else w.plot view o sample

structure SampleOutput where
  row : Nat
  baseline : Option ℚ
  delta : Option ℚ
  previous : Nat
  direction : Int
  count : Option Nat

def Sample.output (s : Sample) (count : Option Nat) : SampleOutput where
  row := s.row
  baseline := s.baseline
  delta := s.delta
  previous := s.previous
  direction := s.direction
  count := count

def unseen (samples : List Sample) : List Sample :=
  samples.foldl (fun seen s => if s.row ∈ seen.map Sample.row then seen else seen ++ [s]) []

def Column.samples (c : Column) : List SampleOutput :=
  (unseen [c.first, c.low, c.high, c.last]).map (·.output none) ++
    (c.negative.toList ++ c.positive.toList).map fun anomaly => anomaly.1.output (some anomaly.2)

structure SampleBatch where
  selected : List SampleOutput
  count : Nat
  total : Nat
  minimum : ℚ
  maximum : ℚ

def trendSamples (rows : List Row) (field : Field) (view : View) (effort : Option PyStr) :
    Except PyError SampleBatch := do
  if view.width = 0 ∨ view.stop ≤ view.start then throw .valueError
  let (total, observations) ← (observeRows field view effort 0 rows).run' 0
  let w := observations.foldl (Sweep.add view) {}
  return {
    selected := w.cells.cells.flatMap Column.samples
    count := w.count
    total := total
    minimum := if w.count = 0 then 0 else w.minimum.getD 0
    maximum := if w.count = 0 then 1 else w.maximum.getD 0 }

/-! ## with the extension -/

def SampleOutput.status (s : SampleOutput) : Status :=
  if s.previous < 10 then .scarce else if s.direction ≠ 0 then .outside else .usual

def restore (rows : List Row) (field : Field) (s : SampleOutput) : Except PyError Point := do
  let row ← item rows s.row
  match row.items.get? field with
  | some (.number value) =>
    let verdict := {
      baseline := s.baseline
      delta := s.delta
      baselineCount := s.previous
      direction := s.direction
      status := s.status }
    return { row.point s.row value verdict with count := s.count }
  | some .other => throw .typeError
  | none => throw .keyError

def panelNative (metric : Metric) (rows : List Row) (batch : SampleBatch) :
    Except PyError Panel := do
  let points ← batch.selected.mapM (restore rows metric.field)
  let bounds := if batch.count = 0 then [] else [batch.minimum, batch.maximum]
  return Panel.of batch.count batch.total points bounds

/-- The part of `build` that samples calls, with and without the extension. -/
def panel (native : Bool) (metric : Metric) (view : View) (rows : List Row) :
    Except PyError Panel :=
  if native then
    match trendSamples rows metric.field view metric.effort with
    | .ok batch => panelNative metric rows batch
    | .error .overflowError => .ok (panelPython metric view rows)
    | .error e => .error e
  else .ok (panelPython metric view rows)

end Codexon.Trends
