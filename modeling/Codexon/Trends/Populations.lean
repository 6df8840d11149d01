import Codexon.Trends.Reading

/-!
# Codexon.Trends.Populations

The populations of a rolling trend: `build_rolling` of `cachemonitor/performance_trends.py` for the
calls of one model and mode, and `trend_populations` of `trends.rs`.
-/

namespace Codexon.Trends

/-- `(row['home'], row['sid'])` -/
def Row.session (row : Row) : PyStr × PyStr := (row.record.home, row.record.sid)

def Row.number (row : Row) (field : Field) : Option ℚ :=
  (valid (row.items.get? field)).map Num.value

/-- The ends of a window, and of its middle part, among the calls. -/
structure Window where
  left : Nat
  right : Nat
  supportLeft : Nat
  supportRight : Nat
deriving DecidableEq

/-- `own[left:right]` -/
def slice {α : Type} (xs : List α) (left right : Nat) : List α := (xs.take right).drop left

structure Distribution where
  median : Option ℚ
  q1 : Option ℚ
  q3 : Option ℚ
  p10 : Option ℚ
  p90 : Option ℚ
  minimum : Option ℚ
  maximum : Option ℚ
deriving DecidableEq

inductive Totals where
  | sum (sum : ℚ)
  | cache (input cached : ℚ) (validCalls : Nat)
  | speed (output seconds : ℚ)
deriving DecidableEq

/-- What a point of a trend shows of the calls in its window. -/
structure Population where
  eligible : Nat
  total : Nat
  totals : Totals
  distribution : Distribution
  mean : Option ℚ
  support : Bool
  sessions : Nat
deriving DecidableEq

/-- The calls of a model and mode: all of them, with their least and greatest value, and those of
each window. -/
structure Group where
  eligible : Nat
  total : Nat
  low : Option ℚ
  high : Option ℚ
  populations : List Population
deriving DecidableEq

/-! ## Python -/

/-- The input, the cached input and the calls of a session. -/
structure Cache where
  input : ℚ := 0
  cached : ℚ := 0
  calls : Nat := 0
deriving DecidableEq

def Cache.add (c : Cache) (input cached : ℚ) : Cache where
  input := c.input + input
  cached := c.cached + cached
  calls := c.calls + 1

/-- `totals=sessions[(row['home'],row['sid'])]`, and what a row adds to them. -/
def addSession (sessions : Dict (PyStr × PyStr) Cache) (row : Row) :
    Dict (PyStr × PyStr) Cache :=
  let totals := (sessions.get? row.session).getD {}
  sessions.set row.session <|
    match row.number .input, row.number .cached with
    | some input, some cached =>
      if cached ≤ input && !row.inputConflict then totals.add input cached else totals
    | _, _ => totals

def Row.timed (row : Row) : Bool :=
  (row.number .output).isSome && (row.number .completionLatency).any (0 < ·)

def metricPopulation (items : List Row) (metric : Metric) : List ℚ × Nat × Totals :=
  match metric with
  | .count => ([], items.length, .sum items.length)
  | .sessionCache =>
    let sessions := items.foldl addSession {}
    let eligible := (sessions.entries.map Prod.snd).filter fun t => 0 < t.input
    (eligible.map fun t => 100 * t.cached / t.input, sessions.entries.length,
      .cache (eligible.map Cache.input).sum (eligible.map Cache.cached).sum
        (eligible.map Cache.calls).sum)
  | .outputSpeed =>
    let measured := (items.filter fun row => (row.number .outputSpeed).isSome).filter Row.timed
    (measured.filterMap (·.number .outputSpeed), items.length,
      .speed (measured.filterMap (·.number .output)).sum
        (measured.filterMap fun row => (row.number .completionLatency).map (· / 1000)).sum)
  | metric =>
    let values := items.filterMap (·.number metric.field)
    (values, items.length, .sum values.sum)

def sortedQuantile (values : List ℚ) (q : ℚ) : Option ℚ := Statistics.quantile values q

def distributionStatistics (values : List ℚ) : Distribution :=
  let ordered := Statistics.ordered values
  { median := sortedQuantile ordered (1 / 2)
    q1 := sortedQuantile ordered (1 / 4)
    q3 := sortedQuantile ordered (3 / 4)
    p10 := if 30 ≤ ordered.length then sortedQuantile ordered (1 / 10) else none
    p90 := if 30 ≤ ordered.length then sortedQuantile ordered (9 / 10) else none
    minimum := ordered.head?
    maximum := ordered.getLast? }

def representativeMean (values : List ℚ) (totals : Totals) (metric : Metric) : Option ℚ :=
  match metric, totals with
  | .count, .sum sum => some sum
  | .outputSpeed, .speed output seconds => if seconds ≠ 0 then some (output / seconds) else none
  | _, _ => if values ≠ [] then some (values.sum / values.length) else none

def populationPython (own : List Row) (metric : Metric) (window : Window) : Population :=
  let items := slice own window.left window.right
  let (values, total, totals) := metricPopulation items metric
  let (local', _, _) := metricPopulation (slice own window.supportLeft window.supportRight) metric
  { eligible := if metric = .count then window.right - window.left else values.length
    total := total
    totals := totals
    distribution := distributionStatistics values
    mean := representativeMean values totals metric
    support := metric = .count || local' ≠ []
    sessions := (items.map Row.session).dedup.length }

def groupPython (own : List Row) (metric : Metric) (windows : List Window) : Group :=
  let (population, total, _) := metricPopulation own metric
  { eligible := if metric = .count then own.length else population.length
    total := total
    low := population.min?
    high := population.max?
    populations := windows.map (populationPython own metric) }

/-! ## the extension -/

structure MetricRow where
  value : Option ℚ
  input : Option ℚ := none
  cached : Option ℚ := none
  output : Option ℚ := none
  seconds : Option ℚ := none
  session : Nat

/-- The number of a session: a new one is the next. -/
def enter (sessions : Dict (PyStr × PyStr) Nat) (key : PyStr × PyStr) :
    Dict (PyStr × PyStr) Nat × Nat :=
  match sessions.get? key with
  | some session => (sessions, session)
  | none => (sessions.set key sessions.entries.length, sessions.entries.length)

def readMetrics (metric : Metric) (row : Row) (session : Nat) : Reading MetricRow := do
  let value ← number row metric.field
  match metric with
  | .sessionCache =>
    let input ← number row .input
    let cached ← number row .cached
    let kept := !row.inputConflict &&
      match input, cached with
      | some a, some b => decide (b ≤ a)
      | _, _ => false
    pure {
      value := value
      input := if kept then input else none
      cached := if kept then cached else none
      session := session }
  | .outputSpeed =>
    let output ← number row .output
    let latency ← number row .completionLatency
    let seconds := (latency.filter (0 < ·)).map (· / 1000)
    pure {
      value := if output.isNone || seconds.isNone then none else value
      output := output
      seconds := seconds
      session := session }
  | _ => pure { value := value, session := session }

def readRows (metric : Metric) :
    Dict (PyStr × PyStr) Nat → List Row → Reading (List MetricRow)
  | _, [] => pure []
  | sessions, row :: rows => do
    let home ← (Native.extractText row.record.home : Except PyError PyStr)
    let sid ← (Native.extractText row.record.sid : Except PyError PyStr)
    let (sessions, session) := enter sessions (home, sid)
    let prepared ← readMetrics metric row session
    let rest ← readRows metric sessions rows
    pure (prepared :: rest)

def MetricRow.sum (row : MetricRow) (metric : Metric) (cache : Cache) : Cache :=
  if metric = .sessionCache then
    match row.input, row.cached with
    | some input, some cached => cache.add input cached
    | _, _ => cache
  else cache

def sumSessions (rows : List MetricRow) (metric : Metric) : Slots Nat Cache :=
  rows.foldl (fun sessions row => sessions.upsert row.session {} (row.sum metric)) {}

def population (rows : List MetricRow) (metric : Metric) :
    List ℚ × Nat × (ℚ × ℚ × ℚ) × Nat :=
  let sessions := (sumSessions rows metric).cells
  match metric with
  | .count => ([], rows.length, (rows.length, 0, 0), sessions.length)
  | .sessionCache =>
    let eligible := sessions.filter fun c => 0 < c.input
    (eligible.map fun c => 100 * c.cached / c.input, sessions.length,
      (Statistics.compensatedSum (eligible.map Cache.input),
        Statistics.compensatedSum (eligible.map Cache.cached),
        Statistics.compensatedSum (eligible.map fun c => (c.calls : ℚ))), sessions.length)
  | .outputSpeed =>
    let measured := rows.filter fun row => row.value.isSome
    (rows.filterMap MetricRow.value, rows.length,
      (Statistics.compensatedSum (measured.filterMap MetricRow.output),
        Statistics.compensatedSum (measured.filterMap MetricRow.seconds), 0), sessions.length)
  | _ =>
    let values := rows.filterMap MetricRow.value
    (values, rows.length, (Statistics.compensatedSum values, 0, 0), sessions.length)

/-- `quantile` of the extension. -/
def quantile (values : List ℚ) (q : ℚ) : Option ℚ := Statistics.quantile values q

structure PopulationOutput where
  eligible : Nat
  total : Nat
  amounts : ℚ × ℚ × ℚ
  distribution : Distribution
  mean : Option ℚ
  support : Bool
  sessions : Nat

def meanOutput (values : List ℚ) (amounts : ℚ × ℚ × ℚ) (metric : Metric) : Option ℚ :=
  match metric with
  | .count => some amounts.1
  | .outputSpeed => if amounts.2.1 ≠ 0 then some (amounts.1 / amounts.2.1) else none
  | _ => if values ≠ [] then some (Statistics.compensatedSum values / values.length) else none

def windowOutput (prepared : List MetricRow) (metric : Metric) (window : Window) :
    PopulationOutput :=
  let (values, total, amounts, sessions) :=
    population (slice prepared window.left window.right) metric
  let mean := meanOutput values amounts metric
  let values := Statistics.ordered values
  { eligible := if metric = .count then window.right - window.left else values.length
    total := total
    amounts := amounts
    distribution := {
      median := quantile values (1 / 2)
      q1 := quantile values (1 / 4)
      q3 := quantile values (3 / 4)
      p10 := if 30 ≤ values.length then quantile values (1 / 10) else none
      p90 := if 30 ≤ values.length then quantile values (9 / 10) else none
      minimum := values.head?
      maximum := values.getLast? }
    mean := mean
    support := metric = .count ||
      (population (slice prepared window.supportLeft window.supportRight) metric).1 ≠ []
    sessions := sessions }

structure RollingOutput where
  eligible : Nat
  total : Nat
  low : ℚ
  high : ℚ
  populations : List PopulationOutput

def Window.outside (window : Window) (count : Nat) : Bool :=
  window.right < window.left || window.supportRight < window.supportLeft ||
    count < window.right || count < window.supportRight

def trendPopulations (rows : List Row) (metric : Metric) (windows : List Window) :
    Except PyError RollingOutput := do
  let prepared ← (readRows metric {} rows).run' 0
  if windows.any (·.outside prepared.length) then throw .valueError
  let (values, total, _, _) := population prepared metric
  return {
    eligible := if metric = .count then prepared.length else values.length
    total := total
    low := values.min?.getD 0
    high := values.max?.getD 1
    populations := windows.map (windowOutput prepared metric) }

/-! ## with the extension -/

def totalsOf (metric : Metric) (amounts : ℚ × ℚ × ℚ) : Totals :=
  match metric with
  | .sessionCache => .cache amounts.1 amounts.2.1 ⌊amounts.2.2⌋.toNat
  | .outputSpeed => .speed amounts.1 amounts.2.1
  | _ => .sum amounts.1

def restorePopulation (metric : Metric) (output : PopulationOutput) : Population where
  eligible := output.eligible
  total := output.total
  totals := totalsOf metric output.amounts
  distribution := output.distribution
  mean := output.mean
  support := output.support
  sessions := output.sessions

def groupNative (metric : Metric) (output : RollingOutput) : Group :=
  let bounds :=
    if output.eligible ≠ 0 && metric ≠ .count then [output.low, output.high] else []
  { eligible := output.eligible
    total := output.total
    low := bounds.min?
    high := bounds.max?
    populations := output.populations.map (restorePopulation metric) }

/-- The part of `build_rolling` for a model and mode, with and without the extension. -/
def group (native : Bool) (own : List Row) (metric : Metric) (windows : List Window) :
    Except PyError Group :=
  if native then
    match trendPopulations own metric windows with
    | .ok output => .ok (groupNative metric output)
    | .error .overflowError => .ok (groupPython own metric windows)
    | .error e => .error e
  else .ok (groupPython own metric windows)

end Codexon.Trends
