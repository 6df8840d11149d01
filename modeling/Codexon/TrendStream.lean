import Codexon.Blocks
import Codexon.Trends.Populations

/-!
# Codexon.TrendStream

The trends that are computed of a stream of calls in order: `Block`, `Window`, `population`,
`point` and `rolling` of `cachemonitor/prepared_trends.py`.

Numbers are exact.  A budget only stops a computation, and is left out, as are the samples and the
sums of a group over the whole range.
-/

namespace Codexon.TrendStream

open Trends

/-! ## calls -/

/-- A row of the stream.  The cell of an earlier time would be empty, and to compare it raises. -/
structure Call extends Trends.Row where
  owner : Nat
  timed : 0 ≤ ts

/-- `row.get('effort') or '미확인'` -/
def Call.work (c : Call) : PyStr := label c.effort

/-- `scope[:2]` -/
def Call.key (c : Call) : PyStr × PyStr := (label c.model, label c.serviceTier)

def Call.scope (c : Call) : (PyStr × PyStr) × PyStr := (c.key, c.work)

/-- The cells of a row, which are empty where a value is not valid. -/
structure Cell where
  ts : ℚ
  owner : Nat
  conflict : Bool
  value : Field → Option ℚ

def Call.cell (c : Call) : Cell where
  ts := c.ts
  owner := c.owner
  conflict := c.inputConflict
  value := c.number

/-! ## blocks -/

structure Block where
  cells : List Cell := []
  positions : Dict Nat (List Nat) := {}

namespace Block

def append (b : Block) (c : Call) (scope : Nat) : Block where
  cells := b.cells ++ [c.cell]
  positions := b.positions.append scope b.cells.length

def times (b : Block) : List ℚ := b.cells.map Cell.ts

/-- `values['ts'].at(-1) < before` -/
def endsBefore (b : Block) (before : ℚ) : Bool := b.times.getLast?.any (· < before)

/-- `values['ts'].at(0)` is past the end. -/
def beginsPast (b : Block) (stop : ℚ) (inclusive : Bool) : Bool :=
  b.times.head?.any fun first => stop < first || first = stop && !inclusive

/-- The positions between two others of the rows of a scope. -/
def slice (b : Block) (left right scope : Nat) : List Nat :=
  match b.positions.get? scope with
  | some indices => (indices.take (bisectLeft indices right)).drop (bisectLeft indices left)
  | none => []

/-- What the body of the loop of `entries` yields. -/
def entries (b : Block) (start stop : ℚ) (inclusive : Bool) (scopes : List Nat) : List Cell :=
  let left := bisectLeft b.times start
  let right := if inclusive then bisectRight b.times stop else bisectLeft b.times stop
  (Keyed.sort id (scopes.flatMap (b.slice left right))).filterMap fun position =>
    b.cells[position]?

end Block

namespace Window

/-- `Window.append` -/
def append (blocks : List Block) (c : Call) (scope : Nat) : List Block :=
  match blocks.getLast? with
  | some b =>
    if 256 ≤ b.cells.length then blocks ++ [Block.append {} c scope]
    else blocks.dropLast ++ [b.append c scope]
  | none => [Block.append {} c scope]

def discard (blocks : List Block) (before : ℚ) : List Block :=
  blocks.dropWhile (·.endsBefore before)

def entries (start stop : ℚ) (inclusive : Bool) (scopes : List Nat) : List Block → List Cell
  | [] => []
  | b :: blocks =>
    if b.endsBefore start then entries start stop inclusive scopes blocks
    else if b.beginsPast stop inclusive then []
    else b.entries start stop inclusive scopes ++ entries start stop inclusive scopes blocks

end Window

/-! ## populations -/

/-- The variables of the loop of `population`. -/
structure Counting where
  calls : Nat := 0
  sessions : Dict Nat Cache := {}
  values : List ℚ := []
  numerator : ℚ := 0
  seconds : ℚ := 0
  support : Bool := false

/-- A value, in the middle part of its interval or not. -/
def Counting.take (s : Counting) (value : ℚ) (inside : Bool) : Counting :=
  { s with values := s.values ++ [value], support := s.support || inside }

def Counting.add (metric : Trends.Metric) (supportStart supportEnd : ℚ) (s : Counting) (c : Cell) :
    Counting :=
  let inside := supportStart ≤ c.ts && c.ts ≤ supportEnd
  let totals := (s.sessions.get? c.owner).getD {}
  let s := { s with calls := s.calls + 1, sessions := s.sessions.set c.owner totals }
  match metric with
  | .count => s
  | .sessionCache =>
    match c.value .input, c.value .cached with
    | some amount, some cached =>
      if amount < cached || c.conflict then s
      else
        { s with
          sessions := s.sessions.set c.owner (totals.add amount cached)
          support := s.support || amount ≠ 0 && inside }
    | _, _ => s
  | .outputSpeed =>
    match c.value .outputSpeed, c.value .output, c.value .completionLatency with
    | some value, some output, some elapsed =>
      if elapsed ≤ 0 then s
      else
        { s.take value inside with
          numerator := s.numerator + output
          seconds := s.seconds + elapsed / 1000 }
    | _, _, _ => s
  | metric =>
    match c.value metric.field with
    | some value => s.take value inside
    | none => s

/-- What `population` yields. -/
structure Values extends Population where
  calls : Nat
deriving DecidableEq

def population (cells : List Cell) (metric : Trends.Metric) (supportStart supportEnd : ℚ) :
    Values :=
  let s := cells.foldl (Counting.add metric supportStart supportEnd) { support := metric = .count }
  let counted := (s.sessions.entries.map Prod.snd).filter (·.input ≠ 0)
  let (values, total, totals) : List ℚ × Nat × Totals :=
    match metric with
    | .sessionCache =>
      (counted.map fun t : Cache => 100 * t.cached / t.input, s.sessions.entries.length,
        Totals.cache (counted.map Cache.input).sum (counted.map Cache.cached).sum
          (counted.map Cache.calls).sum)
    | .outputSpeed => (s.values, s.calls, .speed s.numerator s.seconds)
    | .count => (s.values, s.calls, .sum s.calls)
    | _ => (s.values, s.calls, .sum s.values.sum)
  { eligible := if metric = .count then s.calls else values.length
    total := total
    totals := totals
    distribution := distributionStatistics values
    mean := representativeMean values totals metric
    support := s.support
    sessions := s.sessions.entries.length
    calls := s.calls }

/-- `empty` -/
def noValues (metric : Trends.Metric) : Values where
  eligible := 0
  total := 0
  totals :=
    match metric with
    | .sessionCache => .cache 0 0 0
    | .outputSpeed => .speed 0 0
    | _ => .sum 0
  distribution := distributionStatistics []
  mean := if metric = .count then some 0 else none
  support := metric = .count
  sessions := 0
  calls := 0

/-! ## points -/

/-- An interval: a bin of the number of calls, or the window of a point. -/
structure Event where
  counted : Bool
  index : Nat
  left : ℚ
  right : ℚ
  stamp : ℚ
  supportLeft : ℚ
  supportRight : ℚ
deriving DecidableEq

/-- `median`, `time_weighted_mean`, `count` and `mean` -/
inductive Statistic where
  | median
  | timeWeightedMean
  | count
  | mean
deriving DecidableEq

/-- `기록 공백`, `표본 부족`, `일부 구간` and `이동 계산 구간` -/
inductive State where
  | gap
  | scarce
  | part
  | moving
deriving DecidableEq

/-- A point; what it compares with other points is missing. -/
structure Point where
  counted : Bool
  ts : ℚ
  value : Option ℚ
  mean : Option ℚ
  representative : Option ℚ
  statistic : Statistic
  bucket : Nat
  start : ℚ
  stop : ℚ
  complete : Bool
  model : PyStr
  serviceTier : PyStr
  effort : PyStr
  coverage : Nat × Nat
  distribution : Distribution
  totals : Totals
  calls : Nat
  sessions : Nat
  bandValid : Bool
  outerValid : Bool
  support : Bool
  status : State
deriving DecidableEq

def point (metric : Trends.Metric) (key : PyStr × PyStr) (e : Event) (window now : ℚ)
    (values : Values) :
    Point :=
  let counted := metric = .count
  let representative := if metric = .duration then values.distribution.median else values.mean
  let minimum := if metric = .duration then 5 else 1
  let complete :=
    if counted then e.right - e.left = window ∧ e.right ≤ now
    else e.left = e.stamp - window / 2 ∧ e.right = e.stamp + window / 2 ∧ e.right ≤ now
  { counted := counted
    ts := e.stamp
    value := if counted ∨ values.support ∧ minimum ≤ values.eligible then representative else none
    mean := values.mean
    representative := representative
    statistic :=
      match metric with
      | .duration => .median
      | .outputSpeed => .timeWeightedMean
      | .count => .count
      | _ => .mean
    bucket := e.index
    start := e.left
    stop := e.right
    complete := complete
    model := key.1
    serviceTier := key.2
    effort := metric.effort.getD []
    coverage := (values.eligible, values.total)
    distribution := values.distribution
    totals := values.totals
    calls := values.calls
    sessions := values.sessions
    bandValid := ¬ counted ∧ values.support ∧ 10 ≤ values.eligible
    outerValid := ¬ counted ∧ values.support ∧ 30 ≤ values.eligible
    support := values.support
    status :=
      if !values.support then .gap
      else if values.eligible < minimum ∧ ¬ counted then .scarce
      else if ¬ complete then .part
      else .moving }

/-! ## intervals -/

/-- `start`, `end`, `q['now']`, `width`, and the efforts of the scopes in order. -/
structure Query where
  start : ℚ
  stop : ℚ
  now : ℚ
  width : Nat
  efforts : List PyStr

def rollingWindow (span : ℚ) : ℚ :=
  let target := max 1 (span / 24)
  (([1, 2, 5, 10, 15, 30, 60, 120, 300, 600, 900, 1800, 3600, 7200, 10800, 21600, 43200, 86400,
    172800, 345600, 604800, 1209600, 2592000] : List ℚ).find? (target ≤ ·)).getD
      (⌈target / 2592000⌉ * 2592000)

namespace Query

variable (q : Query)

def span : ℚ := q.stop - q.start

def duration : ℚ := rollingWindow q.span

def steps : Nat :=
  let step := max (q.duration / 4) (q.span / max 16 (q.width / 6 : Nat))
  (max 1 ⌈q.span / step⌉).toNat

/-- The window of a point. -/
def rolling (index : Nat) : Event :=
  let stamp := q.start + q.span * index / q.steps
  { counted := false
    index := index
    left := max q.start (stamp - q.duration / 2)
    right := min q.stop (stamp + q.duration / 2)
    stamp := stamp
    supportLeft := max q.start (stamp - q.duration / 6)
    supportRight := min q.stop (stamp + q.duration / 6) }

def bin (index : Nat) : Event :=
  let left := q.start + index * q.duration
  let right := min q.stop (q.start + (index + 1) * q.duration)
  { counted := true
    index := index
    left := left
    right := right
    stamp := (left + right) / 2
    supportLeft := q.start
    supportRight := q.stop }

def centers : List Event := (List.range (q.steps + 1)).map q.rolling

def bins : List Event := (List.range ⌈q.span / q.duration⌉.toNat).map q.bin

def events : List Event := Keyed.sort Event.right (q.centers ++ q.bins)

/-- `specs`: `METRICS`, the reasoning of the efforts, and the number of calls. -/
def specs : List Trends.Metric :=
  [.duration, .outputSpeed, .cost, .sessionCache, .input] ++ q.efforts.map .reasoning ++ [.count]

def grid (metric : Trends.Metric) : List Event :=
  Keyed.sort Event.index (if metric = .count then q.bins else q.events.filter (!·.counted))

def admits (e : Event) (c : Call) : Bool := c.ts < e.right || e.right = q.stop && c.ts = e.right

end Query

/-- The last loop over `lefts`: each becomes the least of those from it on. -/
def sooner : List ℚ → List ℚ
  | [] => []
  | left :: lefts =>
    match sooner lefts with
    | [] => [left]
    | next :: rest => min left next :: next :: rest

/-! ## the loop -/

/-- The calls of a model and mode. -/
structure Group where
  scopes : List Nat := []
  efforts : Dict PyStr (List Nat) := {}
  points : Dict (Trends.Metric × Nat) Point := {}

namespace Group

def observe (g : Group) (c : Call) (scope : Nat) : Group :=
  { g with
    scopes := g.scopes.insert scope
    efforts := g.efforts.set c.work (((g.efforts.get? c.work).getD []).insert scope) }

/-- The scopes of a metric, unless it is the reasoning of an effort without calls. -/
def selected (g : Group) (metric : Trends.Metric) : Option (List Nat) :=
  match metric.effort with
  | some effort => g.efforts.get? effort
  | none => some g.scopes

/-- The body of the loop over `specs`. -/
def emit (q : Query) (blocks : List Block) (e : Event) (key : PyStr × PyStr) (g : Group)
    (metric : Trends.Metric) : Group :=
  if decide (metric = .count) ≠ e.counted then g
  else
    match g.selected metric with
    | none => g
    | some scopes =>
      let cells := Window.entries e.left e.right (e.right = q.stop) scopes blocks
      let values := population cells metric e.supportLeft e.supportRight
      { g with
        points := g.points.set (metric, e.index) (point metric key e q.duration q.now values) }

end Group

/-- The variables of `rolling`, and the rows that were not read. -/
structure Reader where
  blocks : List Block := []
  ids : Dict ((PyStr × PyStr) × PyStr) Nat := {}
  groups : Dict (PyStr × PyStr) Group := ⟨[], nodup_nil_pairs⟩
  rows : List Call

namespace Reader

/-- `scope_ids[scope]`: a new scope gets the next number. -/
def identify (s : Reader) (c : Call) : Nat := (s.ids.get? c.scope).getD s.ids.entries.length

/-- The body of the loop over the rows, but for reading the next. -/
def observe (s : Reader) (c : Call) : Reader :=
  { s with
    ids := s.ids.set c.scope (s.identify c)
    groups := s.groups.set c.key (((s.groups.get? c.key).getD {}).observe c (s.identify c))
    blocks := Window.append s.blocks c (s.identify c) }

def readRows (q : Query) (e : Event) (s : Reader) : Reader :=
  let rows := s.rows.dropWhile (q.admits e)
  { (s.rows.takeWhile (q.admits e)).foldl observe s with rows := rows }

def emit (q : Query) (e : Event) (s : Reader) : Reader :=
  { s with groups := s.groups.mapVal fun key g => q.specs.foldl (Group.emit q s.blocks e key) g }

/-- The loop over the events, each with the least left end from it on. -/
def loop (q : Query) : List (Event × ℚ) → Reader → Reader
  | [], s => s
  | (e, _) :: rest, s =>
    let s := (s.readRows q e).emit q e
    match rest with
    | [] => s
    | (_, before) :: _ => loop q rest { s with blocks := Window.discard s.blocks before }

end Reader

structure Line where
  model : PyStr
  serviceTier : PyStr
  points : List Point

structure Panel where
  metric : Trends.Metric
  lines : List Line

def line (q : Query) (metric : Trends.Metric) (key : PyStr × PyStr) (g : Group) : Line where
  model := key.1
  serviceTier := key.2
  points := (q.grid metric).map fun e =>
    (g.points.get? (metric, e.index)).getD
      (point metric key e q.duration q.now (noValues metric))

def rolling (q : Query) (rows : List Call) : List Panel :=
  let events := q.events
  let s := Reader.loop q (events.zip (sooner (events.map Event.left))) { rows := rows }
  q.specs.map fun metric => {
    metric := metric
    lines := s.groups.entries.filterMap fun (key, g) =>
      (g.selected metric).map fun _ => line q metric key g }

end Codexon.TrendStream
