import Mathlib.Data.List.MinMax
import Codexon.Session

/-!
# Codexon.Session.View

`Session.view` of `cachemonitor/core.py`, with `cache_misses.classify` and
`summarize`, and the other changes of a session between views: transport
observations, metadata, trimming.

Times of a view are doubles: sums and differences are rounded (`PyFloat.add`,
`PyFloat.sub`).  The native `transport_matches` and `summarize_usage` compute
what the Python code they stand in for does.
-/

namespace Codexon

def WINDOW : ℚ := 30 * 60

/-! ## rows of the history -/

/-- `METRICS`. -/
inductive Metric where
  | input
  | cached
  | uncached
  | written
  | ordinaryInput
  | output
  | reasoning
  | nonReasoning
  | total
deriving DecidableEq, Repr

def METRICS : List Metric :=
  [.input, .cached, .uncached, .written, .ordinaryInput, .output, .reasoning, .nonReasoning, .total]

def Usage.metric (usage : Usage) : Metric → Option Nat
  | .input => usage.input
  | .cached => usage.cached
  | .uncached => usage.uncached
  | .written => usage.written
  | .ordinaryInput => usage.ordinaryInput
  | .output => usage.output
  | .reasoning => usage.reasoning
  | .nonReasoning => usage.nonReasoning
  | .total => usage.total

/-- `TRANSPORT_FIELDS`: the observation a request is attributed to. -/
structure TransportDetails where
  transport : PyStr
  transportSource : PyStr
  transportTs : Option ℚ
  transportEvidence : PyStr
  transportEndpoint : PyStr
  transportTurn : PyStr
deriving DecidableEq, Repr

def transportDetails : Option Transport → TransportDetails
  | none => {
      transport := unknownText
      transportSource := py "unknown"
      transportTs := none
      transportEvidence := py "대응하는 연결 기록 없음"
      transportEndpoint := []
      transportTurn := [] }
  | some observation =>
    let known : Bool := observation.kind = py "WebSocket" ∨ observation.kind = py "HTTP/SSE"
    { transport := if known then observation.kind else unknownText
      transportSource := if known then py "log_time" else py "unknown"
      transportTs := some observation.ts
      transportEvidence := observation.evidence
      transportEndpoint := observation.endpoint
      transportTurn := observation.turn }

/-- A row of the history: `{**request.values(), **detail}`. -/
structure Row extends Request, TransportDetails where
  callId : Json
  uncached : Option Nat
  ordinaryInput : Option Nat
  nonReasoning : Option Nat
  rate : Option ℚ
deriving DecidableEq, Repr

def Request.rate (r : Request) : Option ℚ :=
  match r.input, r.cached with
  | some input, some cached =>
    if input = 0 then none else some (PyFloat.nearest (100 * cached / input))
  | _, _ => none

/-- `Request.values`, with the details of its transport.  `usage_values` leaves
no part of a request larger than its whole. -/
def Request.values (r : Request) (detail : TransportDetails) : Row := {
  r, detail with
  callId := r.key
  uncached := minus r.input r.cached
  ordinaryInput := if r.inputConflict then none else minus (minus r.input r.cached) r.written
  nonReasoning := minus r.output r.reasoning
  rate := r.rate }

def Row.metric (row : Row) : Metric → Option Nat
  | .input => row.input
  | .cached => row.cached
  | .uncached => row.uncached
  | .written => row.written
  | .ordinaryInput => row.ordinaryInput
  | .output => row.output
  | .reasoning => row.reasoning
  | .nonReasoning => row.nonReasoning
  | .total => row.total

/-! ## totals -/

/-- `summarize(…)`. -/
structure Summary where
  count : Nat
  missing : Metric → Nat
  totals : Metric → Option Nat
  rate : Option ℚ

def summarize (rows : List Row) : Summary :=
  let known (key : Metric) : List Nat := rows.filterMap (·.metric key)
  let rated := rows.filterMap fun row => do
    let input ← row.input
    let cached ← row.cached
    if cached ≤ input then some (input, cached) else none
  let inputs := (rated.map (·.1)).sum
  { count := rows.length
    missing := fun key => rows.length - (known key).length
    totals := fun key => if known key ≠ [] ∨ rows = [] then some (known key).sum else none
    rate := if inputs = 0 then none
      else some (PyFloat.nearest (100 * (rated.map (·.2)).sum / inputs)) }

/-- A cache-read miss. -/
structure CacheMiss where
  key : Json
  ts : ℚ
  input : Option Nat
deriving DecidableEq, Repr

/-- `classify(…)`. -/
structure CacheMisses where
  count : Nat
  input : Nat
  inputMissing : Nat
  events : List CacheMiss
  firstKey : Option Json
  current : Bool
deriving DecidableEq, Repr

/-- `classify`; the rows of a view have no purpose. -/
def classify (rows : List Row) : CacheMisses :=
  let ordered := rows.insertionSort fun a b => a.ts ≤ b.ts
  let events := (ordered.filter fun r => 0 < r.input.getD 0 && r.cached = some 0).map
    fun r => CacheMiss.mk r.key r.ts r.input
  let known := events.filterMap (·.input)
  { count := events.length
    input := known.sum
    inputMissing := events.length - known.length
    events
    firstKey := ordered.head?.map (·.key)
    current := events.getLast?.any fun event => ordered.getLast?.any fun r => r.key = event.key }

/-! ## views -/

/-- What `view` returns. -/
structure View where
  id : PyStr
  home : PyStr
  title : PyStr
  model : Json
  provider : PyStr
  cwd : PyStr
  lineage : Lineage
  status : PyStr
  running : Bool
  activity : ℚ
  requestState : Option TurnState
  turnRecords : Dict Json TurnState
  transport : PyStr
  transportTs : Option ℚ
  endpoint : PyStr
  transportEvidence : PyStr
  remaining : Option ℚ
  warning : PyStr
  pending : Bool
  cacheMisses : CacheMisses
  history : List Row
  unmatchedTransports : List Transport
  unclassified : Option (List (Metric × Option Nat))
  coverageGaps : List CoverageGap
  coverageInitial : Int
  coverageAvailable : Bool
  transports : List Transport
deriving DecidableEq

/-- The parts of the state a cached view is kept for. -/
structure Signature where
  requests : Nat
  contextRevision : Nat
  lastRequest : Option Request
  reportedUsage : Option Usage
  running : Bool
  activity : ℚ
  pending : Bool
  title : PyStr
  cwd : PyStr
  model : Json
  provider : PyStr
  requestState : Option TurnState
  lineage : Lineage
  transports : List Transport
deriving DecidableEq

namespace Session

/-- `signature` in `view`. -/
def signature (s : Session) : Signature := {
  requests := s.requests.length
  contextRevision := s.contextRevision
  lastRequest := s.stored.getLast?
  reportedUsage := s.reportedUsage
  running := s.running
  activity := s.activity
  pending := s.pending
  title := s.title
  cwd := s.cwd
  model := s.model
  provider := s.provider
  requestState := s.requestState
  lineage := s.lineage
  transports := s.transports }

/-- The observation `transport_details` finds. -/
def observation (transports : List Transport) (request : Request) : Option Transport :=
  (transports.filter fun t => t.ts ≤ request.ts &&
    (!request.turn.truthy || t.turn.isEmpty || request.turn = .str t.turn)).argmax (·.ts)

/-- `connection_history`. -/
def history (s : Session) : List Row :=
  s.stored.map fun request => request.values (transportDetails (observation s.transports request))

/-- `last`: the latest stored request of the window. -/
def last (s : Session) (now : ℚ) : Option Request :=
  s.stored.reverse.find? fun request => PyFloat.sub now WINDOW ≤ request.ts

/-- `remaining` of a request at `ts`. -/
def remaining (now ts : ℚ) : ℚ := max 0 (PyFloat.sub WINDOW (PyFloat.sub now ts))

def runningStatus (s : Session) (now : ℚ) : PyStr :=
  if PyFloat.sub now s.activity < WINDOW then py "진행 기록" else py "진행 기록 (갱신 지연)"

/-- `unclassified`: reported usage that no request explains. -/
def unclassified (s : Session) (history : List Row) : Option (List (Metric × Option Nat)) := do
  let reported ← s.reportedUsage
  let total ← reported.total
  let observed := summarize history
  if (observed.totals .total).getD 0 < total then
    some (METRICS.map fun key => (key, do
      let reported ← reported.metric key
      let observed ← observed.totals key
      if observed ≤ reported then some (reported - observed) else none))
  else none

def warning (s : Session) : PyStr :=
  match s.transports.getLast? with
  | some latest =>
    if latest.kind = py "HTTP/SSE" && s.transports.any fun t =>
      t.process = latest.process && t.evidence = py "HTTP 전환 기록" then py "HTTP 전환" else []
  | none => []

/-- The view built from the state, with the history and what follows from it
taken from `old` when there is one. -/
def compose (s : Session) (now : ℚ) (old : Option View) : View :=
  let history := (old.map (·.history)).getD s.history
  let latest := s.transports.getLast?
  { id := s.id
    home := s.home
    title := if s.title.isEmpty then py "세션 " ++ s.id.take 8 else s.title
    model := s.model
    provider := s.provider
    cwd := s.cwd
    lineage := s.lineage
    status := if s.running then s.runningStatus now else py "관찰 중"
    running := s.running
    activity := s.activity
    requestState := s.requestState
    turnRecords := s.turnRecords
    transport := (latest.map (·.kind)).getD unknownText
    transportTs := latest.map (·.ts)
    endpoint := (latest.map (·.endpoint)).getD []
    transportEvidence := (latest.map (·.evidence)).getD (py "연결 기록 없음")
    remaining := (s.last now).map fun request => remaining now request.ts
    warning := s.warning
    pending := s.pending
    cacheMisses := (old.map (·.cacheMisses)).getD (classify history)
    history
    unmatchedTransports := s.transports.filter fun t => history.all fun r =>
      (r.transportTs, r.transport, r.transportTurn) ≠ (some t.ts, t.kind, t.turn)
    unclassified := (old.map (·.unclassified)).getD (s.unclassified history)
    coverageGaps := s.coverageGaps
    coverageInitial := s.coverageInitial
    coverageAvailable := s.coverageLast.isSome
    transports := s.transports }

end Session

/-! ## the cache -/

/-- The attributes `view` keeps for its next call. -/
structure ViewCache where
  cachedView : View
  viewSignature : Signature
  viewTime : ℚ
  viewUntil : ℚ
  lastRecentTs : Option ℚ
deriving DecidableEq

/-- A session with its cached view. -/
structure Viewed where
  session : Session
  cache : Option ViewCache := none

namespace ViewCache

/-- `self._view_time <= now < self._view_until`. -/
def lasts (cache : ViewCache) (now : ℚ) : Bool := cache.viewTime ≤ now && now < cache.viewUntil

def refresh (cache : ViewCache) (s : Session) (now : ℚ) : View := { cache.cachedView with
  remaining := cache.lastRecentTs.map (Session.remaining now)
  status := if s.running then s.runningStatus now else cache.cachedView.status }

end ViewCache

section

-- The timestamp of the next local midnight.
variable (nextDay : ℚ → ℚ)

/-- The attributes `view` sets. -/
def Session.keepView (s : Session) (now : ℚ) (result : View) : ViewCache := {
  cachedView := result
  viewSignature := s.signature
  viewTime := now
  viewUntil := match s.last now with
    | some request => min (PyFloat.add (PyFloat.add request.ts WINDOW) (PyFloat.nearest (1 / 1000000)))
        (nextDay now)
    | none => nextDay now
  lastRecentTs := (s.last now).map (·.ts) }

def Viewed.view (viewed : Viewed) (now : ℚ) (useCache : Bool) : View × Viewed :=
  let s := viewed.session
  let same := if useCache then viewed.cache.filter (·.viewSignature = s.signature) else none
  match same.filter (·.lasts now) with
  | some cache => (cache.refresh s now, viewed)
  | none =>
    let result := s.compose now (same.map (·.cachedView))
    (result, if useCache then { viewed with cache := some (s.keepView nextDay now result) } else viewed)

end

/-! ## the other changes of a session -/

/-- What the index sets of a session's metadata. -/
structure Metadata where
  title : PyStr
  cwd : PyStr
  model : Json
  provider : PyStr
  lineage : Lineage
  metadataSeen : Bool
  pending : Bool
  titleRequest : Bool
deriving DecidableEq

namespace Session

def describe (s : Session) (m : Metadata) : Session := { s with
  title := m.title
  cwd := m.cwd
  model := m.model
  provider := m.provider
  lineage := m.lineage
  metadataSeen := m.metadataSeen
  pending := m.pending
  titleRequest := m.titleRequest }

def trimTransports (now : ℚ) : List Transport → List Transport
  | first :: second :: rest =>
    if second.ts < PyFloat.sub now WINDOW then trimTransports now (second :: rest)
    else first :: second :: rest
  | transports => transports

def trim (s : Session) (now : ℚ) : Session := { s with transports := trimTransports now s.transports }

/-- A transport observation read from the logs (`read_logs`).  `urlPath` is
`urlsplit(…).path`. -/
def observe (urlPath : PyStr → PyStr) (s : Session) (t : Transport) : Session :=
  let previous := (s.transports.getLast?.map (·.endpoint)).getD []
  let t := if (py "/").isPrefixOf t.endpoint && !s.transports.isEmpty && py "://" <:+: previous &&
    urlPath previous = t.endpoint then { t with endpoint := previous } else t
  { s with
    model := if t.model.isEmpty then s.model else .str t.model
    transports := s.transports ++ [t]
    activity := max s.activity t.ts }

end Session

end Codexon
