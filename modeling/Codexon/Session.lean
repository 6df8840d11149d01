import Codexon.Dict
import Codexon.Json
import Mathlib.Data.List.Infix

/-!
# Codexon.Session

`cachemonitor/core.py`: a `Session` and the events it consumes.

Times are finite doubles, kept as rationals; `stamp` is a parameter for the
ISO reader of the standard library, and so is `format` for the text an f-string
gives an event id.  Values that the session only stores, compares and tests
for truth are kept up to Python's equality (`Json.canon`).

Requests are objects: a turn's unresolved list and the session's request list
refer to them by their place in `objects`, and completing a request through one
list is seen through the other.
-/

namespace Codexon

/-! ## usage -/

def tokenNumber : Json → Option Nat
  | .int n => if 0 ≤ n then some n.toNat else none
  | _ => none

/-- `usage_values(…)`. -/
structure Usage where
  input : Option Nat
  cached : Option Nat
  written : Option Nat
  output : Option Nat
  reasoning : Option Nat
  uncached : Option Nat
  ordinaryInput : Option Nat
  nonReasoning : Option Nat
  total : Option Nat
  reportedTotal : Option Nat
  totalDiscrepancy : Bool
  inputConflict : Bool
  outputConflict : Bool
deriving DecidableEq, Repr

/-- `a > b` of two known numbers. -/
def exceeds (a b : Option Nat) : Bool :=
  match a, b with
  | some a, some b => b < a
  | _, _ => false

/-- `a - b` of two known numbers. -/
def minus (a b : Option Nat) : Option Nat := do return (← a) - (← b)

/-- `a + b` of two known numbers. -/
def plus (a b : Option Nat) : Option Nat := do return (← a) + (← b)

def usageValues (usage : Json) : Except PyError Usage := do
  let detail (outer inner : String) : Except PyError Json := do
    ((← usage.getNone outer).orElse (.obj [])).getNone inner
  let input := tokenNumber (← usage.getNone "input_tokens")
  let output := tokenNumber (← usage.getNone "output_tokens")
  let cached := tokenNumber
    (← usage.getD "cached_input_tokens" (← detail "input_tokens_details" "cached_tokens"))
  let reasoning := tokenNumber
    (← usage.getD "reasoning_output_tokens" (← detail "output_tokens_details" "reasoning_tokens"))
  let written := tokenNumber
    (← usage.getD "cache_write_input_tokens" (← detail "input_tokens_details" "cache_write_tokens"))
  let reported := tokenNumber (← usage.getNone "total_tokens")
  let inputConflict :=
    exceeds cached input || exceeds written input || exceeds (plus cached written) input
  let outputConflict := exceeds reasoning output
  let cached := if exceeds cached input then none else cached
  let written := if exceeds written input then none else written
  let reasoning := if outputConflict then none else reasoning
  return {
    input, cached, written, output, reasoning
    uncached := minus input cached
    ordinaryInput := if inputConflict then none else minus (minus input cached) written
    nonReasoning := minus output reasoning
    total := (plus input output).or reported
    reportedTotal := reported
    totalDiscrepancy :=
      reported.isSome && (plus input output).isSome && decide (reported ≠ plus input output)
    inputConflict, outputConflict }

/-! ## records -/

/-- Where a model or tier was read. -/
inductive Source where
  | record
  | settings
deriving DecidableEq, Repr

inductive ModeSource where
  | unknown
  | turnContext
  | appliedSettings
deriving DecidableEq, Repr

inductive ModeAction where
  | unknown
  | clear
  | set
deriving DecidableEq, Repr

/-- The evidence of a service tier: `configured_service_tier`,
`request_mode_source` and `request_mode_action`. -/
structure Evidence where
  configuredServiceTier : Json
  requestModeSource : ModeSource
  requestModeAction : ModeAction
deriving DecidableEq, Repr

def unknownText : PyStr := py "미확인"

/-- A `Request`. -/
structure Request where
  ts : ℚ
  key : Json
  input : Option Nat
  cached : Option Nat
  written : Option Nat
  output : Option Nat
  model : Json
  turn : Json := .str []
  reasoning : Option Nat := none
  total : Option Nat := none
  effort : PyStr := unknownText
  serviceTier : Json := .str unknownText
  serviceTierSource : Source := .record
  configuredModel : Json := .str []
  modelSource : Source := .settings
  reportedTotal : Option Nat := none
  totalDiscrepancy : Bool := false
  inputConflict : Bool := false
  outputConflict : Bool := false
  configuredServiceTier : Json := .null
  requestModeSource : ModeSource := .unknown
  requestModeAction : ModeAction := .unknown
  compactionEpoch : Nat := 0
deriving DecidableEq, Repr

instance : Inhabited Request :=
  ⟨{ ts := 0, key := .null, input := none, cached := none, written := none, output := none,
     model := .null }⟩

/-- `x in (None, '', '미확인')`. -/
def unknownValue (x : Json) : Bool := x = .null ∨ x = .str [] ∨ x = .str unknownText

namespace Request

def lacks (r : Request) : Bool :=
  !r.model.truthy || unknownValue (.str r.effort) ||
    (r.serviceTierSource = .settings && unknownValue r.serviceTier)

/-- `str(key).startswith('legacy:')`; only strings print with these letters. -/
def legacy (r : Request) : Bool :=
  match r.key with
  | .str s => (py "legacy:").isPrefixOf s
  | _ => false

def withEvidence (r : Request) : Option Evidence → Request
  | none => r
  | some e => { r with
      configuredServiceTier := e.configuredServiceTier
      requestModeSource := e.requestModeSource
      requestModeAction := e.requestModeAction }

end Request

/-- A `Transport` observation. -/
structure Transport where
  ts : ℚ
  kind : PyStr
  endpoint : PyStr
  evidence : PyStr
  process : PyStr
  turn : PyStr
  model : PyStr
deriving DecidableEq, Repr

/-- The states of a turn: `진행`, `중단`, `완료`. -/
inductive TurnStatus where
  | running
  | aborted
  | finished
deriving DecidableEq, Repr

/-- A `request_state`. -/
structure TurnState where
  turn : Json
  state : TurnStatus
  startedAt : Option ℚ
  endedAt : Option ℚ
  observedAt : ℚ
deriving DecidableEq, Repr

/-- An entry of `coverage_gaps`. -/
structure CoverageGap where
  start : ℚ
  «end» : ℚ
  tokens : Int
deriving DecidableEq, Repr

/-- The fields `session_lineage` fills. -/
structure Lineage where
  parentThreadId : PyStr := []
  agentPath : PyStr := []
  agentNickname : PyStr := []
  spawnDepth : Option Int := none
deriving DecidableEq, Repr

/-- A `Session`, and the requests it has created. -/
structure Session where
  id : PyStr
  home : PyStr
  title : PyStr := []
  model : Json := .str []
  provider : PyStr := []
  cwd : PyStr := []
  modern : Bool := false
  totalKey : List (PyStr × Json) := []
  objects : List Request := []
  requests : List Nat := []
  transports : List Transport := []
  keys : List Json := []
  running : Bool := false
  stateTs : ℚ := 0
  activity : ℚ := 0
  pending : Bool := false
  contexts : Dict Json (Json × PyStr) := {}
  unresolvedContexts : Dict Json (List Nat) := {}
  contextRevision : Nat := 0
  currentTurn : Json := .str []
  requestState : Option TurnState := none
  turnRecords : Dict Json TurnState := {}
  configuredModel : Json := .str []
  currentEffort : PyStr := unknownText
  currentServiceTier : PyStr := unknownText
  tierContexts : Dict Json Json := {}
  tierEvidence : Dict Json (Option Evidence) := {}
  currentTierEvidence : Option Evidence := none
  pendingTierContext : Option (Json × ℚ × Json) := none
  reportedUsage : Option Usage := none
  reportedTs : ℚ := 0
  metadataSeen : Bool := false
  titleRequest : Bool := false
  coverageTotal : Nat := 0
  coverageLast : Option (ℚ × Int) := none
  coverageGaps : List CoverageGap := []
  coverageInitial : Int := 0
  lineage : Lineage := {}
  compactionEpoch : Nat := 0

namespace Session

def request (s : Session) (ref : Nat) : Request := s.objects.getD ref default

def stored (s : Session) : List Request := s.requests.map s.request

/-- `self.unresolved_contexts.setdefault(turn,[]).append(request)`. -/
def leaveUnresolved (s : Session) (turn : Json) (ref : Nat) : Session :=
  { s with unresolvedContexts :=
      s.unresolvedContexts.set turn ((s.unresolvedContexts.get? turn).getD [] ++ [ref]) }

/-! ## adding and completing requests -/

/-- The body of `add_usage` for a new key. -/
def recordUsage (s : Session) (request : Request) : Session :=
  let ref := s.objects.length
  let s := { s with
    keys := s.keys ++ [request.key]
    objects := s.objects ++ [request]
    requests := s.requests ++ [ref] }
  let s := if request.turn.truthy && request.lacks then s.leaveUnresolved request.turn ref else s
  { s with
    coverageTotal := s.coverageTotal + request.total.getD 0
    activity := max s.activity request.ts }

def addUsage (ts : ℚ) (key usage model turn : Json) (effort : PyStr) (serviceTier : Json)
    (serviceTierSource : Source) (configuredModel : Json) (modeMetadata : Option Evidence) :
    Py Session Unit := do
  let key ← Py.ofExcept key.hashed
  let s ← get
  if key ∈ s.keys then return
  let values ← Py.ofExcept (usageValues usage)
  let request : Request := {
    ts, key, input := values.input, cached := values.cached, written := values.written
    output := values.output, model, turn, reasoning := values.reasoning, total := values.total
    effort, serviceTier, serviceTierSource
    configuredModel := configuredModel.orElse model
    reportedTotal := values.reportedTotal, totalDiscrepancy := values.totalDiscrepancy
    inputConflict := values.inputConflict, outputConflict := values.outputConflict
    compactionEpoch := s.compactionEpoch }
  modify (·.recordUsage (request.withEvidence modeMetadata))

/-- Change a request when a field of it is missing and known. -/
def fill (missing : Request → Bool) (f : Request → Request) (r : Request × Bool) :
    Request × Bool :=
  if missing r.1 then (f r.1, true) else r

/-- What `resolve_context` makes of one pending request, and whether it changed. -/
def complete (model : Json) (effort : PyStr) (tier : Json) (evidence : Option Evidence)
    (includeTier : Bool) (r : Request) : Request × Bool :=
  let r := fill (fun r => !r.model.truthy && model.truthy)
    (fun r => { r with model, configuredModel := model }) (r, false)
  let r := fill (fun r => unknownValue (.str r.effort) && !unknownValue (.str effort))
    (fun r => { r with effort }) r
  fill (fun r => includeTier && r.serviceTierSource = .settings && unknownValue r.serviceTier &&
      !unknownValue tier)
    (fun r => { r with serviceTier := tier }.withEvidence evidence) r

/-- One round of the loop of `resolve_context`. -/
def resolveRequest (complete : Request → Request × Bool) (turn : Json) (s : Session) (ref : Nat) :
    Session :=
  let (r, changed) := complete (s.request ref)
  let s := { s with
    objects := s.objects.set ref r
    contextRevision := if changed then s.contextRevision + 1 else s.contextRevision }
  if r.lacks then s.leaveUnresolved turn ref else s

def resolveTurn (s : Session) (turn : Json) (includeTier : Bool) : Session :=
  let pending := (s.unresolvedContexts.get? turn).getD []
  let (model, effort) := (s.contexts.get? turn).getD (.str [], unknownText)
  let tier := (s.tierContexts.get? turn).getD (.str unknownText)
  let evidence := (s.tierEvidence.get? turn).getD none
  pending.foldl (resolveRequest (complete model effort tier evidence includeTier) turn)
    { s with unresolvedContexts := s.unresolvedContexts.erase turn }

def resolveContext (turn : Json) (includeTier : Bool) : Py Session Unit := do
  let turn ← Py.ofExcept turn.hashed
  modify (·.resolveTurn turn includeTier)

/-- Remove the requests of `token_count` events when the first record of the
thread arrives. -/
def retract (s : Session) : Session :=
  if !s.modern && s.stored.any Request.legacy then
    let requests := s.requests.filter fun ref => !(s.request ref).legacy
    let keys := (requests.map fun ref => (s.request ref).key).foldl
      (fun keys key => if key ∈ keys then keys else keys ++ [key]) []
    { s with
      requests, keys
      coverageTotal := (requests.map fun ref => (s.request ref).total.getD 0).sum
      unresolvedContexts := s.unresolvedContexts.restrict
        (fun refs => refs.filter fun ref => (s.request ref).key ∈ keys) (!·.isEmpty) }
  else s

/-! ## headers -/

/-- `re.fullmatch` of a character class with a length bound. -/
def fullMatch (allowed : String) (bound : Nat) (s : PyStr) : Bool :=
  0 < s.length && s.length ≤ bound && s.all fun c =>
    c ∈ py allowed || (48 ≤ c.val && c.val ≤ 57) || (65 ≤ c.val && c.val ≤ 90) ||
      (97 ≤ c.val && c.val ≤ 122)

/-- `session_lineage`: the attributes a header sets. -/
def sessionLineage (payload : Json) (threadId : PyStr) (old : Lineage) : Lineage :=
  match payload with
  | .obj header =>
    let get (members : List (PyStr × Json)) (key : String) : Json :=
      (Json.lookup members key).getD .null
    let dict : Json → List (PyStr × Json) := fun v => match v with
      | .obj members => members
      | _ => []
    if get header "id" ≠ .str threadId then old
    else
      let spawn := dict (get (dict (get (dict (get header "source")) "subagent")) "thread_spawn")
      let direct := get header "parent_thread_id"
      let nested := get spawn "parent_thread_id"
      if direct.truthy && nested.truthy && direct.canon ≠ nested.canon then old
      else match direct.orElse nested with
        | .str parent =>
          if parent = threadId || !fullMatch "_.:-" 128 parent then old
          else
            let agentPath := match get spawn "agent_path" with
              | .str path => if path.head? = some 47 && fullMatch "/_-" 256 path.tail then path
                  else old.agentPath
              | _ => old.agentPath
            let agentNickname :=
              match (get header "agent_nickname").orElse (get spawn "agent_nickname") with
              | .str name => if 0 < name.length && name.length ≤ 128 && 10 ∉ name && 13 ∉ name
                  then name else old.agentNickname
              | _ => old.agentNickname
            let spawnDepth := match get spawn "depth" with
              | .int depth => if 0 < depth then some depth else old.spawnDepth
              | _ => old.spawnDepth
            { parentThreadId := parent, agentPath, agentNickname, spawnDepth }
        | _ => old
  | _ => old

/-! ## consuming events -/

section

-- `stamp`, and the text of an event id in an f-string.
variable (stamp : Json → ℚ) (format : Json → PyStr)

def turnContext (event payload : Json) (ts : ℚ) : Py Session Unit := do
  let model := ((← Py.ofExcept (payload.getNone "model")).orElse (.str [])).canon
  modify fun s => { s with configuredModel := model, model := model.orElse s.model }
  let turnId ← Py.ofExcept (payload.getNone "turn_id")
  modify fun s => { s with currentTurn := turnId.canon.orElse s.currentTurn }
  let effort ← Py.ofExcept (do
    let effort := (← payload.getNone "effort").orElse (← payload.getNone "reasoning_effort")
    if effort.truthy then return effort
    let mode := (← payload.getNone "collaboration_mode").orElse (.obj [])
    (← mode.getD "settings" (.obj [])).getNone "reasoning_effort")
  modify fun s => { s with currentEffort := match effort with
    | .str text => text
    | _ => unknownText }
  let turn ← Py.ofExcept (← get).currentTurn.hashed
  let tier ← Py.ofExcept (payload.get "service_tier")
  modify fun s => { s with
    contexts := s.contexts.set turn (s.configuredModel, s.currentEffort)
    tierContexts := s.tierContexts.set turn (match tier with
      | some .null => .str (py "Standard")
      | some value => value.canon
      | none => .str s.currentServiceTier)
    tierEvidence := s.tierEvidence.set turn (match tier with
      | some value => some ⟨value.canon, .turnContext, if value = .null then .clear else .set⟩
      | none => s.currentTierEvidence) }
  if tier.isNone then
    let next ← Py.ofExcept (event.getNone "_next_event_id")
    modify fun s => { s with pendingTierContext := some (turn, ts, next.canon) }
  if turnId.truthy then resolveContext turnId tier.isSome

/-- A prefix and `event.get('event_id') or event.get('ordinal') or len(self.keys)`. -/
def eventKey (s : Session) (text : String) (event : Json) : Except PyError Json := do
  let eventId ← event.getNone "event_id"
  let ordinal ← event.getNone "ordinal"
  let number := if eventId.truthy then format eventId
    else if ordinal.truthy then format ordinal
    else Json.natRepr s.keys.length
  return .str (py text ++ number)

def report (ts : ℚ) (usage : Json) : Py Session Unit := do
  let values ← Py.ofExcept (usageValues usage)
  modify fun s => { s with reportedUsage := some values, reportedTs := ts }

/-- `token_usage_record` of the thread, after the legacy requests are gone. -/
def recordTokenUsage (event payload : Json) (ts : ℚ) : Py Session Unit := do
  let turn ← Py.ofExcept (do (← payload.getD "turn_id" (.str [])).hashed)
  let s ← get
  let (model, effort) := (s.contexts.get? turn).getD (.str [], unknownText)
  let responseId ← Py.ofExcept (payload.getNone "response_id")
  let key ← Py.ofExcept
    (if responseId.truthy then .ok responseId else s.eventKey format "record:" event)
  let usage ← Py.ofExcept (payload.getNone "usage")
  let tier ← Py.ofExcept (payload.get "service_tier")
  addUsage ts key (usage.orElse (.obj [])) model turn effort
    ((tier.map Json.canon).getD ((s.tierContexts.get? turn).getD (.str unknownText)))
    (if tier.isSome then .record else .settings) model ((s.tierEvidence.get? turn).getD none)
  let threadUsage ← Py.ofExcept (payload.getNone "thread_token_usage")
  if ts ≥ (← get).reportedTs && threadUsage.isDict then report ts threadUsage

def tokenUsageRecord (event payload : Json) (ts : ℚ) : Py Session Bool := do
  let s ← get
  let thread ← Py.ofExcept (payload.getD "thread_id" (.str s.id))
  if thread ≠ .str s.id then return false
  else
    modify fun s => { s.retract with modern := true }
    recordTokenUsage format event payload ts
    return true

def settingsTier : Json → Except PyError (Option Json)
  | .obj members => .ok (Json.lookup members "service_tier")
  | .str s => if py "service_tier" <:+: s then .error .typeError else .ok none
  | .arr xs => if Json.str "service_tier" ∈ xs then .error .typeError else .ok none
  | _ => .error .typeError

def threadSettings (event payload : Json) (ts : ℚ) (pending : Option (Json × ℚ × Json)) :
    Py Session Unit := do
  let settings := (← Py.ofExcept (payload.getNone "thread_settings")).orElse (.obj [])
  if let some value := ← Py.ofExcept (settingsTier settings) then
    modify fun s => { s with
      currentServiceTier := match value with
        | .null => py "Standard"
        | .str text => if text.isEmpty then unknownText else text
        | _ => unknownText
      currentTierEvidence :=
        some ⟨value.canon, .appliedSettings, if value = .null then .clear else .set⟩ }
    if let some (turn, at', next) := pending then
      let eventId ← Py.ofExcept (event.getNone "event_id")
      let s ← get
      if turn = s.currentTurn ∧ at' ≤ ts ∧ (!eventId.truthy ∨ next = eventId.canon) then
        modify fun s => { s with
          tierContexts := s.tierContexts.set turn (.str s.currentServiceTier)
          tierEvidence := s.tierEvidence.set turn s.currentTierEvidence }
        modify (·.resolveTurn turn true)

/-- The events of a task. -/
inductive TaskEvent where
  | started
  | finished
  | aborted
deriving DecidableEq, Repr

def TaskEvent.ofType (type : Json) : Option TaskEvent :=
  if type = .str "task_started" then some .started
  else if type = .str "task_complete" ∨ type = .str "task_completed" then some .finished
  else if type = .str "turn_aborted" then some .aborted
  else none

def taskEvent (kind : TaskEvent) (payload : Json) (ts : ℚ) : Py Session Unit := do
  if ts ≥ (← get).stateTs then
    let running : Bool := kind = .started
    modify fun s => { s with stateTs := ts, running, activity := max s.activity ts }
    let turnId ← Py.ofExcept (payload.getNone "turn_id")
    if turnId.truthy then
      let turn ← Py.ofExcept turnId.hashed
      modify fun s =>
        let state : TurnState := {
          turn
          state := match kind with
            | .started => .running
            | .aborted => .aborted
            | .finished => .finished
          startedAt := if running then some ts
            else (s.turnRecords.get? turn).bind (·.startedAt)
          endedAt := if running then none else some ts
          observedAt := ts }
        { s with requestState := some state, turnRecords := s.turnRecords.set turn state }
    else modify fun s => { s with requestState := none }
    if running then
      let turn ← Py.ofExcept (payload.getD "turn_id" (.str []))
      modify fun s => { s with currentTurn := turn.canon, currentEffort := unknownText }

/-- `token_count` before the first record of the thread. -/
def tokenCount (event payload : Json) (ts : ℚ) : Py Session Unit := do
  let info := (← Py.ofExcept (payload.getNone "info")).orElse (.obj [])
  let total := (← Py.ofExcept (info.getNone "total_token_usage")).orElse (.obj [])
  match total.canon with
  | .obj fingerprint =>
    if fingerprint ≠ [] ∧ fingerprint ≠ (← get).totalKey then
      modify fun s => { s with totalKey := fingerprint }
      let s ← get
      let key ← Py.ofExcept (s.eventKey format "legacy:" event)
      let usage ← Py.ofExcept (info.getNone "last_token_usage")
      let turn ← Py.ofExcept s.currentTurn.hashed
      addUsage ts key (usage.orElse (.obj [])) s.configuredModel turn s.currentEffort
        ((s.tierContexts.get? turn).getD (.str unknownText)) .settings (.str []) none
      if ts ≥ (← get).reportedTs then report ts total
  | _ => throw .attributeError

def eventMsg (event payload : Json) (ts : ℚ) (pending : Option (Json × ℚ × Json)) :
    Py Session Unit := do
  let type ← Py.ofExcept (payload.getNone "type")
  let thread ← Py.ofExcept (payload.getNone "thread_id")
  if type = .str "thread_settings_applied" ∧ thread = .str (← get).id then
    threadSettings event payload ts pending
  if let some kind := TaskEvent.ofType type then taskEvent kind payload ts
  if type = .str "token_count" ∧ !(← get).modern then tokenCount format event payload ts

/-- `(self.reported_ts, self.reported_usage.get('total'))`. -/
def currentReport (s : Session) : ℚ × Option Nat := (s.reportedTs, s.reportedUsage.bind (·.total))

/-- Account for a changed report: tokens no request explains. -/
def cover (previous : ℚ × Option Nat) (s : Session) : Session :=
  match s.currentReport with
  | (ts, some total) =>
    if (ts, some total) = previous then s
    else
      let residual : Int := total - s.coverageTotal
      let s := match s.coverageLast with
        | none => { s with coverageInitial := max 0 residual }
        | some (start, last) =>
          if last < residual then
            { s with coverageGaps := s.coverageGaps ++ [CoverageGap.mk start ts (residual - last)] }
          else s
      { s with coverageLast := some (ts, residual) }
  | (_, none) => s

/-- The branches of `consume` by the event's type; whether the rest of
`consume` runs. -/
def dispatch (kind event payload : Json) (ts : ℚ) (pending : Option (Json × ℚ × Json)) :
    Py Session Bool := do
  if kind = .str "session_meta" then
    modify fun s => { s with lineage := sessionLineage payload s.id s.lineage }
    return true
  else if kind = .str "turn_context" then
    turnContext event payload ts
    return true
  else if kind = .str "token_usage_record" then tokenUsageRecord format event payload ts
  else if kind = .str "event_msg" then
    eventMsg format event payload ts pending
    return true
  else return true

def consume (event : Json) : Py Session Unit := do
  let previous := (← get).currentReport
  let ts := stamp (← Py.ofExcept (event.getNone "timestamp"))
  let payload := (← Py.ofExcept (event.getNone "payload")).orElse (.obj [])
  if payload.isDict then
    let kind ← Py.ofExcept (event.getNone "type")
    let type ← Py.ofExcept (payload.getNone "type")
    let pending := (← get).pendingTierContext
    modify fun s => { s with pendingTierContext := none }
    if kind = .str "compacted" ∨ kind = .str "event_msg" ∧ type = .str "context_compacted" then
      modify fun s => { s with compactionEpoch := s.compactionEpoch + 1 }
    else if ← dispatch format kind event payload ts pending then
      modify fun s => pending.elim s fun context => s.resolveTurn context.1 true
      modify (cover previous)

end

end Session

end Codexon
