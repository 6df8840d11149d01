import Codexon.DictMerge
import Codexon.Json
import Mathlib.Data.List.Dedup

/-!
# Codexon.EvidenceJoin

The join of a call with what was observed of its response: `EvidenceSummary`, and
`EvidenceReader.evidence_rows` and `enrich_home`, of `cachemonitor/model_evidence.py`.

The records of a response are the latest of each attempt.  The summary keeps some of them, and the
join is computed from those.
-/

namespace Codexon.EvidenceJoin

instance lawfulFlag : LawfulBEq (Nat × Bool) := inferInstance

/-! ## records -/

/-- A column of a record. -/
inductive Value where
  | null
  | text (t : PyStr)
  | number (n : ℚ)
deriving DecidableEq

def Value.truthy : Value → Bool
  | .null => false
  | .text t => t ≠ []
  | .number n => n ≠ 0

/-- The columns other than `seq` and `ts`. -/
inductive Column where
  | requestedModel
  | responseModel
  | requestedServiceTier
  | responseServiceTier
  | cachePolicy
  | transport
  | wireServiceTierPresent
  | requestedEffort
  | responseEffort
  | status
  | conflict
  | requestedEffortConflict
  | responseEffortConflict
  | observationMissing
  | requestObservedAt
  | generationObservedAt
  | completedObservedAt
  | generationLatencyMs
  | completionLatencyMs
deriving DecidableEq

/-- `observation_record`; a column that is absent is `None`. -/
structure Record (τ : Type) where
  seq : Nat
  ts : τ
  get : Column → Value

/-- The columns of a row of a call that the join reads; an item may be absent, or `None`. -/
structure Row where
  configuredEffort : Option Value := none
  effort : Option Value := none
  configuredModel : Option Value := none
  model : Option Value := none

def ofText (text : String) : Value := .text (py text)

/-- `value or ''` -/
def orEmpty (value : Value) : Value := if value.truthy then value else .text []

section Join

variable {τ : Type} [LinearOrder τ]

def Record.completed (r : Record τ) : Bool := r.get .status = ofText "completed"

def Record.paired (r : Record τ) : Bool :=
  (r.get .requestedModel).truthy && (r.get .responseModel).truthy

def Record.missing (gaps : List (τ × τ)) (r : Record τ) : Bool :=
  (r.get .observationMissing).truthy || gaps.any fun gap => gap.1 ≤ r.ts && r.ts ≤ gap.2

/-! ## `EvidenceSummary` -/

def fields : List Column := [.requestedModel, .responseModel, .requestedServiceTier,
  .responseServiceTier, .cachePolicy, .transport, .wireServiceTierPresent, .requestedEffort,
  .responseEffort]

def Record.counted (r : Record τ) (field : Column) : Option Value :=
  let value := r.get field
  match field with
  | .transport =>
    if value = ofText "WebSocket" ∨ value = ofText "HTTP/SSE" then some value else none
  | .wireServiceTierPresent => if value = .null then none else some value
  | .cachePolicy => some (if value.truthy then value else .null)
  | _ => if value.truthy then some value else none

def Record.flags (gaps : List (τ × τ)) (r : Record τ) : List Bool :=
  [r.missing gaps, (r.get .conflict).truthy, r.completed, r.paired, r.completed && r.paired,
    r.completed && r.paired && (r.get .responseServiceTier).truthy,
    (r.get .requestedEffortConflict).truthy, (r.get .responseEffortConflict).truthy,
    r.completed && r.paired && (r.get .responseEffort).truthy]

structure Summary (τ : Type) where
  records : Dict Nat (Record τ) := {}
  values : Column → List Value := fun _ => []
  flags : List (Nat × Bool) := []
  first : List (Record τ) := []
  earliest : Option (Record τ) := none
  latest : Option (Record τ) := none

/-- `if value not in values and len(values)<2` -/
def fresh (values : List Value) (value : Option Value) : List Value :=
  match value with
  | some value => if value ∉ values ∧ values.length < 2 then [value] else []
  | none => []

def Summary.add (gaps : List (τ × τ)) (s : Summary τ) (record : Record τ) : Summary τ :=
  let more := fun field => fresh (s.values field) (record.counted field)
  let flags := ((record.flags gaps).zipIdx.map fun flag => (flag.2, flag.1)).filter (· ∉ s.flags)
  let keep := fields.any (fun field => more field ≠ []) || flags ≠ []
  { records := if keep then s.records.set record.seq record else s.records
    values := fun field => if field ∈ fields then s.values field ++ more field else s.values field
    flags := s.flags ++ flags
    first := if s.first.length < 2 then s.first ++ [record] else s.first
    earliest :=
      match s.earliest with
      | some earliest => if record.ts < earliest.ts then some record else some earliest
      | none => some record
    latest :=
      match s.latest with
      | some latest => if latest.seq < record.seq then some record else some latest
      | none => some record }

def Summary.rows (s : Summary τ) : List (Record τ) :=
  let more := s.first ++ s.earliest.toList ++ s.latest.toList
  (s.records.update (more.map fun r => (r.seq, r))).entries.map Prod.snd

/-- `evidence_rows`: what is kept of the records of a response. -/
def evidenceRows (gaps : List (τ × τ)) (records : List (Record τ)) : List (Record τ) :=
  (records.foldl (Summary.add gaps) {}).rows

/-! ## `enrich_home` -/

def valuesOf (evidence : List (Record τ)) (field : Column) : List Value :=
  (evidence.filterMap (·.counted field)).dedup

/-- `next(iter(values)) if len(values)==1` -/
def single (values : List Value) : Option Value :=
  match values with
  | [value] => some value
  | _ => none

/-- `max(evidence, key=lambda e: e['seq'])` -/
def latestOf (evidence : List (Record τ)) : Option (Record τ) :=
  evidence.foldl (fun latest r =>
    match latest with
    | some latest => if latest.seq < r.seq then some r else some latest
    | none => some r) none

structure Transport (τ : Type) where
  transport : Value
  source : Value
  ts : Option τ
  evidence : Value

structure Mode where
  serviceTier : Value
  evidence : Value
  source : Value

structure Timing where
  requestObservedAt : Value
  generationObservedAt : Value
  completedObservedAt : Value
  generationLatencyMs : Value
  completionLatencyMs : Value

structure Effort where
  configuredEffort : Value
  requestedEffort : Value
  responseEffort : Value
  requestedEffortConflict : Bool
  responseEffortConflict : Bool
  requestedEffortSource : Value
  responseEffortSource : Value
  responseEffortConfirmed : Bool
  effort : Value

/-- The fields that the join adds to a row; those of a part that is `none` are not added. -/
structure Joined (τ : Type) where
  transport : Option (Transport τ)
  mode : Option Mode
  responseServiceTier : Option Value
  responseTierConfirmed : Bool
  timing : Option Timing
  effort : Effort
  observationMissing : Bool
  wireObserved : Bool
  wireServiceTierPresent : Option Bool
  analysisModel : Value
  configuredModel : Value
  modelSource : Value
  modelConflict : Bool
  modeConflict : Bool
  timingValid : Bool
  cachePolicy : Option Value
  cachePolicyConflict : Bool
  requestedModel : Value
  responseModel : Value
  modelMatch : Value
  modelEvidence : Value
  responseStatus : Value
  modelAlertConfirmed : Bool
  modelObservationTs : Option τ

/-- `미확인` -/
def unknown : Value := ofText "미확인"

/-- `UNKNOWN` -/
def unverifiable : Value := ofText "확인 불가"

def compare (requested responded : Value) (conflict : Bool) : Value :=
  if conflict || !requested.truthy || !responded.truthy then unverifiable
  else if requested = responded then ofText "일치" else ofText "불일치"

def Record.timing (r : Record τ) : Timing where
  requestObservedAt := r.get .requestObservedAt
  generationObservedAt := r.get .generationObservedAt
  completedObservedAt := r.get .completedObservedAt
  generationLatencyMs := r.get .generationLatencyMs
  completionLatencyMs := r.get .completionLatencyMs

/-- `{**transport}` -/
def joinTransport (evidence : List (Record τ)) : Option (Transport τ) :=
  let transports := valuesOf evidence .transport
  if transports ≠ [] then
    let exact := single transports
    some {
      transport := exact.getD unknown
      source := if exact.isSome then ofText "response_id" else ofText "conflict"
      ts := (latestOf evidence).map Record.ts
      evidence :=
        if exact.isSome then ofText "프록시 관측, 응답 ID 일치"
        else ofText "동일 응답 ID의 연결 방식 관측 충돌" }
  else none

def joinMode (tiers : List Value) : Option Mode :=
  let modeConflict := decide (1 < tiers.length)
  if tiers ≠ [] || modeConflict then
    some {
      serviceTier := (single tiers).getD unknown
      evidence :=
        if modeConflict then ofText "요청 등급 관측 충돌" else ofText "요청 등급 관측"
      source := if modeConflict then ofText "conflict" else ofText "wire" }
  else none

def joinEffort (row : Row) (evidence : List (Record τ)) (conflict : Bool) : Effort :=
  let requestedEfforts := valuesOf evidence .requestedEffort
  let responseEfforts := valuesOf evidence .responseEffort
  let requestedConflict := decide (1 < requestedEfforts.length) ||
    evidence.any fun e => (e.get .requestedEffortConflict).truthy
  let responseConflict := decide (1 < responseEfforts.length) ||
    evidence.any fun e => (e.get .responseEffortConflict).truthy
  let configured := orEmpty ((row.configuredEffort.or row.effort).getD .null)
  let context := if configured ≠ unknown ∧ configured ≠ unverifiable then configured else .text []
  let requested :=
    if requestedConflict then .text []
    else if requestedEfforts ≠ [] then (single requestedEfforts).getD (.text []) else context
  let response :=
    if responseConflict then .text [] else (single responseEfforts).getD (.text [])
  { configuredEffort := configured
    requestedEffort := requested
    responseEffort := response
    requestedEffortConflict := requestedConflict
    responseEffortConflict := responseConflict
    requestedEffortSource :=
      if requestedConflict then ofText "conflict"
      else if requestedEfforts ≠ [] then ofText "wire"
      else if context.truthy then ofText "turn_context" else ofText "unknown"
    responseEffortSource :=
      if responseConflict then ofText "conflict"
      else if response.truthy then ofText "wire" else ofText "unknown"
    responseEffortConfirmed := evidence ≠ [] && !conflict && response.truthy &&
      !responseConflict &&
      evidence.all fun e => e.completed && e.paired && (e.get .responseEffort).truthy
    effort := if requested.truthy then requested else unknown }

def completedPair (evidence : List (Record τ)) (requested responded : Value) : Bool :=
  evidence.any fun e => e.completed && e.get .requestedModel = requested &&
    e.get .responseModel = responded

/-- `enrich_home`: what is joined to a row. -/
def join (gaps : List (τ × τ)) (row : Row) (evidence : List (Record τ)) : Joined τ :=
  let missing := evidence.any (·.missing gaps)
  let req := valuesOf evidence .requestedModel
  let res := valuesOf evidence .responseModel
  let conflict := missing || decide (1 < req.length) || decide (1 < res.length) ||
    evidence.any fun e => (e.get .conflict).truthy
  let paired := evidence.any Record.paired
  let requestedTiers := valuesOf evidence .requestedServiceTier
  let policies := valuesOf evidence .cachePolicy
  let policy := if missing then none else single policies
  let responseTiers := valuesOf evidence .responseServiceTier
  let requested := (single req).getD (.text [])
  let responded := (single res).getD (.text [])
  let timingValid := evidence.length = 1 && !conflict && evidence.head?.any Record.completed
  let modelConflict := decide (1 < req.length)
  let configured := orEmpty ((row.configuredModel.or row.model).getD .null)
  let complete := evidence ≠ [] && evidence.all Record.completed
  let presence := valuesOf evidence .wireServiceTierPresent
  { transport := joinTransport evidence
    mode := joinMode requestedTiers
    responseServiceTier := single responseTiers
    responseTierConfirmed := evidence ≠ [] && !conflict && (single responseTiers).isSome &&
      requestedTiers.length ≤ 1 &&
      evidence.all fun e => e.completed && e.paired && (e.get .responseServiceTier).truthy
    timing := if timingValid then evidence.head?.map Record.timing else none
    effort := joinEffort row evidence conflict
    observationMissing := missing
    wireObserved := evidence ≠ []
    wireServiceTierPresent :=
      match single presence with
      | some present => some present.truthy
      | none => if requestedTiers ≠ [] ∧ presence = [] then some true else none
    analysisModel :=
      if modelConflict then .text [] else if requested.truthy then requested else configured
    configuredModel := configured
    modelSource :=
      if modelConflict then ofText "conflict"
      else if requested.truthy then ofText "wire"
      else if configured.truthy then ofText "settings" else ofText "unknown"
    modelConflict := modelConflict
    modeConflict := 1 < requestedTiers.length
    timingValid := timingValid
    cachePolicy := policy.filter Value.truthy
    cachePolicyConflict := 1 < policies.length
    requestedModel := requested
    responseModel := responded
    modelMatch :=
      if modelConflict || conflict && !missing then ofText "관측 충돌"
      else if missing then ofText "관측 누락"
      else compare requested responded (!complete || !paired)
    modelEvidence :=
      if missing then ofText "저장 관측 누락"
      else if conflict then ofText "관측 충돌"
      else if evidence ≠ [] then ofText "응답 ID 연결" else ofText "관측 없음"
    responseStatus := ((latestOf evidence).map (·.get .status)).getD (.text [])
    modelAlertConfirmed := requested.truthy && responded.truthy && requested ≠ responded &&
      !conflict && completedPair evidence requested responded && evidence.all Record.completed
    modelObservationTs := (evidence.map Record.ts).min? }

end Join

end Codexon.EvidenceJoin
