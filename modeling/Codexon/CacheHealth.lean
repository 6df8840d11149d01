import Codexon.Json

/-!
# Codexon.CacheHealth

`cachemonitor/cache_health.py`: cache incidents of one session.

The calls of a session are compared with up to five earlier calls of the same
segment.  Two comparable drops open an incident, two recovered calls close it.
A `CacheHealth` is resumed with each view of the session: rows already
consumed are recognised by identity, so a row is a dictionary with its `ref`.

Token counts are Python integers; quotients and sums of doubles are rounded
(`PyFloat.nearest`).  `consume` reads a row only through its `Facts`, so it runs
on the rows of a view and on the reduced rows of a checkpoint alike.
-/

namespace Codexon

namespace PyFloat

/-- `a / b` of numbers of ordinary size. -/
def div (a b : ℚ) : ℚ := nearest (a / b)

/-- `a * b` of doubles of ordinary size. -/
def mul (a b : ℚ) : ℚ := nearest (a * b)

end PyFloat

namespace Caching

/-! ## rows -/

/-- What `consume` reads of a row: the fields of `HEALTH_FIELDS_ROW`. -/
structure Facts where
  key : PyStr
  ts : ℚ
  input : Option Nat
  cached : Option Nat
  model : Option PyStr := none
  effort : Option PyStr := none
  serviceTier : Option PyStr := none
  serviceTierSource : Option PyStr := none
  modeConflict : Bool := false
  cachePolicy : Option PyStr := none
  compactionEpoch : Option Nat := none
  observationMissing : Bool := false
  cachePolicyConflict : Bool := false
  modelConflict : Bool := false
  inputConflict : Bool := false
deriving DecidableEq, Repr

/-- A row of a session view.  `ref` is the identity that `is` compares. -/
structure Call extends Facts where
  ref : Nat
  purpose : Option PyStr := none
  sessionOrdinal : Nat := 0
deriving DecidableEq, Repr

/-- Rows that carry the facts of a call. -/
class HasFacts (ρ : Type) where
  facts : ρ → Facts

instance : HasFacts Facts := ⟨id⟩

instance : HasFacts Call := ⟨Call.toFacts⟩

export HasFacts (facts)

def keyOf {ρ : Type} [HasFacts ρ] (row : ρ) : PyStr := (facts row).key

/-- A text, unless it is missing or empty: `x or None`. -/
def someText (x : Option PyStr) : Option PyStr := x.filter (· ≠ [])

/-- `'미확인'`. -/
def unknownTier : PyStr := py "미확인"

def requestTier (r : Facts) : PyStr :=
  if r.modeConflict || r.serviceTierSource = some (py "conflict") then unknownTier
  else
    match r.serviceTier with
    | none => unknownTier
    | some tier =>
      if tier = py "priority" ∨ tier = py "fast" then py "Fast"
      else if tier = py "default" ∨ tier = py "standard" then py "Standard"
      else if tier = [] then unknownTier
      else tier

/-- The conditions under which calls are compared. -/
structure Segment where
  model : Option PyStr
  effort : Option PyStr
  tier : PyStr
  cachePolicy : Option PyStr
deriving DecidableEq, Repr

def segment (r : Facts) : Segment :=
  ⟨someText r.model, someText r.effort, requestTier r, r.cachePolicy⟩

/-- `value not in (None, '', '미확인')`. -/
def knownValue (x : Option PyStr) : Bool := x ≠ none ∧ x ≠ some [] ∧ x ≠ some unknownTier

def Segment.known (s : Segment) : Bool :=
  knownValue s.model && knownValue s.effort && knownValue (some s.tier)

def Facts.valid (r : Facts) : Bool :=
  match r.input, r.cached with
  | some i, some c =>
    0 < i && c ≤ i && !(r.observationMissing || r.cachePolicyConflict || r.modelConflict ||
      r.modeConflict || r.inputConflict)
  | _, _ => false

/-- `row['input']` of a valid row. -/
def Facts.inputTokens (r : Facts) : Nat := r.input.getD 0

/-- `row['cached']` of a valid row. -/
def Facts.cachedTokens (r : Facts) : Nat := r.cached.getD 0

/-! ## incidents -/

/-- The `occurrence_keys` of an incident: the list itself, or the count that a
checkpoint keeps in its place with the keys added since (`_Keys`). -/
inductive Occurrences where
  | keys (ks : List PyStr)
  | tally (count : Nat) (added : List PyStr)
deriving DecidableEq, Repr

namespace Occurrences

def len : Occurrences → Nat
  | keys ks => ks.length
  | tally count _ => count

def append (key : PyStr) : Occurrences → Occurrences
  | keys ks => keys (ks ++ [key])
  | tally count added => tally (count + 1) (added ++ [key])

def list : Occurrences → List PyStr
  | keys ks => ks
  | tally _ added => added

end Occurrences

/-- The states: `판정 보류`, `캐시 저하 의심`, `회복 확인`, `캐시 읽기 0`. -/
inductive HealthState where
  | pending
  | suspected
  | recovered
  | zeroRead
deriving DecidableEq, Repr

/-- The reasons of a state. -/
inductive HealthReason where
  /-- `비교 표본 부족` -/
  | fewSamples
  /-- `필수 관측 누락 또는 조건 충돌` -/
  | unobserved
  /-- `동일 조건의 유효 호출 2회 회복` -/
  | recoveredTwice
  /-- `저하 호출 {calls}회, 기준 {baseline}호출` -/
  | lowered (calls baseline : Nat)
  /-- `연속 저하 1회: 다음 유효 관측 필요` -/
  | loweredOnce
  /-- `반복 저하 근거 없음` -/
  | noRepeat
deriving DecidableEq, Repr

/-- The scalars of an incident dictionary (`_head`); its `state` is always
`캐시 저하 의심`. -/
structure EventHead where
  id : PyStr
  firstKey : PyStr
  latestKey : PyStr
  ts : ℚ
  updatedAt : ℚ
  count : Nat
  segment : Segment
  baselineRead : ℚ
  baselineRate : ℚ
  recoveryKey : Option PyStr := none
  endedAt : Option ℚ := none
  state : HealthState := .suspected
  resolved : Bool := false
deriving DecidableEq, Repr

/-- An incident dictionary without its occurrences (`_event_fixed`). -/
structure EventFixed extends EventHead where
  baselineKeys : List PyStr
  recoveryKeys : List PyStr := []
deriving DecidableEq, Repr

/-- An incident dictionary. -/
structure Incident extends EventFixed where
  occurrenceKeys : Occurrences
deriving DecidableEq, Repr

/-! ## the classifier -/

/-- A `CacheHealth`. -/
structure CacheHealth (ρ : Type) where
  rows : List ρ := []
  baseline : List ρ := []
  scope : Option Segment := none
  incident : Option Incident := none
  last : Option ρ := none
  count : Nat := 0
  recovery : Nat := 0
  candidate : Nat := 0
  missing : Nat := 0
  candidateRows : List ρ := []
  recoveryRows : List ρ := []
  events : List Incident := []
  state : HealthState := .pending
  reason : HealthReason := .fewSamples
deriving DecidableEq

/-- `deque(maxlen=5).append`. -/
def pushFive {α : Type} (xs : List α) (x : α) : List α := (xs ++ [x]).drop (xs.length + 1 - 5)

namespace CacheHealth

variable {ρ : Type} [HasFacts ρ]

/-- `reset`: everything but the rows. -/
def reset (s : CacheHealth ρ) : CacheHealth ρ := { rows := s.rows }

/-- The comparison starts anew: another segment, another compaction epoch, or
less input than was already cached. -/
def changes (s : CacheHealth ρ) (row : ρ) : Bool :=
  some (segment (facts row)) ≠ s.scope ||
    match s.last with
    | none => false
    | some last =>
      (facts row).compactionEpoch ≠ (facts last).compactionEpoch ||
        ((facts row).valid && (facts last).valid &&
          (facts row).inputTokens < (facts last).cachedTokens)

def restart (s : CacheHealth ρ) (row : ρ) : CacheHealth ρ :=
  { s with
    baseline := [], scope := some (segment (facts row)), candidateRows := [], recoveryRows := []
    candidate := 0, recovery := 0, incident := none }

def cachedSum (base : List ρ) : Nat := (base.map fun r => (facts r).cachedTokens).sum

def inputSum (base : List ρ) : Nat := (base.map fun r => (facts r).inputTokens).sum

def baseRate (base : List ρ) : ℚ :=
  if inputSum base = 0 then 0 else PyFloat.div (cachedSum base) (inputSum base)

def baseRead (base : List ρ) : ℚ :=
  if base = [] then 0 else PyFloat.div (cachedSum base) base.length

def rowRate (row : ρ) : ℚ := PyFloat.div (facts row).cachedTokens (facts row).inputTokens

/-- `.30-1e-12`. -/
def dropLimit : ℚ := PyFloat.sub (PyFloat.nearest (3 / 10)) (PyFloat.nearest (1 / 10 ^ 12))

def comparable (base : List ρ) (scope : Segment) : Bool :=
  3 ≤ base.length && scope.known && 0 < baseRead base

def bad (base : List ρ) (scope : Segment) (row : ρ) : Bool :=
  comparable base scope && dropLimit ≤ PyFloat.sub (baseRate base) (rowRate row) &&
    (facts row).cachedTokens ≤ PyFloat.mul (baseRead base) (1 / 2)

def recovers (event : Incident) (row : ρ) : Bool :=
  0 < (facts row).cachedTokens &&
    PyFloat.mul event.baselineRead (PyFloat.nearest (8 / 10)) ≤ (facts row).cachedTokens &&
    PyFloat.sub (PyFloat.sub event.baselineRate (PyFloat.nearest (1 / 10)))
      (PyFloat.nearest (1 / 10 ^ 12)) ≤ rowRate row

def occur (event : Incident) (row : ρ) : Incident :=
  { event with
    occurrenceKeys := event.occurrenceKeys.append (keyOf row)
    count := (event.occurrenceKeys.append (keyOf row)).len
    latestKey := keyOf row, updatedAt := (facts row).ts }

/-- `event.update(resolved=True, …)`. -/
def resolve (event : Incident) (recovery : List ρ) (row : ρ) : Incident :=
  { event with
    resolved := true, endedAt := some (facts row).ts
    recoveryKeys := recovery.map keyOf, recoveryKey := some (keyOf row) }

/-- Assign to the incident's dictionary, which is also the last of `events`
unless these were cleared. -/
def amend (s : CacheHealth ρ) (event : Incident) : CacheHealth ρ :=
  { s with
    incident := some event
    events := if s.events = [] then [] else s.events.dropLast ++ [event] }

def follow (s : CacheHealth ρ) (event : Incident) (isBad : Bool) (row : ρ) : CacheHealth ρ :=
  let recovery := if recovers event row then s.recoveryRows ++ [row] else []
  let event := if isBad then occur event row else event
  if 2 ≤ recovery.length then
    { s.amend (resolve event recovery row) with
      recoveryRows := recovery
      state := .recovered, reason := .recoveredTwice
      baseline := recovery.foldl pushFive [], candidateRows := [] }
  else
    { s.amend event with
      recoveryRows := recovery
      state := .suspected, reason := .lowered event.count event.baselineKeys.length }

def opened (base candidates : List ρ) (first row : ρ) (scope : Segment) : Incident where
  id := py "cache:" ++ keyOf first
  firstKey := keyOf first
  latestKey := keyOf row
  ts := (facts first).ts
  updatedAt := (facts row).ts
  count := candidates.length
  segment := scope
  baselineRead := baseRead base
  baselineRate := baseRate base
  baselineKeys := base.map keyOf
  occurrenceKeys := .keys (candidates.map keyOf)

def suspect (s : CacheHealth ρ) (scope : Segment) (row : ρ) : CacheHealth ρ :=
  let candidates := s.candidateRows ++ [row]
  if 2 ≤ candidates.length then
    let event := opened s.baseline candidates (s.candidateRows.headD row) row scope
    { s with
      candidateRows := candidates, count := s.count + 1, recoveryRows := []
      incident := some event, events := s.events ++ [event]
      state := .suspected, reason := .lowered candidates.length s.baseline.length }
  else
    { s with candidateRows := candidates, state := .pending, reason := .loweredOnce }

def compare (s : CacheHealth ρ) (scope : Segment) (row : ρ) : CacheHealth ρ :=
  { s with
    candidateRows := []
    state := if (facts row).cachedTokens = 0 then .zeroRead else .pending
    reason := if comparable s.baseline scope then .noRepeat else .fewSamples
    baseline := pushFive s.baseline row }

def lacking (s : CacheHealth ρ) (row : ρ) : CacheHealth ρ :=
  { s with
    state := .pending, reason := .unobserved
    candidateRows := [], recoveryRows := [], candidate := 0, recovery := 0
    missing := s.missing + 1, last := some row }

def openIncident (s : CacheHealth ρ) : Option Incident := s.incident.filter fun e => !e.resolved

def assess (s : CacheHealth ρ) (row : ρ) : CacheHealth ρ :=
  let scope := segment (facts row)
  let isBad := bad s.baseline scope row
  match s.openIncident with
  | some event => s.follow event isBad row
  | none => if isBad then s.suspect scope row else s.compare scope row

def settle (s : CacheHealth ρ) (row : ρ) : CacheHealth ρ :=
  { s with
    candidate := s.candidateRows.length, recovery := s.recoveryRows.length, last := some row }

def consume (s : CacheHealth ρ) (row : ρ) : CacheHealth ρ :=
  let s := if s.changes row then s.restart row else s
  if (facts row).valid then (s.assess row).settle row else s.lacking row

/-! ## views -/

/-- The calls of the segment at the end of `rows`. -/
def recentCalls (scope : Option Segment) (rows : List ρ) : List ρ :=
  (rows.reverse.take 5).takeWhile fun r => some (segment (facts r)) = scope

/-- The fields of a report that come from the recent calls: `recent_rate`,
`valid`, `sample` and `partial`. -/
structure Recent where
  recentRate : Option ℚ
  valid : Nat
  sample : Nat
  isPartial : Bool
deriving DecidableEq, Repr

def recentReport (scope : Option Segment) (rows : List ρ) : Recent :=
  let recent := recentCalls scope rows
  let valid := recent.filter fun r => (facts r).valid
  { recentRate :=
      if inputSum valid = 0 then none
      else some (PyFloat.mul (PyFloat.div (cachedSum valid) (inputSum valid)) 100)
    valid := valid.length, sample := recent.length, isPartial := valid.length ≠ recent.length }

/-- What `update` returns, always provisional. -/
structure Report extends Recent where
  state : HealthState
  reason : HealthReason
  incident : Option Incident
  incidents : Nat
  events : List Incident
deriving DecidableEq, Repr

end CacheHealth

/-- `row.get('purpose') not in ('maintenance', 'diagnostic')`. -/
def Call.eligible (r : Call) : Bool :=
  r.purpose ≠ some (py "maintenance") ∧ r.purpose ≠ some (py "diagnostic")

namespace CacheHealth

def ordered (rows : List Call) : List Call :=
  (rows.filter Call.eligible).mergeSort fun a b => a.ts ≤ b.ts

def report (s : CacheHealth Call) : Report :=
  { recentReport s.scope s.rows with
    state := s.state, reason := s.reason, incident := s.incident
    incidents := s.events.length, events := s.events }

def update (s : CacheHealth Call) (rows : List Call) : CacheHealth Call × Report :=
  let rows := ordered rows
  let s :=
    if rows.length < s.rows.length || (s.rows.zip rows).any fun (a, b) => a.ref ≠ b.ref then
      { s.reset with rows := [] }
    else s
  let s := (rows.drop s.rows.length).foldl consume s
  let s := { s with rows }
  (s, s.report)

end CacheHealth

end Caching

end Codexon
