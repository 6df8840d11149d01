import Mathlib.Data.Prod.Lex
import Codexon.Dict
import Codexon.Json

/-!
# Codexon.SpeedHealth

`cachemonitor/speed_health.py`: speed alerts from completed calls.

`classify` passes once over the calls of all sessions in time order.  The tracker
`SpeedHealth` keeps one reducer per peer pool and advances it by the calls that
were appended; a correction replays the pools it touches.  Both judge a call in
the same way (`judge`), and speeds are exact quotients.
-/

namespace Codexon.Speed

/-! ## calls -/

/-- What is read of a prepared history row.  Token counts that are no tokens and
latencies that are not finite are `none`. -/
structure Call where
  key : PyStr
  ts : ℚ
  input : Option Nat
  cached : Option Nat
  output : Option Nat
  reasoning : Option Nat := none
  /-- `completion_latency_ms` -/
  latency : Option ℚ
  /-- `response_status == 'completed'` -/
  completed : Bool := true
  timingValid : Bool := true
  observationMissing : Bool := false
  requestedModel : Option PyStr := none
  analysisModel : Option PyStr := none
  model : Option PyStr := none
  effort : Option PyStr := none
  serviceTier : Option PyStr := none
  serviceTierSource : Option PyStr := none
  transport : Option PyStr := none
  transportSource : Option PyStr := none
  modelConflict : Bool := false
  outputConflict : Bool := false
  inputConflict : Bool := false
  modeConflict : Bool := false
  cachePolicyConflict : Bool := false
deriving DecidableEq

def outputSpeed (c : Call) : Option ℚ :=
  if !c.completed || !c.timingValid || c.observationMissing || c.modelConflict ||
      c.outputConflict || c.transportSource = some (py "conflict") then none
  else
    match c.output, c.latency with
    | some output, some elapsed =>
      if elapsed ≤ 0 then none
      else
        match c.reasoning with
        | some reasoning => if output < reasoning then none else some (output / (elapsed / 1000))
        | none => some (output / (elapsed / 1000))
    | _, _ => none

def speedOf (c : Call) : ℚ := (outputSpeed c).getD 0

/-- `output_speed_summary(rows)['value']`: output over the time of all calls. -/
def summaryValue (calls : List Call) : ℚ :=
  let valid := calls.filter fun c => (outputSpeed c).isSome
  (valid.map fun c => (c.output.getD 0 : ℚ)).sum / (valid.map fun c => c.latency.getD 0 / 1000).sum

/-- `statistics.median`, of at least one value. -/
def median (values : List ℚ) : ℚ :=
  let sorted := values.mergeSort (· ≤ ·)
  let n := sorted.length
  if n % 2 = 1 then sorted.getD (n / 2) 0
  else (sorted.getD (n / 2 - 1) 0 + sorted.getD (n / 2) 0) / 2

def orText (x y : Option PyStr) : Option PyStr := if (x.filter (· ≠ [])).isSome then x else y

/-- `'미확인'`. -/
def unknownTier : PyStr := py "미확인"

def requestTier (c : Call) : PyStr :=
  if c.modeConflict || c.serviceTierSource = some (py "conflict") then unknownTier
  else
    match c.serviceTier with
    | none => unknownTier
    | some tier =>
      if tier = py "priority" ∨ tier = py "fast" then py "Fast"
      else if tier = py "default" ∨ tier = py "standard" then py "Standard"
      else if tier = [] then unknownTier
      else tier

/-- The observed conditions and sizes under which calls are compared. -/
structure Condition where
  model : PyStr
  effort : PyStr
  tier : PyStr
  transport : PyStr
  inputBand : Nat
  outputBand : Nat
  /-- At least three quarters of the input was cached. -/
  mostlyCached : Bool
deriving DecidableEq

/-- A text that says something: not in `(None, '', '미확인', '확인 불가')`. -/
def known (x : Option PyStr) : Option PyStr :=
  x.filter fun x => decide (x ≠ [] ∧ x ≠ unknownTier ∧ x ≠ py "확인 불가")

def inputBand (input : Nat) : Nat :=
  if input < 10000 then 0
  else if input < 50000 then 1
  else if input < 100000 then 2
  else if input < 200000 then 3
  else if input < 272001 then 4
  else 5

def outputBand (output : Nat) : Nat :=
  if output < 512 then 0 else if output < 2048 then 1 else if output < 8192 then 2 else 3

def scope (c : Call) : Option Condition := do
  let _ ← outputSpeed c
  let input ← c.input
  let output ← c.output
  let cached ← c.cached
  if input = 0 ∨ output < 128 ∨ input < cached ∨ c.transportSource ≠ some (py "response_id") ∨
      c.inputConflict ∨ c.modeConflict ∨ c.cachePolicyConflict then none
  let model ← known (orText c.requestedModel (orText c.analysisModel c.model))
  let effort ← known c.effort
  let tier ← known (some (requestTier c))
  let transport ← known c.transport
  return ⟨model, effort, tier, transport, inputBand input, outputBand output,
    3 * input ≤ 4 * cached⟩

/-! ## judging a call -/

def minBaseline : Nat := 8
def maxBaseline : Nat := 30
def maxAge : ℚ := 7 * 86400
def slowCalls : Nat := 3
def recoveryCalls : Nat := 2

/-- What a call is compared with. -/
structure Baseline where
  speed : ℚ
  threshold : ℚ
  count : Nat
  keys : List PyStr
  /-- `baseline_source`: from the session itself -/
  own : Bool
deriving DecidableEq

/-- `baseline`, with its source. -/
def baseline (calls : List Call) (own : Bool) : Baseline :=
  let values := calls.map speedOf
  let center := median values
  let deviation := median (values.map fun v => |v - center|)
  let average := summaryValue calls
  { speed := average
    threshold := min (average / 2) (center - 3 * (7413 / 5000) * deviation)
    count := calls.length
    keys := calls.map Call.key
    own }

abbrev Pool := List (PyStr × Call)

def lastN {α : Type} (n : Nat) (l : List α) : List α := l.drop (l.length - n)

/-- `deque(maxlen=MAX_BASELINE * 4).append`. -/
def Pool.append (pool : Pool) (sid : PyStr) (c : Call) : Pool :=
  lastN (maxBaseline * 4) (pool ++ [(sid, c)])

def Pool.expire (pool : Pool) (ts : ℚ) : Pool := pool.dropWhile fun p => maxAge < ts - p.2.ts

/-- The baseline that a pool gives a session, if it has enough calls. -/
def Pool.reference (pool : Pool) (sid : PyStr) (ts : ℚ) : Option Baseline :=
  let earlier := pool.filter fun p => p.2.ts < ts
  let own := lastN maxBaseline ((earlier.filter (·.1 = sid)).map (·.2))
  let peers := lastN maxBaseline ((earlier.filter (·.1 ≠ sid)).map (·.2))
  if minBaseline ≤ own.length then some (baseline own true)
  else if minBaseline ≤ peers.length then some (baseline peers false)
  else none

/-- The state of a session in a peer pool.  `slow` holds the baseline and the slow
calls so far; `active` an alert with its calls. -/
inductive Phase where
  | calm
  | slow (base : Baseline) (recent : List Call)
  | active (base : Baseline) (recent recovery : List Call) (incident : PyStr)
deriving DecidableEq

/-- An active result. -/
structure Alert where
  base : Baseline
  recentSpeed : ℚ
  recentCount : Nat
  dropPercent : ℚ
  recentKeys : List PyStr
  incident : PyStr
  call : PyStr
  model : PyStr
  effort : PyStr
  tier : PyStr
deriving DecidableEq

def alertOf (condition : Condition) (base : Baseline) (recent : List Call) (incident : PyStr)
    (c : Call) : Alert :=
  let average := summaryValue recent
  { base
    recentSpeed := average
    recentCount := recent.length
    dropPercent := max 0 ((1 - average / base.speed) * 100)
    recentKeys := recent.map Call.key
    incident
    call := c.key
    model := condition.model
    effort := condition.effort
    tier := condition.tier }

def slowAgainst (base : Baseline) (c : Call) : Bool :=
  0 ≤ speedOf c && speedOf c ≤ base.threshold && 0 < base.threshold

/-- The common part of `classify` and `_ScopeReplay.advance`: one call of a session
in its peer pool.  Gives the pool, the state of the session and its result, where
`none` is not active. -/
def judge (condition : Condition) (sid : PyStr) (pool : Pool) (phase : Phase) (c : Call) :
    Pool × Phase × Option Alert :=
  let pool := pool.expire c.ts
  match phase with
  | .active base recent recovery incident =>
    let recovery := if base.speed * (4 / 5) ≤ speedOf c then recovery ++ [c] else []
    let recent := lastN slowCalls (recent ++ [c])
    if recoveryCalls ≤ recovery.length then
      -- recovered calls seed the next baseline
      (recovery.foldl (fun pool c => pool.append sid c) pool, .calm, none)
    else (pool, .active base recent recovery incident,
      some (alertOf condition base recent incident c))
  | .slow base recent =>
    if slowAgainst base c then begun pool base (recent ++ [c])
    else (pool.append sid c, .calm, none)
  | .calm =>
    match pool.reference sid c.ts with
    | none => (pool.append sid c, .calm, none)
    | some base =>
      if slowAgainst base c then begun pool base [c] else (pool.append sid c, .calm, none)
where
  /-- Slow calls, which are an alert from the third on. -/
  begun (pool : Pool) (base : Baseline) (recent : List Call) : Pool × Phase × Option Alert :=
    if slowCalls ≤ recent.length then
      let incident := (recent.head?.map Call.key).getD []
      (pool, .active base recent [] incident, some (alertOf condition base recent incident c))
    else (pool, .slow base recent, none)

/-! ## owners -/

/-- A home and a session. -/
abbrev Owner := PyStr × PyStr

abbrev Bucket := PyStr × Condition

/-- An owner of a cohort: `_OwnerInput` with its prepared history. -/
structure OwnerInput where
  revision : Json
  history : List Call
  appendFrom : Option (Json × Nat) := none

abbrev Owners := Dict Owner OwnerInput

/-- A call with its owner and its place in the history. -/
structure Item where
  owner : Owner
  ordinal : Nat
  call : Call
deriving DecidableEq

def itemsFrom (owner : Owner) : Nat → List Call → List Item
  | _, [] => []
  | i, c :: cs => ⟨owner, i, c⟩ :: itemsFrom owner (i + 1) cs

/-- The time of a call, its home and its session. -/
def Item.key (item : Item) : ℚ ×ₗ PyStr ×ₗ PyStr :=
  toLex (item.call.ts, toLex (item.owner.1, item.owner.2))

abbrev Order := (ℚ ×ₗ PyStr ×ₗ PyStr) ×ₗ ℕ

/-- `(ts, home, sid, ordinal)`. -/
def Item.order (item : Item) : Order := toLex (item.key, item.ordinal)

def callIdentity (owner : Owner) (key : PyStr) : PyStr × Option PyStr × PyStr :=
  if (py "record:").isPrefixOf key || (py "legacy:").isPrefixOf key then (owner.1, some owner.2, key)
  else (owner.1, none, key)

def update {κ ν : Type} [DecidableEq κ] (table : κ → ν) (key : κ) (value : ν) : κ → ν :=
  fun k => if k = key then value else table k

/-! ## the full classification -/

/-- The state of a session in `classify`. -/
structure SessionState where
  scope : Option Condition := none
  lastTs : Option ℚ := none
  phase : Phase := .calm

/-- The variables of the loop of `classify`. -/
structure Classifier where
  pools : Bucket → Pool := fun _ => []
  states : Owner → SessionState := fun _ => {}
  result : Owner → Option Alert := fun _ => none
  seen : List (PyStr × Option PyStr × PyStr) := []

def Classifier.step (s : Classifier) (item : Item) : Classifier :=
  let identity := callIdentity item.owner item.call.key
  if identity ∈ s.seen then s
  else
    let ts := item.call.ts
    let condition := scope item.call
    let state := s.states item.owner
    let phase :=
      if condition ≠ state.scope ∨ maxAge < ts - state.lastTs.getD ts then .calm else state.phase
    let s := { s with seen := identity :: s.seen }
    match condition with
    | none =>
      { s with
        states := update s.states item.owner {}
        result := update s.result item.owner none }
    | some c =>
      let judged := judge c item.owner.2 (s.pools (item.owner.1, c)) phase item.call
      { s with
        pools := update s.pools (item.owner.1, c) judged.1
        states := update s.states item.owner ⟨some c, some ts, judged.2.1⟩
        result := update s.result item.owner judged.2.2 }

/-- All calls as `classify` lists them. -/
def listed (owners : Owners) : List Item :=
  owners.entries.flatMap fun e => itemsFrom e.1 0 e.2.history

/-- The results of owners; `none` is not active. -/
abbrev Results := Owner → Option (Option Alert)

def classify (owners : Owners) : Results :=
  let s := ((listed owners).mergeSort fun a b => a.key ≤ b.key).foldl Classifier.step {}
  fun owner => (owners.get? owner).map fun _ => s.result owner

/-! ## the tracker -/

/-- `_ScopeReplay`. -/
structure Replay where
  pool : Pool := []
  states : Owner → Option Phase := fun _ => none
  results : Owner → Option (Option Alert) := fun _ => none
  lastOrder : Option Order := none

/-- One step of `_ScopeReplay.advance`. -/
def Replay.advance (condition : Condition) (r : Replay) (item : Item) (reset : Bool) : Replay :=
  let phase := if reset then .calm else (r.states item.owner).getD .calm
  let judged := judge condition item.owner.2 r.pool phase item.call
  { pool := judged.1
    states := update r.states item.owner (some judged.2.1)
    results := update r.results item.owner (some judged.2.2)
    lastOrder := some item.order }

/-- What was before a call of an owner: its condition and time. -/
structure Prior where
  condition : Option Condition := none
  ts : Option ℚ := none

def Prior.resets (prior : Prior) (c : Call) : Bool :=
  scope c ≠ prior.condition ||
    match prior.ts with
    | none => true
    | some ts => maxAge < c.ts - ts

def Prior.after (c : Call) : Prior := ⟨scope c, some c.ts⟩

/-- `_Proof`; the sizes kept with the buckets only feed the capacity check. -/
structure Proof where
  revision : Json
  length : Nat
  buckets : List Condition
  prior : Prior

/-- The rows are in order and have keys. -/
def canonical : Option ℚ → List Call → Bool
  | _, [] => true
  | previous, c :: cs =>
    c.key ≠ [] && (match previous with | none => true | some ts => decide (ts ≤ c.ts)) &&
      canonical (some c.ts) cs

/-- Where a history continues after what was proven before. -/
structure Tail where
  start : Nat
  prior : Prior

/-- What `_collect` finds of one owner. -/
structure Visit where
  proof : Proof
  dirty : List Bucket := []
  tail : Option Tail := none
  supported : Bool := true

/-- `SpeedHealth`. -/
structure Tracker where
  signature : Option (List (Owner × Json)) := none
  proofs : Dict Owner Proof := {}
  replays : Bucket → Option Replay := fun _ => none
  results : Results := fun _ => none

/-- What is known of an owner before its new rows, when these are an append. -/
def OwnerInput.certified (input : OwnerInput) (old : Option Proof) : Option Proof :=
  old.filter fun old =>
    input.appendFrom = some (old.revision, old.length) && old.length ≤ input.history.length

def firsts (owner : Owner) (items : List Item) : List (Bucket × Order) :=
  items.foldl (fun found item =>
    match scope item.call with
    | none => found
    | some c =>
      if found.any fun f => f.1 = (owner.1, c) then found
      else found ++ [((owner.1, c), item.order)]) []

/-- `_proof`, and what `_collect` makes of it. -/
def Tracker.visit (t : Tracker) (owner : Owner) (input : OwnerInput) : Visit :=
  let old := t.proofs.get? owner
  match old.filter (·.revision = input.revision) with
  | some proof => { proof }
  | none =>
    let before := input.certified old
    let start := (before.map Proof.length).getD 0
    let prior := (before.map Proof.prior).getD {}
    let rows := input.history.drop start
    let proof : Proof :=
      { revision := input.revision
        length := input.history.length
        buckets := (before.map Proof.buckets).getD [] ++ rows.filterMap scope
        prior := (rows.getLast?.map Prior.after).getD prior }
    let supported := canonical prior.ts rows
    let corrected := old.filter fun old => old.buckets ≠ [] && before.isNone
    match corrected with
    | some old =>
      { proof, supported, dirty := (old.buckets ++ proof.buckets).map (owner.1, ·) }
    | none =>
      { proof, supported
        dirty := ((firsts owner (itemsFrom owner start rows)).filter fun f =>
          match (t.replays f.1).bind Replay.lastOrder with
          | none => false
          | some last => decide (f.2 ≤ last)).map (·.1)
        tail := if start < input.history.length then some ⟨start, prior⟩ else none }

/-- The loop of `_steps` over merged histories. -/
def scan (prior : Owner → Prior) : List Item → List (Item × Bool)
  | [] => []
  | item :: items =>
    (item, (prior item.owner).resets item.call) ::
      scan (update prior item.owner (Prior.after item.call)) items

/-- `_steps`: the rows of the ranges in order, those of the selected buckets. -/
def steps (ranges : List (Owner × OwnerInput × Tail)) (selected : Bucket → Bool) :
    List (Item × Bool) :=
  let merged := (ranges.flatMap fun r =>
    itemsFrom r.1 r.2.2.start (r.2.1.history.drop r.2.2.start)).mergeSort fun a b => a.order ≤ b.order
  let prior := fun owner => ((ranges.find? (·.1 = owner)).map fun r => r.2.2.prior).getD {}
  (scan prior merged).filter fun step =>
    (scope step.1.call).any fun c => selected (step.1.owner.1, c)

def advance (replays : Bucket → Option Replay) (steps : List (Item × Bool)) :
    Bucket → Option Replay :=
  steps.foldl (fun replays step =>
    match scope step.1.call with
    | none => replays
    | some c =>
      let bucket := (step.1.owner.1, c)
      update replays bucket ((replays bucket).map fun r => r.advance c step.1 step.2)) replays

def Proof.bucket (proof : Proof) (owner : Owner) : Option Bucket :=
  proof.prior.condition.map (owner.1, ·)

/-- The state that `_finish` keeps of a pool: that of owners whose last call is in it. -/
def Replay.prune (proofs : Dict Owner Proof) (bucket : Bucket) (r : Replay) : Replay :=
  let live := fun owner => ((proofs.get? owner).bind fun p => p.bucket owner) = some bucket
  { r with
    states := fun owner => if live owner then r.states owner else none
    results := fun owner => if live owner then r.results owner else none }

/-- `_finish`: the results of the proofs. -/
def resultsOf (proofs : Dict Owner Proof) (replays : Bucket → Option Replay) : Results :=
  fun owner => (proofs.get? owner).map fun proof =>
    match (proof.bucket owner).bind replays with
    | none => none
    | some r => (r.results owner).getD none

/-- A cohort.  `exceeds` tells that a size allowance is exceeded. -/
structure Cohort where
  owners : Owners
  exceeds : Bool := false

def Cohort.signature (cohort : Cohort) : List (Owner × Json) :=
  cohort.owners.entries.map fun e => (e.1, e.2.revision)

def Tracker.fallback (cohort : Cohort) : Tracker :=
  { signature := some cohort.signature, results := classify cohort.owners }

/-- The owners of a cohort as `_collect` visits them. -/
def Tracker.visits (t : Tracker) (owners : Owners) : Dict Owner Visit := owners.mapVal t.visit

def Tracker.proofsOf (t : Tracker) (owners : Owners) : Dict Owner Proof :=
  (t.visits owners).mapVal fun _ v => v.proof

def poolsOf (proofs : Dict Owner Proof) : List Bucket :=
  proofs.entries.flatMap fun e => e.2.buckets.map (e.1.1, ·)

/-- The pools that are replayed: those of corrected and removed owners, and those
with a new call before their last one. -/
def Tracker.dirty (t : Tracker) (owners : Owners) : List Bucket :=
  let removed := t.proofs.entries.filter fun e => (owners.get? e.1).isNone
  ((t.visits owners).entries.flatMap (·.2.dirty) ++
    removed.flatMap fun e => e.2.buckets.map (e.1.1, ·)).filter (· ∈ poolsOf (t.proofsOf owners))

/-- The reducers to be advanced: dirty and new ones start empty, and those without
an owner are dropped. -/
def Tracker.fresh (t : Tracker) (owners : Owners) : Bucket → Option Replay := fun bucket =>
  if bucket ∈ poolsOf (t.proofsOf owners) then
    some (if bucket ∈ t.dirty owners then {} else (t.replays bucket).getD {})
  else none

def Tracker.ranges (t : Tracker) (owners : Owners) : List (Owner × OwnerInput × Tail) :=
  (owners.entries.filter fun e =>
    ((t.proofsOf owners).get? e.1).any fun proof =>
      proof.buckets.any fun c => decide ((e.1.1, c) ∈ t.dirty owners)).map fun e =>
        (e.1, e.2, ⟨0, {}⟩)

def Tracker.tails (t : Tracker) (owners : Owners) : List (Owner × OwnerInput × Tail) :=
  owners.entries.filterMap fun e => (t.visit e.1 e.2).tail.map fun tail => (e.1, e.2, tail)

def Tracker.advanced (t : Tracker) (owners : Owners) : Bucket → Option Replay :=
  advance
    (advance (t.fresh owners) (steps (t.ranges owners) fun bucket => bucket ∈ t.dirty owners))
    (steps (t.tails owners) fun bucket =>
      bucket ∈ poolsOf (t.proofsOf owners) ∧ bucket ∉ t.dirty owners)

/-- `_collect` past the capacity checks. -/
def Tracker.incremental (t : Tracker) (cohort : Cohort) : Tracker :=
  let proofs := t.proofsOf cohort.owners
  let kept := fun bucket => (t.advanced cohort.owners bucket).map (Replay.prune proofs bucket)
  { signature := some cohort.signature
    proofs
    replays := kept
    results := resultsOf proofs kept }

def Tracker.collect (t : Tracker) (cohort : Cohort) : Tracker :=
  if (t.signature.any fun s => s ⊆ cohort.signature && cohort.signature ⊆ s) then t
  else if cohort.exceeds || cohort.owners.entries.any (fun e => !(t.visit e.1 e.2).supported) then
    Tracker.fallback cohort
  else t.incremental cohort

end Codexon.Speed
