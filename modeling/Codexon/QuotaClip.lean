import Codexon.Pricing

/-!
# Codexon.QuotaClip

An interval between observed ends, with the calls whose costs belong to it: `_clip_quota_interval`
of `cachemonitor/quota_cycles.py`.

Times, percentages and costs are exact, and an `int` and a `float` of one value are the same.
-/

namespace Codexon.QuotaClip

/-- An observed end: the time and the used percentage. -/
abbrev Endpoint := ℚ × ℚ

/-- A call.  `usage` is the record that `token_cost` reads. -/
structure CostRow where
  ts : ℚ
  requestStart : Option ℚ := none
  /-- Not there, or maybe `None`. -/
  localRequestStart : Option (Option ℚ) := none
  uid : PyStr := []
  model : PyStr
  serviceTier : PyStr
  cost : Option ℚ
  usage : Pricing.Row := {}

/-- The calls of a model and a mode. -/
structure ModelRow where
  model : PyStr
  serviceTier : PyStr
  calls : Nat := 0
  cost : Option ℚ := none
  priced : Nat := 0

/-- A cycle, or an interval of one. -/
structure Cycle where
  id : PyStr
  account : PyStr := []
  start : ℚ
  stop : ℚ
  delta : ℚ := 0
  usedStart : Option ℚ := none
  usedEnd : Option ℚ := none
  endpoints : List Endpoint := []
  costRows : List CostRow := []
  models : List ModelRow := []
  separateModels : List PyStr := []
  pendingUsageTimes : List ℚ := []
  pendingUsageCalls : Nat := 0
  /-- Not there, or maybe `None`. -/
  costCompleteAt : Option (Option ℚ) := none
  costComplete : Bool := false
  forwardTracking : Bool := false
  boundaryExcludedCalls : Nat := 0
  cost : Option ℚ := none
  pricedCalls : Nat := 0
  modeStandardCost : Option ℚ := none
  provisional : Bool := false

def aliased (model : PyStr) : PyStr := (Pricing.aliases.lookup model).getD model

/-- The calls that count for the price of the cycle. -/
def Cycle.eligible (cycle : Cycle) (rows : List CostRow) : List CostRow :=
  rows.filter fun r => aliased r.model ∉ cycle.separateModels

def known (rows : List CostRow) : List ℚ := rows.filterMap (·.cost)

/-- The cost of a call as if it were Standard, when its mode is not known. -/
def alternative (row : CostRow) : Option ℚ :=
  if row.serviceTier = py "미확인" then
    match Pricing.tokenCost { row.usage with serviceTier := Pricing.standard } with
    | .ok result => result.cost
    | .error _ => none
  else row.cost

def clippedModels (cycle : Cycle) (rows : List CostRow) : List ModelRow :=
  cycle.models.filterMap fun model =>
    let own := rows.filter fun r => r.model = model.model ∧ r.serviceTier = model.serviceTier
    if own = [] then none
    else some { model with
      calls := own.length
      cost := if known own = [] then none else some (known own).sum
      priced := (known own).length }

def clippedCost (cycle : Cycle) (eligible : List CostRow) (complete pending : Bool) : Option ℚ :=
  if cycle.forwardTracking then
    if known eligible ≠ [] then some (known eligible).sum
    else if eligible = [] ∧ complete ∧ ¬pending then some 0 else none
  else if eligible ≠ [] ∧ eligible.all (·.cost.isSome) then some (known eligible).sum else none

/-- The interval of these ends, with the calls of these candidates. -/
def clipped (cycle : Cycle) (endpoints : List Endpoint) (candidates : List CostRow)
    (first last : Endpoint) : Cycle :=
  let lo := first.1
  let hi := last.1
  let rows := candidates.filter fun r => r.requestStart.all (lo ≤ ·)
  let eligible := cycle.eligible rows
  let alternatives := eligible.map alternative
  let pending := cycle.pendingUsageTimes.filter fun at_ => lo < at_ ∧ at_ ≤ hi
  let complete := match cycle.costCompleteAt with
    | some at_ => at_.any (hi ≤ ·)
    | none => cycle.costComplete
  { cycle with
    costComplete := complete
    pendingUsageTimes := pending
    pendingUsageCalls := pending.length
    start := lo
    stop := hi
    delta := last.2 - first.2
    models := clippedModels cycle rows
    endpoints := endpoints
    costRows := rows
    usedStart := some first.2
    usedEnd := some last.2
    cost := clippedCost cycle eligible complete (pending ≠ [])
    pricedCalls := (known eligible).length
    boundaryExcludedCalls :=
      (if lo = cycle.start then cycle.boundaryExcludedCalls else 0) +
        (candidates.length - rows.length)
    modeStandardCost :=
      if alternatives ≠ [] ∧ alternatives.all (·.isSome) then
        some (alternatives.filterMap id).sum
      else none }

def span (endpoints : List Endpoint) : Option (Endpoint × Endpoint) :=
  match endpoints with
  | first :: second :: rest => some (first, (second :: rest).getLast (by simp))
  | _ => none

def Cycle.within (cycle : Cycle) (start stop : Option ℚ) : List Endpoint :=
  cycle.endpoints.filter fun r => start.all (· ≤ r.1) && stop.all (r.1 ≤ ·)

/-- `_clip_quota_interval` -/
def clip (cycle : Cycle) (start stop : Option ℚ) : Option Cycle :=
  let endpoints := cycle.within start stop
  (span endpoints).map fun (first, last) =>
    clipped cycle endpoints (cycle.costRows.filter fun r => first.1 < r.ts ∧ r.ts ≤ last.1)
      first last

/-- `_clip_quota_interval` of a selection. -/
def clipSelection (cycle : Cycle) (selection : List Endpoint × List CostRow) : Option Cycle :=
  (span selection.1).map fun (first, last) => clipped cycle selection.1 selection.2 first last

/-! ## lemmas -/

theorem span_isSome {endpoints : List Endpoint} :
    (span endpoints).isSome ↔ 2 ≤ endpoints.length := by
  rcases endpoints with _ | ⟨first, _ | ⟨second, rest⟩⟩ <;> simp [span]

theorem span_some {endpoints : List Endpoint} {first last : Endpoint}
    (h : span endpoints = some (first, last)) :
    endpoints.head? = some first ∧ endpoints.getLast? = some last := by
  rcases endpoints with _ | ⟨a, _ | ⟨b, rest⟩⟩
  · simp [span] at h
  · simp [span] at h
  · simp only [span, Option.some.injEq, Prod.mk.injEq] at h
    rw [← h.1, ← h.2]
    simp [List.getLast?_eq_some_getLast]

theorem clip_eq_some {cycle part : Cycle} {start stop : Option ℚ}
    (h : clip cycle start stop = some part) :
    part.endpoints = cycle.within start stop ∧ 2 ≤ (cycle.within start stop).length := by
  obtain ⟨⟨first, last⟩, hspan, rfl⟩ := Option.map_eq_some_iff.mp h
  exact ⟨rfl, span_isSome.mp (by simp [hspan])⟩

theorem clip_isSome {cycle : Cycle} {start stop : Option ℚ} :
    (clip cycle start stop).isSome ↔ 2 ≤ (cycle.within start stop).length := by
  rw [← span_isSome]
  simp [clip]

end Codexon.QuotaClip
