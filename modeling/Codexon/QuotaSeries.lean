import Codexon.Python
import Mathlib.Algebra.Order.Ring.Rat
import Mathlib.Data.Rat.Lemmas

/-!
# Codexon.QuotaSeries

What a displayed percent cost: `completed_percent_costs` of `cachemonitor/quota_view.py`, and of
`quota_series.rs` in the extension.

Numbers are exact, so every number is finite.  The extension reads numbers as doubles, and gives up
with an `OverflowError` when the integers that it reads could not all be exact.
-/

namespace Codexon.QuotaSeries

/-! ## observations -/

/-- A number of Python, and whether it is an `int`. -/
structure Num where
  value : ℚ
  integer : Bool := false
deriving DecidableEq

/-- An observation.  An item that may be missing is an `Option`, whether it is `None` another. -/
structure Row where
  at_ : Num := { value := 0 }
  remaining : Num
  reportedRemaining : Option Num := none
  cycleCost : Option Num := none
  periodCost : Option (Option Num) := none
  cycleValue : Option Num := none
  completedCost : Option (Option Num) := none
  connect : Bool
  trackingContinuous : Bool := false
  resetKind : Option String := none
  cycleStart : Option ℚ := none
  account : Option String := none
  userExcluded : Bool := false
  userExclusionEnd : Bool := false

namespace Row

def reported (row : Row) : ℚ := (row.reportedRemaining.getD row.remaining).value

def cost (row : Row) : Option ℚ := (row.periodCost.getD row.cycleCost).map Num.value

/-- `bool(row.get('reset_kind'))` -/
def reset (row : Row) : Bool := row.resetKind.any (· ≠ "")

/-- A period starts at a row: the first, a reset, and a row of another cycle or account. -/
def boundary (previous : Option Row) (row : Row) : Bool :=
  match previous with
  | none => true
  | some previous =>
    row.reset || row.cycleStart ≠ previous.cycleStart || row.account ≠ previous.account

end Row

/-- A cost that is known: not `None`, and not negative. -/
def known (cost : Option ℚ) : Bool := cost.any fun cost => 0 ≤ cost

/-- `math.isclose(a, b, rel_tol=0, abs_tol=1e-9)` -/
def sameCost : Option ℚ → Option ℚ → Bool
  | some a, some b => a = b || |a - b| ≤ 1 / 1000000000
  | _, _ => false

/-- `cost >= old_cost or same_cost(cost, old_cost)`, of costs that are not `None`. -/
def noDecrease (cost oldCost : Option ℚ) : Bool :=
  (match cost, oldCost with
    | some cost, some oldCost => oldCost ≤ cost
    | _, _ => false) || sameCost cost oldCost

/-- `amounts[start:index] = [amount] * (index - start)` -/
def fill (amounts : List (Option ℚ)) (start index : Nat) (amount : ℚ) : List (Option ℚ) :=
  amounts.mapIdx fun i old => if start ≤ i ∧ i < index then some amount else old

/-- The variables of the loops over the rows. -/
structure Scan where
  amounts : List (Option ℚ)
  start : Nat := 0
  valid : Bool := false
deriving DecidableEq

/-! ## `_completed_percent_costs_python` -/

/-- `max(0, cost - opening)`; `None` does not subtract. -/
def difference : Option ℚ → Option ℚ → Except PyError ℚ
  | some cost, some opening => .ok (max 0 (cost - opening))
  | _, _ => .error .typeError

/-- The body of the loop. -/
def percentStep (rows : List Row) (previous : Option Row) (index : Nat) (row : Row) (s : Scan) :
    Except PyError Scan :=
  let remaining := row.reported
  let cost := row.cost
  if row.userExcluded then
    .ok { s with
      start := index
      valid := known cost && row.userExclusionEnd && remaining.isInt &&
        previous.any fun previous => remaining < previous.reported }
  else if row.boundary previous then
    .ok { s with start := index, valid := remaining = 100 && known cost && cost = some 0 }
  else
    match previous with
    | none => .error .typeError
    | some previous =>
      if !row.connect && !(row.trackingContinuous && known cost &&
          remaining = previous.reported && sameCost cost previous.cost) then
        .ok { s with start := index, valid := false }
      else
        let valid := s.valid && known cost && previous.cost.isSome &&
          noDecrease cost previous.cost
        if remaining ≠ previous.reported then do
          let amounts ←
            if valid && previous.reported - remaining = 1 && previous.reported.isInt then do
              let opening ← item rows s.start
              let amount ← difference cost opening.cost
              pure (fill s.amounts s.start index amount)
            else pure s.amounts
          pure {
            amounts := amounts
            start := index
            valid := remaining < previous.reported && remaining.isInt && known cost }
        else .ok { s with valid := valid }

def percentLoop (rows : List Row) : Option Row → Nat → List Row → Scan → Except PyError Scan
  | _, _, [], s => .ok s
  | previous, index, row :: rest, s => do
    let s ← percentStep rows previous index row s
    percentLoop rows (some row) (index + 1) rest s

def completedPercentCostsPython (rows : List Row) : Except PyError (List (Option ℚ)) := do
  let s ← percentLoop rows none 0 rows { amounts := List.replicate rows.length none }
  pure s.amounts

/-! ## the extension -/

/-- How the extension fails. -/
inductive Failed where
  | overflowError
  | panicked
deriving DecidableEq

abbrev Reading := StateT ℚ (Except Failed)

def largestExact : ℚ := 9007199254740991

def number : Option Num → Reading (Option ℚ)
  | none => pure none
  | some n => do
    if n.integer then
      modify (· + |n.value|)
      if largestExact < (← get) then throw .overflowError
    pure (some n.value)

/-- `required`, of an item that is there. -/
def required (n : Num) : Reading ℚ := do
  let value ← number (some n)
  pure (value.getD 0)

/-- `Row` of the extension. -/
structure Parsed where
  at_ : ℚ
  remaining : ℚ
  reported : ℚ
  cost : Option ℚ
  periodCost : Option ℚ
  value : Option ℚ
  completed : Option (Option ℚ)
  connect : Bool
  tracking : Bool
  reset : Bool
  boundary : Bool

/-- What only a chart needs. -/
def forSeries {α : Type} (series : Bool) (m : Reading α) (other : α) : Reading α :=
  if series then m else pure other

def readReported (row : Row) (remaining : ℚ) : Reading ℚ :=
  match row.reportedRemaining with
  | some reported => required reported
  | none => pure remaining

def readPeriodCost (row : Row) (cost : Option ℚ) : Reading (Option ℚ) :=
  match row.periodCost with
  | some periodCost => number periodCost
  | none => pure cost

def readCompleted (row : Row) : Reading (Option (Option ℚ)) :=
  match row.completedCost with
  | some completed => do
    let value ← number completed
    pure (some value)
  | none => pure none

def parseRow (series : Bool) (previous : Option Row) (row : Row) : Reading Parsed := do
  let remaining ← required row.remaining
  let cost ← number row.cycleCost
  let at_ ← forSeries series (required row.at_) 0
  let reported ← readReported row remaining
  let periodCost ← readPeriodCost row cost
  let value ← forSeries series (number row.cycleValue) none
  let completed ← forSeries series (readCompleted row) none
  pure {
    at_ := at_
    remaining := remaining
    reported := reported
    cost := cost
    periodCost := periodCost
    value := value
    completed := completed
    connect := row.connect
    tracking := row.trackingContinuous
    reset := row.reset
    boundary := row.boundary previous }

def parseLoop (series : Bool) : Option Row → List Row → Reading (List Parsed)
  | _, [] => pure []
  | previous, row :: rest => do
    let parsed ← parseRow series previous row
    let rest ← parseLoop series (some row) rest
    pure (parsed :: rest)

def parseRows (rows : List Row) (series : Bool) : Except Failed (List Parsed) :=
  (parseLoop series none rows).run' 0

def indexed {α : Type} (rows : List α) (index : Nat) : Except Failed α :=
  match rows[index]? with
  | some row => .ok row
  | none => .error .panicked

def unwrap {α : Type} : Option α → Except Failed α
  | some a => .ok a
  | none => .error .panicked

/-- The body of the loop of `calculate_completed`. -/
def completedStep (rows : List Parsed) (index : Nat) (row : Parsed) (s : Scan) :
    Except Failed Scan :=
  let cost := row.periodCost
  let known := known cost
  if row.boundary then
    .ok { s with start := index, valid := row.reported = 100 && known && cost = some 0 }
  else if index = 0 then .error .panicked
  else do
    let previous ← indexed rows (index - 1)
    if !row.connect && !(row.tracking && known && row.reported = previous.reported &&
        sameCost cost previous.periodCost) then
      pure { s with start := index, valid := false }
    else
      let valid := s.valid && known && previous.periodCost.isSome &&
        noDecrease cost previous.periodCost
      if row.reported ≠ previous.reported then do
        let completed ←
          if valid && previous.reported - row.reported = 1 && previous.reported.isInt then do
            let opening ← indexed rows s.start
            let amount := max ((← unwrap cost) - (← unwrap opening.periodCost)) 0
            if index < s.start then throw .panicked
            pure (fill s.amounts s.start index amount)
          else pure s.amounts
        pure {
          amounts := completed
          start := index
          valid := row.reported < previous.reported && row.reported.isInt && known }
      else pure { s with valid := valid }

def completedLoop (rows : List Parsed) : Nat → List Parsed → Scan → Except Failed Scan
  | _, [], s => .ok s
  | index, row :: rest, s => do
    let s ← completedStep rows index row s
    completedLoop rows (index + 1) rest s

def calculateCompleted (rows : List Parsed) : Except Failed (List (Option ℚ)) := do
  let s ← completedLoop rows 0 rows { amounts := List.replicate rows.length none }
  pure s.amounts

def completedPercentCostsNative (rows : List Row) : Except Failed (List (Option ℚ)) := do
  let prepared ← parseRows rows false
  calculateCompleted prepared

/-- `completed_percent_costs`, with and without the extension; a panic is not caught. -/
def completedPercentCosts (native : Bool) (rows : List Row) :
    Except (PyError ⊕ Failed) (List (Option ℚ)) :=
  let python := (completedPercentCostsPython rows).mapError Sum.inl
  if rows.any (·.userExcluded) || !native then python
  else
    match completedPercentCostsNative rows with
    | .ok amounts => .ok amounts
    | .error .overflowError => python
    | .error .panicked => .error (.inr .panicked)

end Codexon.QuotaSeries
