import Codexon.Dict
import Codexon.QuotaSeries
import Mathlib.Data.Finset.Sort
import Mathlib.Data.Rat.Floor

/-!
# Codexon.QuotaSeries.Chart

The series of a chart: `_prepare_series_python` of `cachemonitor/quota_view.py`, and `quota_series`
of the extension.  A series is sampled for drawing: the rows are put into buckets of active time,
and of each bucket the ends and the extrema of every field are kept.
-/

namespace Codexon.QuotaSeries

/-- What is drawn. -/
inductive Field where
  | remaining
  | cycleCost
  | cycleValue
  | completedCost
deriving DecidableEq

namespace Field

def all : List Field := [remaining, cycleCost, cycleValue, completedCost]

end Field

/-- What is counted for each field that may be missing. -/
structure PerField (α : Type) where
  cycleCost : α
  cycleValue : α
  completedCost : α
deriving DecidableEq

/-- The variables of the loops over the rows. -/
structure Columns where
  times : List ℚ := []
  breaks : List Nat := []
  gaps : Nat := 0
  counts : PerField Nat := ⟨0, 0, 0⟩
  missing : PerField (List Nat) := ⟨[], [], []⟩
  maximum : ℚ := 0
  low : WithTop ℚ := ⊤
  high : ℚ := 0
  active : ℚ := 0
  activeTimes : List ℚ := []
  gapIndices : List Nat := []
  gapSeconds : List ℚ := [0]
  costMinimum : Option ℚ := none
  costMaximum : ℚ := 0
  valueMinimum : Option ℚ := none
  valueMaximum : ℚ := 0
deriving DecidableEq

/-- A prepared series; Python keeps the rows beside it. -/
structure Series where
  columns : Columns
  samples : List (Nat × List Nat)
  completedMinimum : Option ℚ
  completedMaximum : ℚ
  completedCosts : List (Option ℚ)
deriving DecidableEq

/-- `value if minimum is None else min(minimum, value)` -/
def minimum (minimum : Option ℚ) (value : ℚ) : Option ℚ := some (minimum.elim value (min · value))

/-- A row is put behind the rows before it, of which `previous` is the last. -/
def Columns.elapse (c : Columns) (index : Nat) (connect : Bool) (elapsed : ℚ) : Columns :=
  if connect then { c with active := c.active + elapsed }
  else { c with
    gapIndices := c.gapIndices ++ [index]
    gapSeconds := c.gapSeconds ++ [c.gapSeconds.getLastD 0 + elapsed] }

/-- `counts[key] += n; missing[key].append(counts[key])`, of the three fields. -/
def Columns.miss (c : Columns) (cost value completed : Nat) : Columns :=
  let counts : PerField Nat := {
    cycleCost := c.counts.cycleCost + cost
    cycleValue := c.counts.cycleValue + value
    completedCost := c.counts.completedCost + completed }
  { c with
    counts := counts
    missing := {
      cycleCost := c.missing.cycleCost ++ [counts.cycleCost]
      cycleValue := c.missing.cycleValue ++ [counts.cycleValue]
      completedCost := c.missing.completedCost ++ [counts.completedCost] } }

def budgets : List Nat := [256, 768]

/-- The ends of a bucket, and the rows of the extrema. -/
structure Bucket where
  first : Nat
  last : Nat
  extrema : Field → Option (Nat × Nat) := fun _ => none

def pairRows : Option (Nat × Nat) → Finset Nat
  | none => ∅
  | some (low, high) => {low, high}

def Bucket.picks (bucket : Bucket) : Finset Nat :=
  Field.all.foldl (fun picks field => picks ∪ pairRows (bucket.extrema field))
    {bucket.first, bucket.last}

/-! ## Python -/

/-- The body of the first loop of `_prepare_series_python`. -/
def Columns.addPython (previous : Option Row) (index : Nat) (row : Row) (completed : Option ℚ)
    (c : Columns) : Columns :=
  let cost := row.cycleCost.map Num.value
  let value := row.cycleValue.map Num.value
  let c := { c with times := c.times ++ [row.at_.value] }
  let c :=
    match previous with
    | none => c
    | some previous => c.elapse index row.connect (max 0 (row.at_.value - previous.at_.value))
  let c := { c with activeTimes := c.activeTimes ++ [c.active] }
  let c := { c with gaps := c.gaps + (!row.connect).toNat }
  let c := { c with breaks := c.breaks ++ [c.gaps] }
  let c := { c with
    low := min c.low (row.remaining.value : WithTop ℚ)
    high := max c.high row.remaining.value
    maximum := max (max c.maximum (cost.getD 0)) (value.getD 0)
    costMaximum := max c.costMaximum (cost.getD 0)
    valueMaximum := max c.valueMaximum (value.getD 0)
    valueMinimum := value.elim c.valueMinimum (minimum c.valueMinimum) }
  c.miss cost.isNone.toNat value.isNone.toNat (completed.isNone.toNat +
    (previous.any fun previous => row.reset || row.cycleStart ≠ previous.cycleStart ||
      row.account ≠ previous.account).toNat)

def columnsPython : Option Row → Nat → List (Row × Option ℚ) → Columns → Columns
  | _, _, [], c => c
  | previous, index, (row, completed) :: rest, c =>
    columnsPython (some row) (index + 1) rest (c.addPython previous index row completed)

/-- `row.get(key)`, of a completed cost `completed[i]`. -/
def valuePython (rows : List (Row × Option ℚ)) (i : Nat) (field : Field) : Option ℚ :=
  rows[i]?.bind fun row =>
    match field with
    | .remaining => some row.1.remaining.value
    | .cycleCost => row.1.cycleCost.map Num.value
    | .cycleValue => row.1.cycleValue.map Num.value
    | .completedCost => row.2

/-- `a < b`; `None` does not compare. -/
def lessPython : Option ℚ → Option ℚ → Except PyError Bool
  | some a, some b => .ok (a < b)
  | _, _ => .error .typeError

def Bucket.visitPython (value : Nat → Field → Option ℚ) (i : Nat) (state : Bucket)
    (field : Field) : Except PyError Bucket :=
  match value i field with
  | none => .ok state
  | some _ => do
    let pair := (state.extrema field).getD (i, i)
    let low ← lessPython (value i field) (value pair.1 field)
    let pair := if low then (i, pair.2) else pair
    let high ← lessPython (value pair.2 field) (value i field)
    let pair := if high then (pair.1, i) else pair
    pure { state with extrema := Function.update state.extrema field (some pair) }

def bucketOf (budget : Nat) (active activeTime : ℚ) : Nat :=
  min (budget - 1) (activeTime / max 1 active * budget).floor.toNat

/-- The body of the loop over the rows. -/
def bucketsPython (budget : Nat) (active : ℚ) (value : Nat → Field → Option ℚ) :
    List ((Row × ℚ) × Nat) → Finset Nat → Dict Nat Bucket →
      Except PyError (Finset Nat × Dict Nat Bucket)
  | [], selected, buckets => .ok (selected, buckets)
  | ((row, activeTime), i) :: rest, selected, buckets => do
    let bucket := bucketOf budget active activeTime
    let state := (buckets.get? bucket).getD { first := i, last := i }
    let state ← Field.all.foldlM (fun state => state.visitPython value i) { state with last := i }
    let selected := if row.reset then insert i selected else selected
    bucketsPython budget active value rest selected (buckets.set bucket state)

def breakSides (budget : Nat) (gapIndices : List Nat) (selected : Finset Nat) : Finset Nat :=
  if gapIndices.length ≤ budget then
    gapIndices.foldl (fun selected i => selected ∪ {i - 1, i}) selected
  else selected

def samplePython (rows : List (Row × Option ℚ)) (c : Columns) (budget : Nat) :
    Except PyError (List Nat) :=
  if rows.length ≤ budget * 2 then .ok (List.range rows.length)
  else do
    let (selected, buckets) ← bucketsPython budget c.active (valuePython rows)
      ((rows.map Prod.fst).zip c.activeTimes).zipIdx ∅ {}
    let selected := breakSides budget c.gapIndices selected
    let selected := buckets.entries.foldl (fun selected entry => selected ∪ entry.2.picks) selected
    pure (selected.sort (· ≤ ·))

/-- `row.get('completed_cost', calculated[i])` -/
def completedPython (rows : List Row) (calculated : List (Option ℚ)) : List (Option ℚ) :=
  rows.zipWith (fun row amount => (row.completedCost.map (·.map Num.value)).getD amount) calculated

def prepareSeriesPython (native : Bool) (rows : List Row) :
    Except (PyError ⊕ Failed) Series := do
  let calculated ← completedPercentCosts native rows
  let completed := completedPython rows calculated
  let columns := columnsPython none 0 (rows.zip completed) {}
  let samples ← budgets.mapM fun budget =>
    ((samplePython (rows.zip completed) columns budget).mapError Sum.inl).map (budget, ·)
  pure {
    columns := { columns with
      costMinimum := (rows.filterMap fun row => row.cycleCost.map Num.value).min? }
    samples := samples
    completedMinimum := (completed.filterMap id).min?
    completedMaximum := (completed.filterMap id).max?.getD 0
    completedCosts := completed }

/-! ## the extension -/

/-- The body of the first loop of `calculate`. -/
def Columns.addNative (previous : Option Parsed) (index : Nat) (row : Parsed)
    (completed : Option ℚ) (c : Columns) : Columns :=
  let c := { c with times := c.times ++ [row.at_] }
  let c :=
    match previous with
    | none => c
    | some previous => c.elapse index row.connect (max (row.at_ - previous.at_) 0)
  let c := { c with activeTimes := c.activeTimes ++ [c.active] }
  let c := { c with gaps := c.gaps + (!row.connect).toNat }
  let c := { c with breaks := c.breaks ++ [c.gaps] }
  let c := { c with low := min c.low (row.remaining : WithTop ℚ), high := max c.high row.remaining }
  let c := { c with
    maximum := max (max c.maximum (row.cost.getD 0)) (row.value.getD 0)
    costMaximum := max c.costMaximum (row.cost.getD 0)
    valueMaximum := max c.valueMaximum (row.value.getD 0) }
  let c := { c with
    valueMinimum := row.value.elim c.valueMinimum (minimum c.valueMinimum)
    costMinimum := row.cost.elim c.costMinimum (minimum c.costMinimum) }
  c.miss row.cost.isNone.toNat row.value.isNone.toNat (completed.isNone.toNat +
    (previous.isSome && row.boundary).toNat)

def columnsNative : Option Parsed → Nat → List (Parsed × Option ℚ) → Columns → Columns
  | _, _, [], c => c
  | previous, index, (row, completed) :: rest, c =>
    columnsNative (some row) (index + 1) rest (c.addNative previous index row completed)

def valueAt (rows : List (Parsed × Option ℚ)) (index : Nat) (field : Field) : Option ℚ :=
  rows[index]?.bind fun row =>
    match field with
    | .remaining => some row.1.remaining
    | .cycleCost => row.1.cost
    | .cycleValue => row.1.value
    | .completedCost => row.2

def Bucket.visitNative (value : Nat → Field → Option ℚ) (index : Nat) (state : Bucket)
    (field : Field) : Except Failed Bucket :=
  match value index field with
  | none => .ok state
  | some at_ => do
    let pair := (state.extrema field).getD (index, index)
    let low ← unwrap (value pair.1 field)
    let pair := if at_ < low then (index, pair.2) else pair
    let high ← unwrap (value pair.2 field)
    let pair := if high < at_ then (pair.1, index) else pair
    pure { state with extrema := Function.update state.extrema field (some pair) }

/-- The body of the loop over the rows. -/
def bucketsNative (budget : Nat) (active : ℚ) (value : Nat → Field → Option ℚ) :
    List ((Parsed × ℚ) × Nat) → Finset Nat → List (Option Bucket) →
      Except Failed (Finset Nat × List (Option Bucket))
  | [], selected, buckets => .ok (selected, buckets)
  | ((row, activeTime), index) :: rest, selected, buckets => do
    let bucket := min (activeTime / max active 1 * budget).floor.toNat (budget - 1)
    let old ← indexed buckets bucket
    let state := old.getD { first := index, last := index }
    let state ← Field.all.foldlM (fun state => state.visitNative value index)
      { state with last := index }
    let selected := if row.reset then insert index selected else selected
    bucketsNative budget active value rest selected (buckets.set bucket (some state))

def sampleNative (rows : List (Parsed × Option ℚ)) (c : Columns) (budget : Nat) :
    Except Failed (List Nat) :=
  if rows.length ≤ budget * 2 then .ok (List.range rows.length)
  else do
    let (selected, buckets) ← bucketsNative budget c.active (valueAt rows)
      ((rows.map Prod.fst).zip c.activeTimes).zipIdx ∅ (List.replicate budget none)
    let selected := breakSides budget c.gapIndices selected
    let selected := (buckets.filterMap id).foldl (fun selected bucket => selected ∪ bucket.picks)
      selected
    pure (selected.sort (· ≤ ·))

def completedNative (rows : List Parsed) : Except Failed (List (Option ℚ)) := do
  let completed ←
    if rows.all (·.completed.isSome) then pure (rows.map fun row => row.completed.getD none)
    else calculateCompleted rows
  pure (rows.zipWith (fun row amount => row.completed.getD amount) completed)

def calculate (rows : List Parsed) : Except Failed Series := do
  let completed ← completedNative rows
  let columns := columnsNative none 0 (rows.zip completed) {}
  let samples ← budgets.mapM fun budget =>
    (sampleNative (rows.zip completed) columns budget).map (budget, ·)
  pure {
    columns := columns
    samples := samples
    completedMinimum := (completed.filterMap id).min?
    completedMaximum := (completed.filterMap id).max?.getD 0
    completedCosts := completed }

def quotaSeries (rows : List Row) : Except Failed Series := do
  let prepared ← parseRows rows true
  calculate prepared

end Codexon.QuotaSeries
