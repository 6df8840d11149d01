import Codexon.Blocks
import Codexon.Keyed
import Codexon.QuotaClip
import Mathlib.Data.Prod.Lex

/-!
# Codexon.QuotaWindows

Lookups by time: the requests that overlap a range (`RequestWindows` of `quota_attribution.py` and
of `quota.rs`), and the ends and calls of an interval (`QuotaClipIndex` of `quota.rs`).

Times are numbers by their value, so the two zeros are one; a request may go on for ever.
-/

namespace Codexon.QuotaWindows

open QuotaClip (Endpoint CostRow Cycle)

variable {ρ : Type}

/-! ## `RequestWindows` -/

/-- A request from `since` until `until_`, which is `inf` as long as it is not done. -/
structure Span (ρ : Type) where
  since : ℚ
  until_ : WithTop ℚ
  row : ρ

/-- The spans in the order of their starts, and of their ends. -/
structure Index (ρ : Type) where
  starts : List (Span ρ)
  ends : List (Span ρ)

def pythonIndex (spans : List (Span ρ)) : Index ρ where
  starts := Keyed.sort Span.since spans
  ends := Keyed.sort Span.until_ spans

/-- The lookup of `_overlapping`, without the extension. -/
def Index.overlappingPython (index : Index ρ) (start stop : ℚ) : List ρ :=
  let hi := bisectRight (index.starts.map Span.since) stop
  let lo := bisectLeft (index.ends.map Span.until_) (start : WithTop ℚ)
  if hi ≤ index.ends.length - lo then
    ((index.starts.take hi).filter fun s => (start : WithTop ℚ) ≤ s.until_).map Span.row
  else ((index.ends.drop lo).filter fun s => s.since ≤ stop).map Span.row

def exactTime (time : ℚ) : Bool := |time| ≤ 9007199254740991

def exactEnd : WithTop ℚ → Bool
  | ⊤ => true
  | (time : ℚ) => exactTime time

abbrev Timed := ℚ × WithTop ℚ × Nat

/-- `RequestWindows` of the extension. -/
structure NativeIndex (ρ : Type) where
  rows : List ρ
  starts : List Timed
  ends : List Timed

/-- `RequestWindows.new`: nothing where it raises `ValueError`. -/
def NativeIndex.new (spans : List (Span ρ)) : Option (NativeIndex ρ) :=
  if spans.all fun s => exactTime s.since && exactEnd s.until_ then
    let timed := spans.zipIdx.map fun s => (s.1.since, s.1.until_, s.2)
    some {
      rows := spans.map Span.row
      starts := Keyed.sort (fun s : Timed => s.1) timed
      ends := Keyed.sort (fun s : Timed => s.2.1) timed }
  else none

def partitionPoint {β : Type} (p : β → Bool) (xs : List β) : Nat := (xs.takeWhile p).length

/-- `overlapping` of the extension. -/
def NativeIndex.overlapping (index : NativeIndex ρ) (start stop : ℚ) : List ρ :=
  let hi := partitionPoint (fun s => s.1 ≤ stop) index.starts
  let lo := partitionPoint (fun s => s.2.1 < (start : WithTop ℚ)) index.ends
  let indices :=
    if hi ≤ index.ends.length - lo then
      ((index.starts.take hi).filter fun s => (start : WithTop ℚ) ≤ s.2.1).map (·.2.2)
    else ((index.ends.drop lo).filter fun s => s.1 ≤ stop).map (·.2.2)
  indices.filterMap (index.rows[·]?)

/-- `overlapping`; `native` is whether there is an extension. -/
def overlapping (native : Bool) (spans : List (Span ρ)) (start stop : ℚ) : List ρ :=
  let index := if native && 128 ≤ spans.length then NativeIndex.new spans else none
  match index with
  | some index =>
    if exactTime start && exactTime stop then index.overlapping start stop
    else (pythonIndex spans).overlappingPython start stop
  | none => (pythonIndex spans).overlappingPython start stop

/-! ## `QuotaClipIndex` -/

/-- `QuotaClipIndex` -/
structure ClipIndex where
  endpoints : List Endpoint
  orderedEndpoints : List (ℚ × Nat)
  rows : List CostRow
  orderedRows : List (ℚ × Nat)

def ordered (times : List ℚ) : List (ℚ × Nat) :=
  Keyed.sort (fun entry : ℚ × Nat => toLex entry) times.zipIdx

/-- `QuotaClipIndex.new`: nothing where it raises `ValueError`. -/
def ClipIndex.new (endpoints : List Endpoint) (rows : List CostRow) : Option ClipIndex :=
  if endpoints.all (fun r => exactTime r.1) && rows.all (fun r => exactTime r.ts) then
    some {
      endpoints := endpoints
      orderedEndpoints := ordered (endpoints.map Prod.fst)
      rows := rows
      orderedRows := ordered (rows.map CostRow.ts) }
  else none

/-- `selected`: the indices from `start`, or after it, up to `stop`. -/
def selected (values : List (ℚ × Nat)) (start stop : ℚ) (leftOpen : Bool) : List Nat :=
  let lo := partitionPoint
    (fun entry : ℚ × Nat => if leftOpen then entry.1 ≤ start else entry.1 < start) values
  let hi := partitionPoint (fun entry : ℚ × Nat => entry.1 ≤ stop) values
  (((values.take hi).drop (min lo hi)).map (·.2)).insertionSort (· ≤ ·)

def ClipIndex.select (index : ClipIndex) (start stop : ℚ) : List Endpoint × List CostRow :=
  let points := (selected index.orderedEndpoints start stop false).filterMap (index.endpoints[·]?)
  let rows := match QuotaClip.span points with
    | some (first, last) => selected index.orderedRows first.1 last.1 true
    | none => []
  (points, rows.filterMap (index.rows[·]?))

/-- An interval through the index, as long as the extension takes all times. -/
def clipThrough (cycle : Cycle) (start stop : ℚ) : Option Cycle :=
  match ClipIndex.new cycle.endpoints cycle.costRows with
  | some index => QuotaClip.clipSelection cycle (index.select start stop)
  | none => QuotaClip.clip cycle (some start) (some stop)

end Codexon.QuotaWindows
