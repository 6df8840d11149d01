import Codexon.Keyed
import Codexon.Native
import Mathlib.Data.Prod.Lex

/-!
# Codexon.TransportMatch

Which observed transport a request is attributed to: `Session.transport_details` of `core.py`
looks through all of them for each request, `transport_matches` of `usage.rs` sweeps once over both
lists in the order of time.
-/

namespace Codexon.TransportMatch

/-! ## `core.py` -/

structure Transport where
  ts : PyNum
  turn : PyStr := []

/-- The turn of a request is what its JSON record has. -/
structure Request where
  ts : PyNum
  turn : Json := .str []

def Qualifies (request : Request) (transport : Transport) : Prop :=
  transport.ts.value ≤ request.ts.value ∧
    (request.turn.truthy = false ∨ transport.turn = [] ∨ request.turn = .str transport.turn)

instance (request : Request) (transport : Transport) : Decidable (Qualifies request transport) := by
  unfold Qualifies
  infer_instance

/-- `max(items, key=ts, default=None)` keeps the first of the largest. -/
def latest (items : List (Transport × Nat)) : Option (Transport × Nat) :=
  items.foldl (fun best item =>
    match best with
    | none => some item
    | some best => if best.1.ts.value < item.1.ts.value then some item else some best) none

/-- `transport_details`, by the index of the observation. -/
def transportDetails (transports : List Transport) (request : Request) : Option Nat :=
  (latest (transports.zipIdx.filter fun item => Qualifies request item.1)).map (·.2)

/-! ## `usage.rs` -/

/-- `TimedTurn`; the time is finite. -/
structure TimedTurn where
  ts : PyFloat
  turn : PyStr
  index : Nat

def rational : PyFloat → ℚ
  | .finite q => q
  | _ => 0

namespace TimedTurn

def time (t : TimedTurn) : ℚ := rational t.ts

/-- The order of `total_cmp` on finite numbers: the negative zero is before zero. -/
def total (t : TimedTurn) : ℚ ×ₗ Bool := toLex (t.time, t.ts ≠ .negZero)

end TimedTurn

def extractTime : PyNum → Option PyFloat
  | .int n =>
    match PyFloat.ofInt n with
    | .ok ts => if (PyNum.int n).value.eq ts && ts.isfinite then some ts else none
    | .error _ => none
  | .float ts => if ts.isfinite then some ts else none

def timedTurn (item : (PyNum × Json) × Nat) : Native.Taken TimedTurn :=
  match extractTime item.1.1 with
  | none => .ok none
  | some ts =>
    if item.1.2.truthy = false then .ok (some ⟨ts, [], item.2⟩)
    else
      match item.1.2 with
      | .str text =>
        match Native.extractText text with
        | .ok turn => .ok (some ⟨ts, turn, item.2⟩)
        | .error e => .error e
      | _ => .ok none

def timedTurns (items : List (PyNum × Json)) : Native.Taken (List TimedTurn) :=
  Native.takeAll timedTurn items.zipIdx

/-- A time and an index. -/
abbrev Candidate := ℚ × Nat

def later : Option Candidate → Option Candidate → Option Candidate
  | some a, some b => some (if b.1 > a.1 ∨ b.1 = a.1 ∧ b.2 < a.2 then b else a)
  | some a, none => some a
  | none, b => b

/-- The best transports so far: of all, of those without a turn, and of each turn. -/
structure Seen where
  any : Option Candidate := none
  blank : Option Candidate := none
  byTurn : PyStr → Option Candidate := fun _ => none

namespace Seen

def add (seen : Seen) (t : TimedTurn) : Seen :=
  let candidate := some (t.time, t.index)
  if t.turn = [] then
    { seen with any := later seen.any candidate, blank := later seen.blank candidate }
  else
    { seen with
      any := later seen.any candidate
      byTurn := Function.update seen.byTurn t.turn (later (seen.byTurn t.turn) candidate) }

def selected (seen : Seen) (request : TimedTurn) : Option Candidate :=
  if request.turn = [] then seen.any else later seen.blank (seen.byTurn request.turn)

end Seen

/-- The loop over the sorted requests; what it writes, and where. -/
def sweep : List TimedTurn → List TimedTurn → Seen → List (Nat × Option Nat)
  | [], _, _ => []
  | request :: requests, transports, seen =>
    let passed := transports.takeWhile fun t => t.time ≤ request.time
    let rest := transports.dropWhile fun t => t.time ≤ request.time
    let seen := passed.foldl Seen.add seen
    (request.index, (seen.selected request).map (·.2)) :: sweep requests rest seen

/-- `result[index] = value`, for each write. -/
def written (result : List (Option Nat)) (writes : List (Nat × Option Nat)) : List (Option Nat) :=
  writes.foldl (fun result write => result.set write.1 write.2) result

/-- `transport_matches` of batches that were read. -/
def matched (requests transports : List TimedTurn) : List (Option Nat) :=
  written (List.replicate requests.length none)
    (sweep (Keyed.sort TimedTurn.total requests) (Keyed.sort TimedTurn.total transports) {})

def Request.item (request : Request) : PyNum × Json := (request.ts, request.turn)

def Transport.item (transport : Transport) : PyNum × Json := (transport.ts, .str transport.turn)

def transportMatches (requests : List Request) (transports : List Transport) :
    Native.Taken (List (Option Nat)) :=
  match timedTurns (requests.map Request.item) with
  | .error e => .error e
  | .ok none => .ok none
  | .ok (some requests) =>
    match timedTurns (transports.map Transport.item) with
    | .error e => .error e
    | .ok none => .ok none
    | .ok (some transports) => .ok (some (matched requests transports))

def transportDetailsMany (requests : List Request) (transports : List Transport) :
    Except PyError (List (Option Nat)) :=
  if transports = [] then .ok (requests.map (transportDetails transports))
  else
    match transportMatches requests transports with
    | .error e => .error e
    | .ok none => .ok (requests.map (transportDetails transports))
    | .ok (some indices) => .ok indices

end Codexon.TransportMatch
