import Mathlib.Data.List.Dedup
import Mathlib.Data.Prod.Lex
import Codexon.Json

/-!
# Codexon.SplitCycles

`split_cycles` of `cachemonitor/quota_cycles.py`: quota observations are divided into
groups of one limit window each, with the observations that contradict their group.

Times, percentages and window lengths are of a linearly ordered type with arithmetic of
which nothing is assumed, so its operations may round as floats do.
-/

namespace Codexon.SplitCycles

/-- An observation.  A field of type `Option Json` need not be there. -/
structure Observation (α : Type) where
  id : PyStr
  at_ : α
  used : α
  reset : Option α
  account : Json
  minutes : α
  source : Json
  plan : Option Json := none
  bucket : Option Json := none
  separate : Option Json := none
deriving DecidableEq

/-- A manual reset. -/
structure Manual (α : Type) where
  id : PyStr
  at_ : α
  baselineAfter : α
  account : Json
deriving DecidableEq

/-- A group; `discontinuous` ones are the uncertain tails. -/
structure Group (α : Type) where
  id : PyStr
  reason : PyStr
  boundary : α
  observations : List (Observation α) := []
  rejected : List (Observation α) := []
  manualReset : Option (Manual α) := none
  discontinuous : Bool := false
deriving DecidableEq

/-- What is in a timeline. -/
inductive Entry (α : Type) where
  | manual (reset : Manual α)
  | observation (item : Observation α)

variable {α : Type} [LinearOrder α] [Zero α] [Sub α] [Mul α] [NatCast α]

def resetTolerance : α := ((120 : Nat) : α)

def maxObservationGap : α := ((30 * 60 : Nat) : α)

/-- `abs(a - b) <= RESET_TOLERANCE`. -/
def near (a b : α) : Bool :=
  let d := a - b
  (if d < 0 then 0 - d else d) ≤ resetTolerance

/-- `item['reset']`, when it is true. -/
def resetOf (item : Observation α) : Option α := item.reset.filter (· ≠ 0)

/-- `r.get(key)`. -/
def field (value : Option Json) : Json := value.getD .null

/-- `r.get(key, '')`. -/
def text (value : Option Json) : Json := value.getD (.str [])

/-! ## prefilters -/

def considered (observations : List (Observation α)) : List (Observation α) :=
  let identified := observations.filter fun r => r.account.truthy
  if identified = [] then observations else identified

/-- A value of `by_time`. -/
def facts (r : Observation α) : α × Option α × Json × α × Json × Json :=
  (r.used, r.reset, r.account, r.minutes, text r.plan, text r.bucket)

def conflicting (observations : List (Observation α)) (at_ : α) : Bool :=
  1 < ((observations.filter fun r => r.at_ = at_).map facts).dedup.length

/-- The condition on `r` of a spike or dip after `a`; `r['reset']-a['reset']` raises where
the first has no reset. -/
def sameWindow (a r : Observation α) : Except PyError Bool :=
  match resetOf r with
  | none => .ok false
  | some reset =>
    match a.reset with
    | none => .error .typeError
    | some other => .ok (near reset other && r.minutes = a.minutes && r.account = a.account &&
        text r.plan = text a.plan && text r.bucket = text a.bucket && r.source = a.source)

/-- A middle observation that contradicts two equal ones at most 30 minutes apart. -/
def isSpike (a b c : Observation α) : Bool :=
  a.at_ < b.at_ ∧ b.at_ < c.at_ ∧ c.at_ - a.at_ ≤ maxObservationGap ∧
    a.used = c.used ∧ c.used ≠ b.used

/-- A single contradictory spike or dip does not establish consumption. -/
def isIsolated (manuals : List (Manual α)) (a b c : Observation α) : Except PyError Bool :=
  if isSpike a b c then do
    if ← sameWindow a b then
      if ← sameWindow a c then
        return ¬ manuals.any fun m => a.at_ ≤ m.at_ ∧ m.at_ ≤ c.at_
      else return false
    else return false
  else return false

/-- `zip(observations, observations[1:], observations[2:])`. -/
def triples {β : Type} : List β → List (β × β × β)
  | a :: b :: c :: rest => (a, b, c) :: triples (b :: c :: rest)
  | _ => []

def isolated (manuals : List (Manual α)) (observations : List (Observation α)) :
    Except PyError (List PyStr) :=
  (triples observations).foldlM (fun ids (a, b, c) => do
    if ← isIsolated manuals a b c then return b.id :: ids else return ids) []

/-! ## groups -/

/-- A record of `epochs`, with its `high`. -/
structure Epoch (α : Type) where
  item : Observation α
  high : α

/-- `groups`, of which the last may still change, and `epochs`. -/
structure State (α : Type) where
  closed : List (Group α) := []
  current : Option (Group α) := none
  epochs : List (Epoch α) := []

def State.groups (s : State α) : List (Group α) := s.closed ++ s.current.toList

def sameEpoch (record item : Observation α) : Bool :=
  record.minutes = item.minutes ∧
    ((resetOf record).any fun reset => (resetOf item).any fun other => near reset other) ∧
    ([(record.account, item.account), (field record.plan, field item.plan),
      (field record.bucket, field item.bucket)].all fun pair =>
        ¬ pair.1.truthy ∨ ¬ pair.2.truthy ∨ pair.1 = pair.2)

/-- `epoch`, and the use of its record by `accept`: the item is below the high of its
epoch, or raises it. -/
def raiseHigh (epochs : List (Epoch α)) (item : Observation α) : List (Epoch α) × Bool :=
  match resetOf item with
  | none => (epochs, true)
  | some _ =>
    match epochs.findIdx? fun record => sameEpoch record.item item with
    | none => (epochs ++ [⟨item, item.used⟩], true)
    | some i =>
      match epochs[i]? with
      | none => (epochs, true)
      | some record =>
        if item.used < record.high then (epochs, false)
        else (epochs.set i { record with high := max record.high item.used }, true)

def appendGroup (s : State α) (group : Group α) : State α :=
  { s with closed := s.closed ++ s.current.toList, current := some group }

/-- `groups[-1]['rejected'].append(item)`. -/
def reject (s : State α) (item : Observation α) : State α :=
  { s with current := s.current.map fun group =>
      { group with rejected := group.rejected ++ [item] } }

def accept (s : State α) (item : Observation α) : State α :=
  let (epochs, admitted) := raiseHigh s.epochs item
  let s := { s with epochs }
  if admitted then
    { s with current := s.current.map fun group =>
        { group with observations := group.observations ++ [item] } }
  else reject s item

def tailGroup (group : Group α) : Option (Group α) :=
  match group.observations.getLast? with
  | none => none
  | some last =>
    let tail := group.rejected.filter fun r => last.at_ < r.at_
    match tail.head?, tail.getLast? with
    | some first, some final => some
        { id := py "uncertain:" ++ first.id
          reason := py "사용률 불연속 (끝점 미확정)"
          boundary := last.at_
          observations := [last, final]
          rejected := tail
          discontinuous := true }
    | _, _ => none

def closeTail (s : State α) : State α :=
  match s.current.bind tailGroup with
  | none => s
  | some tail => { s with closed := s.closed ++ s.current.toList ++ [tail], current := none }

def breakReason (item previous : Observation α) : Option (PyStr × α) :=
  if item.account ≠ previous.account then some (py "계정 변경", item.at_)
  else if field item.plan ≠ field previous.plan ∨ field item.bucket ≠ field previous.bucket ∨
      field item.separate ≠ field previous.separate then
    some (py "요금제 또는 한도 변경", item.at_)
  else if item.minutes ≠ previous.minutes then
    some (py "한도 창 변경 (경계 미확인)", item.at_)
  else
    match resetOf item, resetOf previous with
    | some reset, some before =>
      if near reset before then none
      else if before - resetTolerance ≤ item.at_ ∧
          near (reset - before) (item.minutes * ((60 : Nat) : α)) then
        some (py "예정 리셋 확인", before)
      else some (py "한도 시각 변경: 관측 구간 분리", item.at_)
    | _, _ => none

def manualStep (s : State α) (item : Manual α) : State α :=
  let s := { closeTail s with epochs := [] }
  appendGroup s
    { id := py "manual:" ++ item.id
      reason := py "리셋권 사용, 사용자 기록"
      boundary := item.at_
      manualReset := some item }

def observationStep (conflicts : α → Bool) (isolated : List PyStr) (s : State α) (group : Group α)
    (item : Observation α) : State α :=
  if group.manualReset.any fun marker => item.at_ < marker.baselineAfter then s
  else if conflicts item.at_ ∨ item.id ∈ isolated then reject s item
  else
    match group.observations.getLast? with
    | none =>
      let changed := group.manualReset.any fun marker =>
        marker.account.truthy ∧ item.account.truthy ∧ marker.account ≠ item.account
      let s :=
        if changed then appendGroup s
          { id := item.id, reason := py "계정 변경", boundary := item.at_ }
        else s
      accept s item
    | some previous =>
      match breakReason item previous with
      | some (reason, boundary) =>
        accept (appendGroup (closeTail s) { id := item.id, reason, boundary }) item
      | none =>
        if item.used < previous.used then reject s item
        else accept s item

/-- The body of the loop over the timeline. -/
def step (conflicts : α → Bool) (isolated : List PyStr) (s : State α) : Entry α → State α
  | .manual item => manualStep s item
  | .observation item =>
    let s :=
      match s.current with
      | some _ => s
      | none => appendGroup s { id := item.id, reason := py "부분 관측", boundary := item.at_ }
    match s.current with
    | some group => observationStep conflicts isolated s group item
    | none => s

/-! ## the timeline -/

/-- `(at, kind, id)`. -/
def Entry.order : Entry α → α ×ₗ Nat ×ₗ PyStr
  | .manual m => toLex (m.at_, toLex (0, m.id))
  | .observation r => toLex (r.at_, toLex (1, r.id))

def timeline (observations : List (Observation α)) (manuals : List (Manual α)) : List (Entry α) :=
  (observations.map Entry.observation ++ manuals.map Entry.manual).mergeSort fun a b =>
    a.order ≤ b.order

def ordered (observations : List (Observation α)) : List (Observation α) :=
  (considered observations).mergeSort fun a b =>
    (toLex (a.at_, a.id) : α ×ₗ PyStr) ≤ toLex (b.at_, b.id)

def splitCycles (observations : List (Observation α)) (manuals : List (Manual α)) :
    Except PyError (List (Group α)) := do
  let isolated ← isolated manuals (ordered observations)
  let s := (timeline (ordered observations) manuals).foldl
    (step (conflicting (ordered observations)) isolated) {}
  return (closeTail s).groups

end Codexon.SplitCycles
