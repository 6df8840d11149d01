import Codexon.Number

/-!
# Codexon.Tracking

`cachemonitor/quota_tracking.py`: the forward tracker of account
observations.  `ResetTracker` classifies a rise of the remaining allowance
as a scheduled or an arbitrary reset; `TrackingState` cuts the accepted
observations into segments of consumption at resets, allowance changes and
gaps.

Epochs are tuples compared with `==`; their component type is a parameter.
Numbers enter only through comparisons, so `PyFloat` covers Python's `int`
and `float` alike.
-/

namespace Codexon

/-- The two kinds of allowance increase `ResetTracker.observe` reports. -/
inductive ResetEvent where
  | scheduledReset
  | arbitraryReset
deriving DecidableEq, Repr

/-- Classify observed allowance increases using the prior reset schedule. -/
structure ResetTracker where
  remaining : Option PyFloat := none
  atTime : Option PyFloat := none
  scheduledAt : Option PyFloat := none
  consumedAt : Option PyFloat := none
  recovering : Bool := false
deriving DecidableEq, Repr

namespace ResetTracker

/-- A discontinuity forgets the allowance, the schedule and the recovery;
only the time of the last sample stays. -/
def interrupt (t : ResetTracker) : ResetTracker :=
  { t with remaining := none, scheduledAt := none, consumedAt := none, recovering := false }

/-- A fall of the allowance ends a recovery: the first sample after a reset
may already include new consumption. -/
def settle (t : ResetTracker) (remaining : PyFloat) : ResetTracker :=
  if t.remaining.any (remaining < ·) then { t with recovering := false } else t

/-- The event of this sample: a rise outside a recovery, scheduled when the
known deadline has passed. -/
def rise (t : ResetTracker) (remaining time : PyFloat) : Option ResetEvent :=
  if t.remaining.any (· < remaining) && !t.recovering then
    some (if t.scheduledAt.any (· ≤ time) then .scheduledReset else .arbitraryReset)
  else none

/-- Record an event: recovery starts, a scheduled event consumes its deadline
and either kind clears the schedule. -/
def enter (t : ResetTracker) : Option ResetEvent → ResetTracker
  | none => t
  | some .scheduledReset =>
    { t with recovering := true, consumedAt := t.scheduledAt, scheduledAt := none }
  | some .arbitraryReset => { t with recovering := true, scheduledAt := none }

/-- Adopt a usable deadline that is not the consumed one, if none is known, it
is earlier, or the allowance is full.  An already due deadline is kept until
recovery is observed. -/
def reschedule (t : ResetTracker) (remaining : PyFloat) (scheduledAt : Option PyFloat) :
    ResetTracker :=
  match scheduledAt.filter fun s => s.isfinite && decide (0 < s) with
  | none => t
  | some schedule =>
    if !t.consumedAt.any (PyFloat.eq schedule) &&
        (t.scheduledAt.all (schedule < ·) || PyFloat.eq remaining 100) then
      { t with scheduledAt := some schedule }
    else t

/-- `ResetTracker.observe`: the event of one sample and the tracker after it. -/
def observe (t : ResetTracker) (remaining time : PyFloat) (scheduledAt : Option PyFloat)
    (continuous : Bool) : Option ResetEvent × ResetTracker :=
  let t := (if continuous then t else t.interrupt).settle remaining
  let event := t.rise remaining time
  (event, { (t.enter event).reschedule remaining scheduledAt with
    remaining := some remaining, atTime := some time })

/-! ## what one sample does -/

@[simp] theorem reschedule_recovering (t : ResetTracker) (r : PyFloat) (s : Option PyFloat) :
    (t.reschedule r s).recovering = t.recovering := by
  unfold reschedule; split
  · rfl
  · split <;> rfl

/-- Without an event, a recovery is only ever continued: the sample continued
the previous one and did not fall below it. -/
theorem observe_recovering {t : ResetTracker} {r time : PyFloat} {s : Option PyFloat} {c : Bool}
    (hevent : (t.observe r time s c).1 = none) (h : (t.observe r time s c).2.recovering = true) :
    c = true ∧ t.recovering = true ∧ ∀ x ∈ t.remaining, ¬ r < x := by
  simp only [observe] at hevent h
  rw [hevent] at h
  simp only [enter, reschedule_recovering] at h
  cases c with
  | false =>
    simp only [Bool.false_eq_true, if_false, settle, interrupt] at h
    split at h <;> simp at h
  | true =>
    simp only [if_true, settle] at h
    split at h
    · simp at h
    · next hfall =>
      refine ⟨rfl, h, fun x hx hlt => hfall ?_⟩
      rw [Option.mem_def.mp hx]
      simpa using hlt

end ResetTracker

/-! ## observations and segments -/

/-- One account observation as it reaches the tracker. -/
structure Observation (α : Type) where
  sequence : Int
  requestedAt : PyFloat
  receivedAt : PyFloat
  remaining : PyFloat
  epoch : List α
  resetsAt : Option PyFloat := none
  continuous : Bool := true
deriving DecidableEq, Repr

/-- Why a segment ended: one of the exits of `observe`, or a caller's `close`. -/
inductive CloseReason where
  | reset (event : ResetEvent)
  | allowanceChanged
  | observationGap
  | monitoringOff
  | on
deriving DecidableEq, Repr

/-- A closed segment.  The source's dictionary also carries the constants
`finished_at=None` and `boundary_uncertain=False`. -/
structure Segment (α : Type) where
  start : Observation α
  stop : Observation α
  reason : CloseReason
  observations : List (Observation α)
deriving DecidableEq, Repr

/-- The tracker's state. -/
structure TrackingState (α : Type) where
  activatedAt : PyFloat
  phase : String := "on"
  active : Option Bool := none
  activityAt : PyFloat := 0
  baseline : Option (Observation α) := none
  endpoint : Option (Observation α) := none
  last : Option (Observation α) := none
  generation : Nat := 0
  closed : List (Segment α) := []
  observations : List (Observation α) := []
  resets : ResetTracker := {}
deriving DecidableEq, Repr

namespace TrackingState

variable {α : Type} [DecidableEq α]

/-- Task lifecycle is supplementary evidence: it never touches the segments. -/
def activity (s : TrackingState α) (active : Bool) (time : PyFloat) : Bool × TrackingState α :=
  if time < s.activityAt then (false, s)
  else
    let changed := decide (s.active ≠ some active)
    (changed, { s with
      active := some active
      activityAt := time
      generation := if changed then s.generation + 1 else s.generation })

/-- End the open segment, if there is one, and clear the tracker's memory of
it; unless `keepReset`, the reset tracker starts over too. -/
def close (s : TrackingState α) (reason : CloseReason) (keepReset : Bool) : TrackingState α :=
  let closed := match s.baseline, s.endpoint with
    | some start, some stop => s.closed ++ [⟨start, stop, reason, s.observations⟩]
    | _, _ => s.closed
  { s with
    closed
    baseline := none
    endpoint := none
    last := none
    observations := []
    phase := "on"
    resets := if keepReset then s.resets else {} }

/-- A value no tracker accepts: not a percentage, received before it was
requested, or requested before activation. -/
def invalid (s : TrackingState α) (value : Observation α) : Bool :=
  !value.remaining.isfinite || !decide (0 ≤ value.remaining ∧ value.remaining ≤ 100) ||
    decide (value.receivedAt < value.requestedAt) ||
    decide (value.requestedAt < s.activatedAt)

def stale (s : TrackingState α) (value : Observation α) : Bool :=
  s.last.any fun last =>
    decide (value.sequence ≤ last.sequence) || decide (value.receivedAt < last.receivedAt)

/-- Account changes cannot establish a reset event. -/
def sameAccount (s : TrackingState α) (value : Observation α) : Except PyError Bool :=
  match s.last with
  | none => .ok true
  | some previous => do
    let a ← item previous.epoch 0
    let b ← item value.epoch 0
    return decide (a = b)

/-- The epochs agree, or agree in every component but the reset time. -/
def sameLimitEpoch (a b : List α) : Bool :=
  decide (a = b) ||
    decide (5 ≤ b.length) && decide (5 ≤ a.length) &&
      decide (a.take 3 ++ a.drop 4 = b.take 3 ++ b.drop 4)

def sameLimit (s : TrackingState α) (value : Observation α) : Bool :=
  s.last.all fun previous => sameLimitEpoch previous.epoch value.epoch

/-- Later samples can finish the same recovery: the allowance rose again
within one limit while the tracker is recovering. -/
def recovers (s : TrackingState α) (value : Observation α) (sameLimit : Bool) : Bool :=
  s.resets.recovering && s.endpoint.any (·.remaining < value.remaining) && sameLimit

def rebase (s : TrackingState α) (value : Observation α) : TrackingState α :=
  { s with baseline := some value, endpoint := some value, last := some value,
           observations := [value] }

/-- The value is appended to the open segment, opening one if needed. -/
def extend (s : TrackingState α) (value : Observation α) : TrackingState α :=
  { s with
    last := some value
    baseline := some (s.baseline.getD value)
    endpoint := some value
    observations := s.observations ++ [value] }

def advance (s : TrackingState α) (value : Observation α) :
    Option ResetEvent × TrackingState α :=
  let (event, resets) := s.resets.observe value.remaining value.receivedAt value.resetsAt
    (value.continuous && s.sameLimit value)
  (event, { s with resets })

/-- `TrackingState.observe`: whether the value was accepted, and the state
after it.  `endpoint` is set whenever `last` is, so the attribute accesses of
the source are the `any`s here. -/
def observe (s : TrackingState α) (value : Observation α) :
    Except PyError (Bool × TrackingState α) :=
  if s.invalid value then .ok (false, s)
  else if s.stale value then .ok (false, s)
  else do
    let sameAccount ← s.sameAccount value
    let sameLimit := s.sameLimit value
    let (event, s) := s.advance value
    match event with
    | some e => .ok (true, (s.close (.reset e) true).extend value)
    | none =>
      if s.recovers value sameLimit then .ok (true, s.rebase value)
      else if s.last.any (·.epoch ≠ value.epoch) then
        -- A changed timestamp alone is not a reset.
        if !sameLimit || s.endpoint.any (·.remaining < value.remaining) then
          .ok (true, (s.close .allowanceChanged sameAccount).extend value)
        else .ok (true, s.extend value)
      else if s.endpoint.any (·.remaining < value.remaining) then
        .ok (true, (s.close .observationGap true).extend value)
      else .ok (true, s.extend value)

/-- The exit of `observe` that discards the open segment's candidates: no
event, and the recovery goes on. -/
def replaces (s : TrackingState α) (value : Observation α) : Bool :=
  (s.advance value).1.isNone && (s.advance value).2.recovers value (s.sameLimit value)

/-! ## the exits of `observe` -/

/-- The three things an accepted value does to the state: it opens a new
segment, replaces a recovering one, or extends the open one. -/
inductive Accepts (s : TrackingState α) (value : Observation α) : TrackingState α → Prop
  | opened (reason : CloseReason) (keepReset : Bool) (h : s.replaces value = false) :
      Accepts s value (((s.advance value).2.close reason keepReset).extend value)
  | rebased (h : s.replaces value = true) : Accepts s value ((s.advance value).2.rebase value)
  | extended (h : s.replaces value = false) (hevent : (s.advance value).1 = none)
      (hlimit : s.sameLimit value = true)
      (hfall : ∀ e ∈ s.endpoint, ¬ e.remaining < value.remaining) :
      Accepts s value ((s.advance value).2.extend value)

/-- **Inversion of `observe`**: a rejected value changes nothing; an accepted
one is a valid percentage after the last value, and takes one of three exits. -/
theorem observe_cases {s s' : TrackingState α} {value : Observation α} {accepted : Bool}
    (h : s.observe value = .ok (accepted, s')) : accepted = false ∧ s' = s ∨
      accepted = true ∧ s.invalid value = false ∧ s.stale value = false ∧ Accepts s value s' := by
  unfold observe at h
  split at h
  · cases h; exact .inl ⟨rfl, rfl⟩
  next hinvalid =>
  split at h
  · cases h; exact .inl ⟨rfl, rfl⟩
  next hstale =>
  simp only [Bool.not_eq_true] at hinvalid hstale
  cases haccount : s.sameAccount value with
  | error e => rw [haccount] at h; cases h
  | ok sameAccount =>
  rw [haccount] at h
  simp only [bind, Except.bind] at h
  refine .inr ?_
  cases hevent : (s.advance value).1 with
  | some e =>
    rw [hevent] at h
    cases h
    exact ⟨rfl, hinvalid, hstale, .opened _ _ (by simp [replaces, hevent])⟩
  | none =>
    rw [hevent] at h
    have hlast : (s.advance value).2.last = s.last := rfl
    have hend : (s.advance value).2.endpoint = s.endpoint := rfl
    simp only [hlast, hend] at h
    cases hrecovers : (s.advance value).2.recovers value (s.sameLimit value) with
    | true =>
      simp only [hrecovers, if_true] at h
      cases h
      exact ⟨rfl, hinvalid, hstale, .rebased (by simp [replaces, hevent, hrecovers])⟩
    | false =>
      have hkeep : s.replaces value = false := by simp [replaces, hevent, hrecovers]
      simp only [hrecovers, Bool.false_eq_true, if_false] at h
      split at h
      · split at h
        · cases h; exact ⟨rfl, hinvalid, hstale, .opened _ _ hkeep⟩
        next hsame =>
        cases h
        simp only [Bool.or_eq_true, Bool.not_eq_true', not_or, Bool.not_eq_false] at hsame
        refine ⟨rfl, hinvalid, hstale, .extended hkeep hevent hsame.1 fun e he hlt => ?_⟩
        exact hsame.2 (by rw [Option.mem_def.mp he]; simpa using hlt)
      next hepoch =>
      split at h
      · cases h; exact ⟨rfl, hinvalid, hstale, .opened _ _ hkeep⟩
      next hfall =>
      cases h
      refine ⟨rfl, hinvalid, hstale, .extended hkeep hevent ?_ fun e he hlt => ?_⟩
      · cases hl : s.last with
        | none => simp [sameLimit, hl]
        | some p =>
          rw [hl] at hepoch
          simp only [Option.any_some, decide_not, Bool.not_eq_true', Bool.not_eq_false,
            decide_eq_true_eq] at hepoch
          simp [sameLimit, hl, sameLimitEpoch, hepoch]
      · exact hfall (by rw [Option.mem_def.mp he]; simpa using hlt)

end TrackingState

end Codexon
