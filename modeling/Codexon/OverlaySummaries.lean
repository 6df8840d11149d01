import Codexon.DictMerge
import Codexon.Json

/-!
# Codexon.OverlaySummaries

`cachemonitor/overlay_data.py` (`OverlaySummaries`), `cachemonitor/session_costs.py` and
`cachemonitor/prepared_overlays.py` (`PreparedOverlays`): own summaries and family
rollups, and what is kept of them from one presentation to the next.

A rolled-up summary is modelled by what it is computed from: its costs and the own
summaries and partial sums of its members.  An object is named by the call that made it,
so that `is` can be asked of two objects of an owner; amounts are of any type with a sum.
-/

namespace Codexon.OverlaySummaries

/-- `(home, id)`. -/
abbrev Owner := PyStr × PyStr

abbrev Speed := List (PyStr × Json)

/-- An own summary: what presenting reads of it, and its other items. -/
structure Summary (μ τ : Type) where
  cost : Option μ
  calls : Nat
  priced : Nat
  coverageGap : Bool
  speedEligible : Option Bool
  other : τ
deriving DecidableEq

/-- What presenting reads of the metadata of a session. -/
structure Session where
  parentThreadId : Option PyStr := none
  collectionComplete : Option Bool := none

/-! ## session_costs -/

/-- The sessions that `session_costs` is given, with their `parent_thread_id`. -/
abbrev Lineage := Dict Owner (Option PyStr)

def lineage (sessions : Dict Owner Session) : Lineage :=
  sessions.mapVal fun _ session => session.parentThreadId

def parentOf (indexed : Lineage) (key : Owner) : Option Owner :=
  match indexed.get? key with
  | some (some id) =>
    let parent := (key.1, id)
    if parent ≠ key ∧ (indexed.get? parent).isSome then some parent else none
  | _ => none

/-- The loop of `ancestors`, for at most `steps` steps; none for a cycle. -/
def climb (indexed : Lineage) : Nat → List Owner → Owner → Option (List Owner)
  | 0, _, _ => none
  | steps + 1, seen, key =>
    match parentOf indexed key with
    | none => some []
    | some parent =>
      if parent ∈ seen then none
      else (climb indexed steps (parent :: seen) parent).map (parent :: ·)

def ancestors (indexed : Lineage) (key : Owner) : List Owner :=
  (climb indexed indexed.keys.length [key] key).getD []

/-- `members`: the owner, and those it is an ancestor of. -/
def members (indexed : Lineage) (key : Owner) : List Owner :=
  key :: indexed.keys.filter fun other => key ∈ ancestors indexed other

variable {μ τ π ν ρ : Type} [Zero μ] [Add μ]

/-- What `session_costs` returns for an owner. -/
structure Costs (μ : Type) where
  ownCost : Option μ
  childCost : Option μ
  cost : Option μ
  calls : Nat
  priced : Nat
  descendants : Nat
  isPartial : Bool
  gap : Bool
deriving DecidableEq

/-- `session_costs` for one owner: its own costs, if it has any, then those of its
descendants in order. -/
def costsOf (own : Option (Summary μ τ)) (descendants : List (Summary μ τ)) : Costs μ :=
  let ownCalls := (own.map Summary.calls).getD 0
  let ownPriced := (own.map Summary.priced).getD 0
  let ownCost :=
    if ownPriced ≠ 0 then some ((own.bind Summary.cost).getD 0)
    else if ownCalls = 0 then some 0
    else none
  let childSum := descendants.foldl (fun total child => total + child.cost.getD 0) 0
  let childCalls := (descendants.map Summary.calls).sum
  let childPriced := (descendants.map Summary.priced).sum
  let gap := own.any Summary.coverageGap || descendants.any Summary.coverageGap
  { ownCost
    childCost :=
      if childPriced ≠ 0 then some childSum else if childCalls = 0 then some 0 else none
    cost := if ownPriced + childPriced ≠ 0 then some (ownCost.getD 0 + childSum) else none
    calls := ownCalls + childCalls
    priced := ownPriced + childPriced
    descendants := descendants.length
    isPartial := ownPriced + childPriced < ownCalls + childCalls || gap
    gap }

/-! ## present -/

/-- The content of a summary as it is presented. -/
inductive Shown (μ τ π : Type) where
  | own (summary : Summary μ τ)
  | family (finance compact : Bool) (costs : Costs μ) (members : List (Owner × Summary μ τ × π))
deriving DecidableEq

/-- A summary object. -/
structure Obj (μ τ π : Type) where
  stamp : Nat
  shown : Shown μ τ π

def Shown.isFamily : Shown μ τ π → Bool
  | .own _ => false
  | .family .. => true

/-- `a is b`, of objects of one owner: a call makes at most one own summary and one rollup. -/
def Obj.is (a b : Obj μ τ π) : Bool := a.shown.isFamily = b.shown.isFamily ∧ a.stamp = b.stamp

/-- An own summary as an object. -/
structure Own (μ τ : Type) where
  stamp : Nat
  summary : Summary μ τ

def Own.obj (own : Own μ τ) : Obj μ τ π := ⟨own.stamp, .own own.summary⟩

/-- A presented summary: `dict(summary, speed_health=.., collection_complete=..)`. -/
structure Presented (μ τ π : Type) where
  summary : Obj μ τ π
  speed : Speed
  complete : Option Bool
  stamp : Nat

/-- `signature` of a rollup: the options, and the members with their revisions. -/
abbrev Signature (ν : Type) := Bool × Bool × List (Owner × ν)

/-- `OverlaySummaries`, where revisions are of type `ν`. -/
structure Presenter (μ τ π ν : Type) where
  cache : Dict Owner (ν × Own μ τ) := {}
  partials : Dict Owner π := {}
  rollups : Dict Owner (Signature ν × Obj μ τ π) := {}
  presented : Dict Owner (Presented μ τ π) := {}
  /-- the number of the next call -/
  clock : Nat := 0

def pendingSpeed : Speed := [("active", .null), ("status", .str "pending")]

def speedOf (speeds : Dict Owner Speed) (key : Owner) (own : Summary μ τ) : Speed :=
  let speed := (speeds.get? key).getD pendingSpeed
  if (Json.lookup speed "active").getD .null = .null ∧ own.speedEligible = some false then
    [("active", .bool false)]
  else speed

/-- `complete`, from the flags of the members. -/
def completeOf (flags : List (Option Bool)) : Option Bool :=
  if some false ∈ flags then some false
  else if flags.all (· = some true) then some true
  else none

/-- The members of a rollup as they are now: `updated[member]` and `partials[member]`. -/
def entriesOf (updated : Dict Owner (ν × Own μ τ)) (partials : Dict Owner π) (keys : List Owner) :
    List (Owner × ν × Summary μ τ × π) :=
  keys.filterMap fun key =>
    match updated.get? key, partials.get? key with
    | some entry, some part => some (key, entry.1, entry.2.summary, part)
    | _, _ => none

def rollupOf (finance compact : Bool) (entries : List (Owner × Summary μ τ × π)) : Shown μ τ π :=
  let summaries := entries.map fun e => e.2.1
  .family finance compact (costsOf summaries.head? summaries.tail) entries

variable [DecidableEq ν]

def rollup (finance compact : Bool) (stamp : Nat) (entries : List (Owner × ν × Summary μ τ × π))
    (previous : Option (Signature ν × Obj μ τ π)) : Signature ν × Obj μ τ π :=
  let signature := (finance, compact, entries.map fun e => (e.1, e.2.1))
  let fresh := (signature, ⟨stamp, rollupOf finance compact (entries.map fun e => (e.1, e.2.2))⟩)
  match previous with
  | none => fresh
  | some previous => if previous.1 = signature then previous else fresh

def offered (selected : Option (List Owner)) (key : Owner) : Bool :=
  match selected with
  | none => true
  | some keys => key ∈ keys

/-- `presented[key]`: that of the same summary, speed and completeness is kept. -/
def keep (stamp : Nat) (previous : Option (Presented μ τ π)) (summary : Obj μ τ π) (speed : Speed)
    (complete : Option Bool) : Presented μ τ π :=
  match previous with
  | none => ⟨summary, speed, complete, stamp⟩
  | some previous =>
    if previous.summary.is summary ∧ previous.speed = speed ∧ previous.complete = complete then
      previous
    else ⟨summary, speed, complete, stamp⟩

def present (finance compact : Bool) (selected : Option (List Owner))
    (sessions : Dict Owner Session) (updated : Dict Owner (ν × Own μ τ)) (partials : Dict Owner π)
    (speeds : Dict Owner Speed) (p : Presenter μ τ π ν) : Presenter μ τ π ν :=
  let indexed := lineage sessions
  let merged := updated.build fun key _ =>
    if offered selected key ∧ (members indexed key).length ≠ 1 then
      some (rollup finance compact p.clock (entriesOf updated partials (members indexed key))
        (p.rollups.get? key))
    else none
  let presented := updated.build fun key entry =>
    if offered selected key then
      some (keep p.clock (p.presented.get? key) (((merged.get? key).map Prod.snd).getD entry.2.obj)
        (speedOf speeds key entry.2.summary)
        (completeOf ((members indexed key).map fun member =>
          (sessions.get? member).bind Session.collectionComplete)))
    else none
  { cache := updated, partials, rollups := merged, presented, clock := p.clock + 1 }

def Presenter.output (p : Presenter μ τ π ν) :
    List (Owner × Shown μ τ π × Speed × Option Bool) :=
  p.presented.entries.map fun e => (e.1, e.2.summary.shown, e.2.speed, e.2.complete)

/-! ## OverlaySummaries.collect -/

/-- What `collect` reads of the state of an owner in the engine. -/
structure EngineState (ρ : Type) where
  /-- `content_revision`, or `revision` without one -/
  revision : Nat
  /-- `bool(coverage_gaps)` of the source -/
  coverageGaps : Bool
  /-- the prepared session with the coverage gaps of the source -/
  prepared : ρ
  session : Session

/-- `(content_revision, bool(coverage_gaps))`. -/
def EngineState.number (state : EngineState ρ) : Nat × Bool := (state.revision, state.coverageGaps)

omit [Zero μ] [Add μ] in
/-- `updated[key]` and `partials[key]`: those of an equal revision are kept.  `summarize` is
`summarize_session` with its partial sums. -/
def summarized (summarize : ρ → Summary μ τ × π) (p : Presenter μ τ π (Nat × Bool)) (key : Owner)
    (state : EngineState ρ) : ((Nat × Bool) × Own μ τ) × π :=
  match p.cache.get? key, p.partials.get? key with
  | some previous, some part =>
    if previous.1 = state.number then (previous, part)
    else ((state.number, ⟨p.clock, (summarize state.prepared).1⟩), (summarize state.prepared).2)
  | _, _ =>
    ((state.number, ⟨p.clock, (summarize state.prepared).1⟩), (summarize state.prepared).2)

/-- `OverlaySummaries.collect`. -/
def collect (summarize : ρ → Summary μ τ × π) (p : Presenter μ τ π (Nat × Bool))
    (engine : Dict Owner (EngineState ρ)) (speeds : Dict Owner Speed) :
    Presenter μ τ π (Nat × Bool) :=
  present true false none (engine.mapVal fun _ state => state.session)
    (engine.mapVal fun key state => (summarized summarize p key state).1)
    (engine.mapVal fun key state => (summarized summarize p key state).2) speeds p

/-! ## PreparedOverlays -/

/-- `(instance, generation)` of a publication. -/
structure Token where
  instance_ : PyStr
  generation : Nat
deriving DecidableEq

inductive OverlayError where
  | notReady
  | rebuildRequired
deriving DecidableEq

/-- A delivered summary, but for the generation token that is bound to it. -/
structure Packet (μ τ π : Type) where
  shown : Shown μ τ π
  speed : Speed
  complete : Option Bool
  overlayRevision : Token

/-- `PreparedOverlays`. -/
structure Overlays (μ τ π : Type) where
  compact : Bool := false
  finance : Bool := false
  presenter : Presenter μ τ π Token := {}
  own : Dict Owner (Own μ τ) := {}
  partials : Dict Owner π := {}
  revisions : Dict Owner Token := {}
  detailRevisions : Dict Owner Token := {}
  summaries : Dict Owner (Packet μ τ π) := {}

/-- What `prime` makes of the summary packet of an owner, with the latest speed facts, for a
presenter that is `compact` or has `finance`. -/
abbrev Head (μ τ π ρ : Type) := Bool → Bool → ρ → Except OverlayError (Summary μ τ × π)

variable (head : Head μ τ π ρ)

omit [Zero μ] [Add μ] in
def prime (s : Overlays μ τ π) (token : Token) (key : Owner) (packet : ρ) (preserveContent : Bool) :
    Except OverlayError (Overlays μ τ π) := do
  let s ←
    if preserveContent then .ok s
    else do
      let (summary, part) ← head s.compact s.finance packet
      pure { s with
        own := s.own.set key ⟨s.presenter.clock, summary⟩
        partials := s.partials.set key part }
  return { s with revisions := s.revisions.set key token }

/-- The metadata of an owner in a generation. -/
structure Metadata where
  internalReview : Bool := false
  session : Session := {}

/-- The arguments of `PreparedOverlays.collect`, but for the view. -/
structure Call where
  token : Token
  owners : Dict Owner Metadata
  changed : Option (List Owner) := none
  removed : List Owner := []
  speeds : Dict Owner Speed := {}
  selected : Option (List Owner) := none

def Call.visible (c : Call) : Dict Owner Session :=
  c.owners.build fun _ metadata => if metadata.internalReview then none else some metadata.session

def Call.changes (c : Call) (key : Owner) : Bool :=
  match c.changed with
  | none => true
  | some keys => key ∈ keys

def forget (s : Overlays μ τ π) (c : Call) : Overlays μ τ π :=
  let keeps := fun key => (s.own.get? key).isNone ∨ (c.visible.get? key).isSome
  let stays := fun key => keeps key ∧ key ∉ c.removed
  { s with
    own := s.own.build fun key value => if stays key then some value else none
    partials := s.partials.build fun key value => if stays key then some value else none
    revisions := s.revisions.build fun key value => if stays key then some value else none }

/-- The loop over the visible owners: what is not kept is read from the view. -/
def primeOne (packets : Owner → Option ρ) (c : Call) (s : Overlays μ τ π) (key : Owner) :
    Except OverlayError (Overlays μ τ π) :=
  if ¬ c.changes key ∧ (s.own.get? key).isSome then .ok s
  else if s.revisions.get? key = some c.token then .ok s
  else
    match packets key with
    | none => .error .notReady
    | some packet => prime head s c.token key packet false

/-- `updated[key]`: the entry of the same own summary keeps its revision. -/
def updatedOf (s : Overlays μ τ π) (key : Owner) : Option (Token × Own μ τ) :=
  match s.own.get? key, s.revisions.get? key with
  | some own, some revision =>
    match s.presenter.cache.get? key with
    | some prior => if prior.2.stamp = own.stamp then some prior else some (revision, own)
    | none => some (revision, own)
  | _, _ => none

/-- `_overlay_revision`: that of the same summary object is kept. -/
def detailOf (s : Overlays μ τ π) (token : Token) (key : Owner) (current : Presented μ τ π) :
    Token :=
  match s.presenter.presented.get? key, s.detailRevisions.get? key with
  | some prior, some revision => if prior.summary.is current.summary then revision else token
  | _, _ => token

/-- `summaries[key]`: the packet of the same value is kept. -/
def packetOf (s : Overlays μ τ π) (token : Token) (key : Owner) (current : Presented μ τ π) :
    Packet μ τ π :=
  let fresh := ⟨current.summary.shown, current.speed, current.complete,
    detailOf s token key current⟩
  match s.presenter.presented.get? key, s.summaries.get? key with
  | some prior, some packet => if prior.stamp = current.stamp then packet else fresh
  | _, _ => fresh

/-- The part of `PreparedOverlays.collect` after its loop. -/
def presentPrepared (s : Overlays μ τ π) (c : Call) : Overlays μ τ π :=
  let updated := c.visible.build fun key _ => updatedOf s key
  let presenter :=
    present s.finance s.compact c.selected c.visible updated s.partials c.speeds s.presenter
  { s with
    presenter
    detailRevisions := presenter.presented.mapVal (detailOf s c.token)
    summaries := presenter.presented.mapVal (packetOf s c.token) }

/-- `PreparedOverlays.collect` over the summary packets of the view.  A call that raises is
made on a fork, which is dropped. -/
def collectPrepared (packets : Owner → Option ρ) (s : Overlays μ τ π) (c : Call) :
    Except OverlayError (Overlays μ τ π) :=
  (c.visible.keys.foldlM (primeOne head packets c) (forget s c)).map (presentPrepared · c)

/-- The summaries that are returned, apart from `_overlay_revision`. -/
def Overlays.output (s : Overlays μ τ π) : List (Owner × Shown μ τ π × Speed × Option Bool) :=
  s.summaries.entries.map fun e => (e.1, e.2.shown, e.2.speed, e.2.complete)

/-! ## the calls of a publisher -/

/-- What is done with a presenter: the publisher primes what it adopts, where `unchanged`
says that the entry of the owner is that of before but for its revisions and status. -/
inductive Step where
  | prime (token : Token) (key : Owner) (unchanged : Bool)
  | collect (call : Call)

/-- A step, when `packets` are the summary packets of each generation. -/
def step (packets : Token → Owner → Option ρ) (s : Overlays μ τ π) :
    Step → Except OverlayError (Overlays μ τ π)
  | .prime token key unchanged =>
    match packets token key with
    | none => .ok s
    | some packet => prime head s token key packet (unchanged && (s.own.get? key).isSome)
  | .collect call => collectPrepared head (packets call.token) s call

/-- The steps that were taken; what was done on a fork that was dropped is not among them. -/
def run (packets : Token → Owner → Option ρ) (s : Overlays μ τ π) (steps : List Step) :
    Except OverlayError (Overlays μ τ π) :=
  steps.foldlM (step head packets) s

end Codexon.OverlaySummaries
