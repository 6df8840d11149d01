import Codexon.Run
import Codexon.Session

/-!
# Codexon.ResponseTracker

`Tracker` of `cachemonitor/model_proxy.py`: the observation records of one relayed
connection.  A request queues its record in its lane; the first event of a
response id takes the oldest record of its lane, and a terminal event moves the
record to the completed ones.

Python holds a record by reference in one map at a time, so a change made to it
after it was queued is modelled where it is queued.  Clock readings, and the
timings made of them, are left out.
-/

namespace Codexon.ResponseTracker

/-! ## data -/

abbrev Members := List (PyStr × Json)

/-- An observation record.  `attempt` stands for the `uuid4` of the record. -/
structure Record where
  attempt : Nat
  requestedModel : PyStr := []
  requestedServiceTier : PyStr := []
  requestedEffort : PyStr := []
  responseEffort : PyStr := []
  responseEffortConflict : Bool := false
  wireServiceTierPresent : Option Bool := none
  cachePolicy : Option PyStr := none
  responseId : PyStr := []
  responseModel : PyStr := []
  responseServiceTier : PyStr := []
  status : PyStr := py "pending"
  conflict : Bool := false
  observationMissing : Bool := false
deriving DecidableEq

/-- What the store makes of a record: `write` returns, returns `False`, or raises
`sqlite3.Error` or `OSError`. -/
inductive Answer where
  | accepted
  | refused
  | failed
deriving DecidableEq

/-- `observation_enabled` during a call, and the answers of the store. -/
structure Env where
  enabled : Bool := true
  answer : Record → Answer := fun _ => .accepted

/-- A record as `save` hands it to the store, and whether `finish` did. -/
structure Handed where
  record : Record
  finishing : Bool
deriving DecidableEq

/-- The tracker.  `handed`, `requested` and `dropped` are not read by the code: the
records handed to the store, the requests with their lanes, and the records that are in
no map any more. -/
structure State where
  pending : Dict PyStr (List Record) := {}
  active : Dict PyStr Record := {}
  completed : Dict PyStr Record := {}
  attempts : Nat := 0
  requests : Nat := 0
  responses : Nat := 0
  handed : List Handed := []
  requested : List (Nat × PyStr) := []
  dropped : List Record := []
deriving DecidableEq

/-! ## reading events -/

/-- `identifier` of `model_evidence.py`, on what `obj.get` returns. -/
def identifier : Option Json → PyStr
  | some (.str s) => if Session.fullMatch "_.:/-" 256 s then s else []
  | _ => []

/-- `Tracker.effort` -/
def effort (obj : Members) : PyStr :=
  match Json.lookup obj (py "reasoning") with
  | some (.obj reasoning) => identifier (Json.lookup reasoning (py "effort"))
  | _ => []

/-- The response of an event: its `response`, or the object itself where it is one. -/
def responseOf (obj : Members) : Members :=
  match Json.lookup obj (py "response") with
  | some (.obj response) => response
  | _ => if Json.lookup obj (py "object") = some (.str (py "response")) then obj else []

/-- `rid` -/
def responseId (obj : Members) : PyStr := identifier (Json.lookup (responseOf obj) (py "id"))

def laneOf (obj : Members) : PyStr := identifier (Json.lookup obj (py "stream_id"))

def removePrefix (typ : PyStr) : PyStr :=
  if py "response." <+: typ then typ.drop (py "response.").length else typ

/-- `state`: the type of the event, else the status of the response. -/
def stateOf (obj : Members) : Json :=
  let typ := identifier (Json.lookup obj (py "type"))
  if typ = [] then (Json.lookup (responseOf obj) (py "status")).getD (.str [])
  else .str (removePrefix typ)

/-- The states that end a response. -/
def terminal : List PyStr :=
  [py "completed", py "failed", py "incomplete", py "cancelled"]

/-! ## saving -/

/-- `Tracker.save`: what becomes of the record. -/
def marked (env : Env) (record : Record) : Record :=
  if env.enabled && env.answer record = .refused then { record with observationMissing := true }
  else record

/-- `Tracker.save`: what becomes of the store. -/
def save (env : Env) (finishing : Bool) (record : Record) (s : State) : State :=
  if env.enabled then { s with handed := s.handed ++ [⟨record, finishing⟩] } else s

/-! ## calls -/

def queue (s : State) (lane : PyStr) : List Record := (s.pending.get? lane).getD []

/-- The queue of a lane after `popleft`: an empty one is removed. -/
def setQueue (s : State) (lane : PyStr) (records : List Record) : State :=
  { s with
    pending := if records = [] then s.pending.erase lane else s.pending.set lane records }

def requestRecord (attempt : Nat) (obj : Members) : Record where
  attempt := attempt
  requestedModel := identifier (Json.lookup obj (py "model"))
  requestedServiceTier := identifier (Json.lookup obj (py "service_tier"))
  requestedEffort := effort obj
  wireServiceTierPresent := some (Json.lookup obj (py "service_tier")).isSome
  cachePolicy := some (identifier (Json.lookup obj (py "prompt_cache_retention")))

/-- `Tracker.request` -/
def request (env : Env) (obj : Members) (s : State) : State :=
  let lane := laneOf obj
  let record := requestRecord s.attempts obj
  let s := save env false record s
  { s with
    attempts := s.attempts + 1
    pending := s.pending.set lane (queue s lane ++ [marked env record])
    requested := s.requested ++ [(record.attempt, lane)]
    requests := s.requests + 1 }

/-- `Tracker.response_effort`: the record, and whether it changed. -/
def responseEffort (response : Members) (record : Record) : Record × Bool :=
  let reported := effort response
  if reported = [] then (record, false)
  else
    let record := { record with
      responseEffortConflict := record.responseEffortConflict ||
        (record.responseEffort ≠ [] && record.responseEffort ≠ reported) }
    if record.responseEffort = reported then (record, false)
    else ({ record with responseEffort := reported }, true)

/-- An `error` event without a response id fails the oldest request of its lane. -/
def failOldest (env : Env) (lane : PyStr) (s : State) : State :=
  match queue s lane with
  | [] => s
  | record :: rest =>
    let record := { record with status := py "failed" }
    let s := save env false record (setQueue s lane rest)
    { s with dropped := s.dropped ++ [marked env record] }

def replay (env : Env) (rid : PyStr) (response : Members) (record : Record) (s : State) : State :=
  let (record, changed) := responseEffort response record
  let model := identifier (Json.lookup response (py "model"))
  let conflicting := model ≠ [] && record.responseModel ≠ [] && model ≠ record.responseModel
  let record := if conflicting then { record with conflict := true } else record
  if changed || conflicting then
    let s := save env false record s
    { s with completed := s.completed.set rid (marked env record) }
  else { s with completed := s.completed.set rid record }

/-- The first event of a response takes the oldest record of its lane, or starts a record
of its own. -/
def associate (rid lane : PyStr) (s : State) : State :=
  match queue s lane with
  | record :: rest =>
    let s := setQueue s lane rest
    { s with active := s.active.set rid record }
  | [] =>
    { s with
      attempts := s.attempts + 1
      active := s.active.set rid { attempt := s.attempts } }

def absorb (rid : PyStr) (response : Members) (record : Record) : Record :=
  let record := (responseEffort response { record with responseId := rid }).1
  let record :=
    match Json.lookup response (py "service_tier") with
    | some tier => if tier.truthy then
        { record with responseServiceTier := identifier (some tier) } else record
    | none => record
  let model := identifier (Json.lookup response (py "model"))
  if model = [] then record
  else
    { record with
      conflict := record.conflict || (record.responseModel ≠ [] && record.responseModel ≠ model)
      responseModel := model }

def observe (env : Env) (rid : PyStr) (obj : Members) (record : Record) (s : State) : State :=
  let record := absorb rid (responseOf obj) record
  match stateOf obj with
  | .str state =>
    if state ∈ terminal then
      let record := { record with status := state }
      let s := save env false record s
      { s with
        active := s.active.erase rid
        completed := s.completed.set rid (marked env record)
        responses := s.responses + 1 }
    else if state = py "created" then
      let record := { record with status := state }
      let s := save env false record s
      { s with active := s.active.set rid (marked env record) }
    else { s with active := s.active.set rid record }
  | _ => { s with active := s.active.set rid record }

/-- `Tracker.response` -/
def response (env : Env) (obj : Members) (s : State) : State :=
  let rid := responseId obj
  if rid = [] then
    if identifier (Json.lookup obj (py "type")) = py "error" then failOldest env (laneOf obj) s
    else s
  else
    match s.completed.get? rid with
    | some record => replay env rid (responseOf obj) record s
    | none =>
      match s.active.get? rid with
      | some record => observe env rid obj record s
      | none =>
        let s := associate rid (laneOf obj) s
        match s.active.get? rid with
        | some record => observe env rid obj record s
        | none => s

def finishRecord (env : Env) (status : PyStr) (s : State) (record : Record) : State :=
  let record := { record with status := status }
  let s := save env true record s
  { s with dropped := s.dropped ++ [marked env record] }

def unfinished (s : State) : List Record :=
  s.active.entries.map Prod.snd ++ s.pending.entries.flatMap Prod.snd

/-- `Tracker.finish` -/
def finish (env : Env) (status : PyStr) (s : State) : State :=
  let s' := (unfinished s).foldl (finishRecord env status) s
  { s' with
    active := {}
    pending := {}
    completed := {}
    dropped := s'.dropped ++ s.completed.entries.map Prod.snd }

/-- A call of the tracker. -/
inductive Call where
  | request (env : Env) (obj : Members)
  | response (env : Env) (obj : Members)
  | finish (env : Env) (status : PyStr)

def step (s : State) : Call → State
  | .request env obj => request env obj s
  | .response env obj => response env obj s
  | .finish env status => finish env status s

/-! ## where the records are -/

/-- Where a record can be. -/
inductive Place where
  | pending (lane : PyStr)
  | active (rid : PyStr)
  | completed (rid : PyStr)
  | dropped
deriving DecidableEq

def Holds (s : State) (record : Record) : Place → Prop
  | .pending lane => record ∈ queue s lane
  | .active rid => s.active.get? rid = some record
  | .completed rid => s.completed.get? rid = some record
  | .dropped => record ∈ s.dropped

def At (s : State) (attempt : Nat) (place : Place) : Prop :=
  ∃ record, Holds s record place ∧ record.attempt = attempt

def Handed.final (row : Handed) : Prop := row.record.status ∈ terminal ∨ row.finishing = true

end Codexon.ResponseTracker
