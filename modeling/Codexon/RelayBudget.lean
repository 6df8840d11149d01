import Mathlib.Data.Finset.Card
import Codexon.Dict
import Codexon.Json
import Codexon.Run

/-!
# Codexon.RelayBudget

`cachemonitor/proxy_websocket.py`: the accounting of one relayed connection
(`Activity`) and the admission and retirement of connections
(`WebSocketBudget`), as the handlers of `model_proxy.py` drive them.

A coroutine runs alone from one `await` to the next, so such a piece is one
`Action`.  `changed` is left out: a waiting handler may be woken at any time.
Neither are the diagnostics (`unknown_events`, `retirements`) and the tasks
that close a retired connection modelled; nothing here reads them.
-/

namespace Codexon.Relay

/-- A field of a frame that `message_metadata` keeps. -/
inductive Scalar where
  | str (s : PyStr)
  | bool (b : Bool)
deriving DecidableEq

/-- `not value`, negated. -/
def Scalar.truthy : Scalar → Bool
  | .str s => !s.isEmpty
  | .bool b => b

/-- What `message_metadata` keeps of a frame, as far as `Activity` reads it. -/
structure Frame where
  type : Option Scalar := none
  streamId : Option Scalar := none
  eventId : Option Scalar := none
  responseId : Option Scalar := none
  /-- `response.id`. -/
  response : Option Scalar := none
deriving DecidableEq

namespace Frame

/-- `obj.get('type', '')`. -/
def typ (f : Frame) : Scalar := f.type.getD (.str [])

/-- `obj.get('stream_id', '')`. -/
def lane (f : Frame) : Scalar := f.streamId.getD (.str [])

/-- `response.get('id') or obj.get('response_id')`, if true. -/
def rid (f : Frame) : Option Scalar :=
  match f.response with
  | some id => if id.truthy then some id else f.responseId.filter Scalar.truthy
  | none => f.responseId.filter Scalar.truthy

def named (f : Frame) (names : List String) : Bool := names.any fun name => f.typ = .str (py name)

def asks (f : Frame) : Bool := f.named ["response.create", "response.steer"]

def cancels (f : Frame) : Bool := f.named ["response.cancel", "response.interrupt"]

def controls (f : Frame) : Bool := f.named ["ping", "pong", "ack", "session.update"]

def terminal (f : Frame) : Bool :=
  f.named ["response.completed", "response.failed", "response.incomplete", "response.cancelled"]

def notifies (f : Frame) : Bool :=
  match f.typ with
  | .bool _ => false
  | .str s =>
    !s.isEmpty &&
      (["response.", "session.", "rate_limits.", "usage.", "status."].any (fun p => (py p).isPrefixOf s) ||
        f.named ["ping", "pong", "ack", "usage", "status", "codex.rate_limits",
          "codex.response.metadata", "responsesapi.websocket_timing"])

end Frame

/-- `time.monotonic()`. -/
abbrev Time := ℚ

structure Activity where
  connectedAt : Option Time := none
  connecting : Bool := false
  idleSince : Option Time := none
  /-- The `event_id`s asked for in each lane. -/
  pending : Dict Scalar (List Scalar) := {}
  /-- The lane of each response that has begun. -/
  active : Dict Scalar Scalar := {}
  completed : Finset Scalar := ∅
  cancelling : Finset Scalar := ∅
  forwarding : Int := 0
  unknown : Bool
  closing : Bool := false

/-- `Activity.state`. -/
inductive Status where
  | closing
  | connecting
  | reserved
  | unknown
  | responding
  | idle
deriving DecidableEq

namespace Activity

/-- `Activity(clock, known)`. -/
def new (known : Bool) : Activity := { unknown := !known }

/-- `pending.get(lane)`, with no deque as an empty one. -/
def queue (a : Activity) (lane : Scalar) : List Scalar := (a.pending.get? lane).getD []

/-- `any(self.pending.values())`. -/
def asked (a : Activity) : Bool := a.pending.entries.any fun e => !e.2.isEmpty

def busy (a : Activity) : Bool :=
  a.unknown || a.forwarding != 0 || !a.active.entries.isEmpty || a.asked

def state (a : Activity) : Status :=
  if a.closing then .closing
  else if a.connectedAt.isNone then if a.connecting then .connecting else .reserved
  else if a.unknown then .unknown
  else if a.busy then .responding
  else .idle

def settle (a : Activity) (now : Time) : Activity :=
  if a.busy then { a with idleSince := none }
  else if a.idleSince.isNone then { a with idleSince := some now }
  else a

def connected (a : Activity) (clock : Nat → Time) : Activity :=
  settle { a with connectedAt := some (clock 0) } (clock 1)

def unclassified (a : Activity) : Activity := { a with unknown := true }

/-- `begin`, and whether the frame may be sent. -/
def «begin» (a : Activity) (f : Frame) (outbound : Bool) : Bool × Activity :=
  if a.closing then (false, a)
  else
    let a := { a with forwarding := a.forwarding + 1 }
    (true,
      if outbound then
        if f.asks then
          { a with
            pending := a.pending.set f.lane (a.queue f.lane ++ [f.eventId.getD (.str [])])
            idleSince := none }
        else if f.cancels then { a with cancelling := insert f.lane a.cancelling }
        else if f.controls then a
        else a.unclassified
      else a)

def responded (a : Activity) (f : Frame) (rid : Scalar) : Activity :=
  let a :=
    if (a.active.get? rid).isSome then a
    else
      { a with
        pending :=
          if a.queue f.lane = [] then a.pending
          else if (a.queue f.lane).tail = [] then a.pending.erase f.lane
          else a.pending.set f.lane (a.queue f.lane).tail
        active := a.active.set rid f.lane }
  if f.terminal then
    { a with
      active := a.active.erase rid
      cancelling := match a.active.get? rid with
        | some lane => a.cancelling.erase lane
        | none => a.cancelling
      completed := insert rid a.completed }
  else a

/-- An error that belongs to no response under way. -/
def failed (a : Activity) (f : Frame) : Activity :=
  if f.lane ∈ a.cancelling then a
  else if (a.queue f.lane).length = 1 ∧ ¬ a.active.entries.any (fun e => e.2 = f.lane) then
    { a with pending := a.pending.erase f.lane }
  else if a.queue f.lane ≠ [] ∨ ¬ a.active.entries.isEmpty then a.unclassified
  else a

/-- `delivered`, up to the counter. -/
def received (a : Activity) (f : Frame) : Activity :=
  match f.rid.filter (· ∉ a.completed) with
  | some rid => a.responded f rid
  | none =>
    if f.named ["error"] then a.failed f
    else if f.notifies then a
    else a.unclassified

def delivered (a : Activity) (f : Frame) (outbound : Bool) (now : Time) : Activity :=
  let a := if outbound then a else a.received f
  settle { a with forwarding := a.forwarding - 1 } now

end Activity

/-- `ConnectionPolicy`, without the periods of the loops around it. -/
structure ConnectionPolicy where
  budget : Nat := 100
  idleLimit : Nat := 32
  idleSeconds : Time := 300
  lifetimeSeconds : Time := 1800
  pressureStart : Nat := 90
  pressureTarget : Nat := 80
  capacitySeconds : Time := 5
  waiters : Nat := 16

/-- What happened to the frames of a connection. -/
inductive Event where
  | begun (f : Frame) (outbound : Bool)
  | delivered (f : Frame) (outbound : Bool)
deriving DecidableEq

/-- Where the handler of a connection is. -/
inductive Phase where
  | absent
  /-- In `reserve`, until the deadline. -/
  | waiting (deadline : Time)
  /-- `reserve` raised. -/
  | refused
  | admitted
  | connected
  | released
deriving DecidableEq

/-- A connection: its `Activity`, its handler, the frame each relay is sending
(`true` for the outbound one) and its history, the last event first. -/
structure Conn where
  activity : Activity := Activity.new true
  phase : Phase := .absent
  sending : Bool → Option Frame := fun _ => none
  known : Bool := true
  log : List Event := []

/-- `WebSocketBudget` and the connections.  An entry tells whether `close` was
given. -/
structure World (κ : Type) where
  entries : Dict κ Bool := {}
  waiting : Int := 0
  draining : Bool := false
  conns : κ → Conn := fun _ => {}

/-- One uninterrupted piece of a coroutine.  `clock` gives its readings of the
clock in turn. -/
inductive Action (κ : Type) where
  | reserve (i : κ) (known : Bool) (clock : Nat → Time)
  | wake (i : κ) (clock : Nat → Time)
  /-- The wait ends by its timeout or because the handler is cancelled. -/
  | abandon (i : κ)
  | connected (i : κ) (clock : Nat → Time)
  | begin (i : κ) (f : Frame) (outbound : Bool)
  | delivered (i : κ) (outbound : Bool) (clock : Nat → Time)
  /-- The send raised or the relay was cancelled. -/
  | broken (i : κ) (outbound : Bool)
  | reap (clock : Nat → Time)
  | release (i : κ)
  | drain

namespace World

variable {κ : Type} [DecidableEq κ] (policy : ConnectionPolicy)

def setConn (w : World κ) (i : κ) (c : Conn) : World κ :=
  { w with conns := fun j => if j = i then c else w.conns j }

def setActivity (w : World κ) (i : κ) (a : Activity) : World κ :=
  w.setConn i { w.conns i with activity := a }

/-- Why a connection is retired. -/
inductive Reason where
  | update
  | lifetime
  | idleExpired
  | idleLimit
  | capacity

def reason (w : World κ) (now : Time) (incoming remaining closing : Nat) (a : Activity) :
    Option Reason :=
  if w.draining then some .update
  else if now - a.connectedAt.getD 0 ≥ policy.lifetimeSeconds then some .lifetime
  else if now - a.idleSince.getD 0 ≥ policy.idleSeconds then some .idleExpired
  else if remaining > policy.idleLimit then some .idleLimit
  else if w.entries.entries.length + incoming ≥ policy.pressureStart ∧
      (w.entries.entries.length + incoming : Int) - closing > policy.pressureTarget then some .capacity
  else none

def idle (w : World κ) : List κ :=
  (((w.entries.entries.filter fun e => e.2).map (·.1)).filter fun i =>
    (w.conns i).activity.state = .idle).insertionSort fun i j =>
      (w.conns i).activity.idleSince.getD 0 ≤ (w.conns j).activity.idleSince.getD 0

/-- One turn of the loop of `reap`, over the world, `remaining` and `closing`. -/
def retire (incoming : Nat) (exclude : Option κ) (now : Time) (t : World κ × Nat × Nat) (i : κ) :
    World κ × Nat × Nat :=
  let (w, remaining, closing) := t
  if exclude = some i then t
  else
    match w.reason policy now incoming remaining closing (w.conns i).activity with
    | some _ =>
      (w.setActivity i { (w.conns i).activity with closing := true }, remaining - 1, closing + 1)
    | none => t

def reap (w : World κ) (incoming : Nat) (exclude : Option κ) (now : Time) : World κ :=
  (w.idle.foldl (retire policy incoming exclude now)
    (w, w.idle.length, w.entries.entries.countP fun e => (w.conns e.1).activity.closing)).1

/-- `reserve` raises `LocalCapacity`. -/
def refuse (w : World κ) (i : κ) : World κ :=
  { w.setConn i { w.conns i with phase := .refused } with waiting := w.waiting - 1 }

/-- The loop of `reserve` from its head, up to its `await` or its end, and the
first line after it. -/
def admission (w : World κ) (i : κ) (deadline now now' : Time) : World κ :=
  if w.entries.entries.length ≥ policy.budget then
    if w.draining then w.refuse i
    else if deadline - now ≤ 0 then w.refuse i
    else w.setConn i { w.conns i with phase := .waiting deadline }
  else if w.draining then w.refuse i
  else
    let w := { w with entries := w.entries.set i false }
    let w := w.reap policy 0 none now'
    let w := { w with waiting := w.waiting - 1 }
    w.setConn i { w.conns i with
      activity := { (w.conns i).activity with connecting := true }
      phase := .admitted }

def step (w : World κ) : Action κ → World κ
  | .reserve i known clock =>
    match (w.conns i).phase with
    | .absent =>
      let w := w.setConn i { activity := Activity.new known, known }
      let w := w.reap policy 1 none (clock 0)
      if w.waiting ≥ policy.waiters then w.setConn i { w.conns i with phase := .refused }
      else
        admission policy { w with waiting := w.waiting + 1 } i (clock 1 + policy.capacitySeconds)
          (clock 2) (clock 3)
    | _ => w
  | .wake i clock =>
    match (w.conns i).phase with
    | .waiting deadline =>
      admission policy (w.reap policy 1 none (clock 0)) i deadline (clock 1) (clock 2)
    | _ => w
  | .abandon i =>
    match (w.conns i).phase with
    | .waiting _ => w.refuse i
    | _ => w
  | .connected i clock =>
    match (w.conns i).phase with
    | .admitted =>
      let w := { w with entries := w.entries.set i true }
      let w := w.setConn i { w.conns i with
        activity := (w.conns i).activity.connected clock
        phase := .connected }
      w.reap policy 0 (if w.draining then none else some i) (clock 2)
    | _ => w
  | .begin i f outbound =>
    match (w.conns i).phase, (w.conns i).sending outbound with
    | .connected, none =>
      match (w.conns i).activity.begin f outbound with
      | (true, a) =>
        w.setConn i { w.conns i with
          activity := a
          sending := fun d => if d = outbound then some f else (w.conns i).sending d
          log := .begun f outbound :: (w.conns i).log }
      | (false, a) => w.setActivity i a
    | _, _ => w
  | .delivered i outbound clock =>
    match (w.conns i).sending outbound with
    | some f =>
      let w := w.setConn i { w.conns i with
        activity := (w.conns i).activity.delivered f outbound (clock 0)
        sending := fun d => if d = outbound then none else (w.conns i).sending d
        log := .delivered f outbound :: (w.conns i).log }
      w.reap policy 0 none (clock 1)
    | none => w
  | .broken i outbound =>
    w.setConn i { w.conns i with
      sending := fun d => if d = outbound then none else (w.conns i).sending d }
  | .reap clock => w.reap policy 0 none (clock 0)
  | .release i =>
    match (w.conns i).phase with
    | .absent | .waiting _ => w
    | _ =>
      let c := w.conns i
      { w.setConn i { c with
          activity :=
            if (w.entries.get? i).isSome then { c.activity with completed := ∅ } else c.activity
          phase := .released } with
        entries := w.entries.erase i }
  | .drain => { w with draining := true }

end World

end Codexon.Relay
