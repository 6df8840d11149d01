import Codexon.DictMerge
import Codexon.Run

/-!
# Codexon.QueryActor

`QueryActor` of `cachemonitor/analysis_query_actor.py`: the dispatcher submits, cancels and
drains requests, one thread answers them.  Every operation holds `condition`, so an event is
one such critical section; between `take` and `finish` the thread runs the handler.

A stored value carries the serial of the request it answers, and `drained` and `evicted`
record what became of the others; the program reads neither.
-/

namespace Codexon.QueryActor

/-- `KINDS`. -/
inductive Kind where
  | query
  | overlayDetail
  | mismatchPage
  | mismatchRecord
deriving DecidableEq

def kinds : List Kind := [.query, .overlayDetail, .mismatchPage, .mismatchRecord]

def resultBytes : Int := 64 * 1024 * 1024

def overlayCompletions : Nat := 8

/-- The keys of `completed`. -/
inductive Slot where
  | kind (kind : Kind)
  | progress
  | fatal
deriving DecidableEq

/-- What is sent to the consumer. -/
inductive Value (ρ : Type) where
  | result (result : ρ)
  | error
  | progress
  | fatal
deriving DecidableEq

/-- A stored value, with the serial of its request. -/
structure Done (ρ : Type) where
  serial : Nat
  value : Value ρ
deriving DecidableEq

/-- `active`, with the flag of its `cancel` event. -/
structure Active (μ : Type) where
  kind : Kind
  serial : Nat
  message : μ
  cancelled : Bool

/-- `QueryActor`; a message is of type `μ`, with its token, a result of type `ρ`. -/
structure Actor (μ ρ : Type) where
  pending : Dict Kind (Nat × μ) := {}
  completed : Dict Slot (Done ρ) := {}
  overlayCompleted : Dict Nat (Done ρ × Int) := {}
  overlayCompletedBytes : Int := 0
  serial : Nat := 0
  latest : Dict Kind Nat := {}
  active : Option (Active μ) := none
  stopping : Bool := false
  signalled : Bool := false
  /-- the bytes in the notification pipe -/
  pipe : Nat := 0
  /-- the serials whose results were drained -/
  drained : List Nat := []
  /-- the overlay details that were evicted, each with the one that did -/
  evicted : List (Nat × Nat) := []

/-- How a handler returns: with a result, of which it is known whether its kind is
`overlay_detail` and its retained size, or by raising. -/
inductive Outcome (ρ : Type) where
  | returned (result : ρ) (detail : Bool) (size : Nat)
  | raised

/-- The critical sections of the dispatcher and of the thread. -/
inductive Event (μ ρ : Type) where
  | submit (kind : Kind) (message : μ)
  | cancel (kind : Option Kind)
  | drain
  | close
  | take
  /-- a progress report that is not held back by its pause -/
  | progress
  | finish (outcome : Outcome ρ)
  /-- `_failed` -/
  | fail

variable {μ ρ : Type}

/-- One byte, unless one is there. -/
def Actor.signal (s : Actor μ ρ) : Actor μ ρ :=
  if s.signalled then s else { s with signalled := true, pipe := s.pipe + 1 }

def Kind.interrupts (kind : Kind) : Bool := kind = .overlayDetail ∨ kind = .mismatchRecord

def submit (s : Actor μ ρ) (kind : Kind) (message : μ) : Actor μ ρ :=
  if s.stopping then s
  else
    let serial := s.serial + 1
    let latest := s.latest.set kind serial
    let completed := s.completed.erase (.kind kind)
    let completed := if kind = .query then completed.erase .progress else completed
    let pending := (s.pending.erase kind).set kind (serial, message)
    let s := { s with serial, latest, completed, pending }
    match s.active with
    | none => s
    | some active =>
      if active.kind = kind then { s with active := some { active with cancelled := true } }
      else if kind.interrupts ∧ active.kind = .query then
        -- an exact selection interrupts a large page, which is tried again
        { s with
          active := some { active with cancelled := true }
          pending :=
            if latest.get? active.kind = some active.serial ∧ (pending.get? active.kind).isNone
            then pending.set active.kind (active.serial, active.message)
            else pending }
      else s

def cancelKind (s : Actor μ ρ) (kind : Kind) : Actor μ ρ :=
  let completed := s.completed.erase (.kind kind)
  { s with
    latest := s.latest.erase kind
    pending := s.pending.erase kind
    completed := if kind = .query then completed.erase .progress else completed
    overlayCompleted := if kind = .overlayDetail then {} else s.overlayCompleted
    overlayCompletedBytes := if kind = .overlayDetail then 0 else s.overlayCompletedBytes }

def cancel (s : Actor μ ρ) (kind : Option Kind) : Actor μ ρ :=
  let items := (kind.map ([·])).getD kinds
  let s := items.foldl cancelKind s
  { s with
    active := s.active.map fun active =>
      if active.kind ∈ items then { active with cancelled := true } else active }

/-- What `drain` returns. -/
def Actor.values (s : Actor μ ρ) : List (Done ρ) :=
  s.completed.entries.map Prod.snd ++ s.overlayCompleted.entries.map fun e => e.2.1

def answers (entries : List (Slot × Done ρ)) : List Nat :=
  entries.filterMap fun e =>
    match e.1 with
    | .kind _ => some e.2.serial
    | _ => none

def drain (s : Actor μ ρ) : Actor μ ρ :=
  { s with
    pipe := if s.signalled then s.pipe - 1 else s.pipe
    signalled := false
    completed := {}
    overlayCompleted := {}
    overlayCompletedBytes := 0
    drained := s.drained ++ answers s.completed.entries ++ s.overlayCompleted.entries.map Prod.fst }

/-- The first critical section of `close`. -/
def close (s : Actor μ ρ) : Actor μ ρ :=
  { s with
    stopping := true
    pending := {}
    completed := {}
    overlayCompleted := {}
    overlayCompletedBytes := 0
    active := s.active.map fun active => { active with cancelled := true } }

def Actor.next (s : Actor μ ρ) : Option Kind :=
  if (s.pending.get? .mismatchRecord).isSome then some .mismatchRecord
  else if (s.pending.get? .overlayDetail).isSome then some .overlayDetail
  else s.pending.entries.head?.map Prod.fst

def take (s : Actor μ ρ) : Actor μ ρ :=
  if s.stopping ∨ s.active.isSome then s
  else
    match s.next with
    | none => s
    | some kind =>
      match s.pending.get? kind with
      | none => s
      | some (serial, message) =>
        { s with
          pending := s.pending.erase kind
          active := some ⟨kind, serial, message, false⟩ }

def progress (s : Actor μ ρ) : Actor μ ρ :=
  match s.active with
  | none => s
  | some active =>
    if active.kind ≠ .query ∨ s.stopping ∨ active.cancelled ∨
        s.latest.get? active.kind ≠ some active.serial then s
    else
      { s with completed := s.completed.set .progress ⟨active.serial, .progress⟩ }.signal

/-- The number of oldest details that `popitem` removes. -/
def evictions : List (Nat × Done ρ × Int) → Int → Nat
  | [], _ => 0
  | e :: entries, bytes =>
    if overlayCompletions < (e :: entries).length ∨ resultBytes < bytes then
      evictions entries (bytes - e.2.2) + 1
    else 0

/-- The entries after the first `n`. -/
def dropFirst {κ ν : Type} (d : Dict κ ν) (n : Nat) : Dict κ ν where
  entries := d.entries.drop n
  nodup := d.nodup.sublist ((List.drop_sublist n d.entries).map Prod.fst)

/-- A detail is stored beside the earlier ones, of which the oldest make room. -/
def storeDetail (s : Actor μ ρ) (serial : Nat) (result : ρ) (size : Int) : Actor μ ρ :=
  let details := s.overlayCompleted.set serial (⟨serial, .result result⟩, size)
  let bytes := s.overlayCompletedBytes + size
  let n := evictions details.entries bytes
  { s with
    overlayCompleted := dropFirst details n
    overlayCompletedBytes := bytes - ((details.entries.take n).map fun e => e.2.2).sum
    evicted := s.evicted ++ (details.entries.take n).map fun e => (e.1, serial) }

/-- The handler has returned: `result` is that of the request, or an error. -/
def finish (s : Actor μ ρ) (outcome : Outcome ρ) : Actor μ ρ :=
  match s.active with
  | none => s
  | some active =>
    let s := { s with active := none }
    if s.stopping then s
    else if active.cancelled ∨ s.latest.get? active.kind ≠ some active.serial then s
    else
      let s := { s with
        completed :=
          if active.kind = Kind.query then s.completed.erase .progress else s.completed }
      let store := fun value =>
        { s with completed := s.completed.set (.kind active.kind) ⟨active.serial, value⟩ }
      let s :=
        match outcome with
        | .raised => store .error
        | .returned result detail size =>
          if resultBytes < (size : Int) then store .error
          else if active.kind = Kind.overlayDetail ∧ detail then
            storeDetail s active.serial result size
          else store (.result result)
      s.signal

def fail (s : Actor μ ρ) : Actor μ ρ :=
  { s with
    stopping := true
    active := none
    pending := {}
    completed := Dict.set {} .fatal ⟨0, .fatal⟩
    overlayCompleted := {}
    overlayCompletedBytes := 0 }.signal

def step (s : Actor μ ρ) : Event μ ρ → Actor μ ρ
  | .submit kind message => submit s kind message
  | .cancel kind => cancel s kind
  | .drain => drain s
  | .close => close s
  | .take => take s
  | .progress => progress s
  | .finish outcome => finish s outcome
  | .fail => fail s

end Codexon.QueryActor
