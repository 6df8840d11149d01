import Mathlib.Order.Lattice
import Codexon.Run

/-!
# Codexon.EvidenceWriter

`EvidenceWriter` of `cachemonitor/evidence_writer.py`: producers hand
observations to one writer thread through a bounded queue, and an observation
that cannot be stored widens a gap which the writer stores in its place.

The state holds what the threads share and where each thread stands; an event
is one atomic step of one of them:

* a producer in `write` reads `closed`, puts its copy or finds the queue full,
  and then takes the lock of `lost`;
* the writer thread steps through `run` and `flush_gap`, with the outcome of
  each store operation chosen by the event;
* the closing thread sets the flags, puts the sentinel, joins and answers.

Times are readings of `time.time()`, of any linearly ordered type.
-/

namespace Codexon.EvidenceWriter

/-! ## data -/

/-- An observation passed to `write`: its `ts`, when it has one, and the rest. -/
structure Record (ρ τ : Type) where
  ts : Option τ
  body : ρ
deriving DecidableEq

/-- The copy a `write` call makes of its record, numbered by the call. -/
structure Copy (ρ τ : Type) where
  call : Nat
  record : Record ρ τ
deriving DecidableEq

/-- What stands in the queue. -/
inductive Item (ρ τ : Type) where
  | record (copy : Copy ρ τ)
  /-- the `None` of `close` -/
  | sentinel
  /-- a `_Preparation` -/
  | preparation
deriving DecidableEq

def Item.copy? {ρ τ : Type} : Item ρ τ → Option (Copy ρ τ)
  | .record copy => some copy
  | .sentinel => none
  | .preparation => none

/-- The exceptions of a store operation, by the handlers of `run`. -/
inductive Error where
  | sqlite
  | os
  | value
  | other
deriving DecidableEq

/-- `except (sqlite3.Error, OSError, ValueError)` -/
def Error.caught : Error → Bool
  | .other => false
  | _ => true

/-- `except (sqlite3.Error, OSError)` -/
def Error.ignored : Error → Bool
  | .sqlite | .os => true
  | _ => false

/-- A store operation succeeds or raises, having changed nothing. -/
inductive Outcome where
  | done
  | raises (error : Error)
deriving DecidableEq

/-- Where a call of `flush_gap` returns to. -/
inductive Caller (ρ τ : Type) where
  /-- the handler of `Empty` -/
  | idle
  /-- the branch that stores a record -/
  | record (copy : Copy ρ τ)
  /-- after the loop -/
  | last
deriving DecidableEq

/-- Where the writer thread stands. -/
inductive Place (ρ τ : Type) where
  /-- about to test `stopping` -/
  | head
  /-- `stopping` was set: about to test `queue.empty()` -/
  | draining
  /-- about to read `pending_gap` for the timeout -/
  | timeout
  /-- in `queue.get`, with a timeout or without -/
  | waiting (timed : Bool)
  /-- `Empty` was raised -/
  | idle
  /-- has a `_Preparation` -/
  | preparing
  /-- has a record, about to create the store if there is none -/
  | received (copy : Copy ρ τ)
  /-- about to read `pending_gap` in `flush_gap` -/
  | flushing (caller : Caller ρ τ)
  /-- about to call `store.gap` -/
  | gapping (gap : τ × τ) (caller : Caller ρ τ)
  /-- `store.gap` returned -/
  | clearing (gap : τ × τ) (caller : Caller ρ τ)
  /-- about to call `store.write` -/
  | writing (copy : Copy ρ τ)
  /-- an operation for the record failed: about to lock in `lost` -/
  | losing (copy : Copy ρ τ)
  | finished
deriving DecidableEq

/-- `Thread.is_alive` -/
def Place.alive {ρ τ : Type} : Place ρ τ → Bool
  | .finished => false
  | _ => true

/-- Where the thread that calls `close` stands. -/
inductive Closing where
  | idle
  /-- `closed=True` -/
  | flagged
  /-- `stopping.set()` -/
  | stopped
  /-- about to join -/
  | signalled
  /-- joined, with what `is_alive` said -/
  | joined (alive : Bool)
  | answered (result : Bool)
deriving DecidableEq

/-- A record that went through `lost`, with the clock readings taken there. -/
structure Loss (ρ τ : Type) where
  copy : Copy ρ τ
  now : τ
  later : τ
deriving DecidableEq

/-- `record.get('ts',time.time())` -/
def Loss.start {ρ τ : Type} (loss : Loss ρ τ) : τ := loss.copy.record.ts.getD loss.now

/-- The shared state, the tables of the store and the places of the threads.
`passed` numbers the calls of `write` and `lost` lists the records that `dropped`
counts; neither is read by the code. -/
structure State (ρ τ : Type) where
  passed : List (Copy ρ τ) := []
  /-- `write` calls that have not read `closed` -/
  entered : List (Copy ρ τ) := []
  /-- `write` calls about to put -/
  admitted : List (Copy ρ τ) := []
  /-- `write` calls about to lock in `lost` -/
  refused : List (Copy ρ τ) := []
  queue : List (Item ρ τ) := []
  pendingGap : Option (τ × τ) := none
  errors : Nat := 0
  dropped : Nat := 0
  written : Nat := 0
  failureStreak : Nat := 0
  preparing : Nat := 0
  closed : Bool := false
  stopping : Bool := false
  /-- the writer has created the store -/
  store : Bool := false
  /-- the rows of the store -/
  stored : List (Copy ρ τ) := []
  /-- `observation_gaps` -/
  gaps : List (τ × τ) := []
  lost : List (Loss ρ τ) := []
  writer : Place ρ τ := .head
  closing : Closing := .idle
deriving DecidableEq

/-- One atomic step.  `index` picks one of the `write` calls at the same point;
`now` and `later` are the clock readings of `lost` in the order it takes them. -/
inductive Event (ρ τ : Type) where
  | call (record : Record ρ τ)
  | readClosed (index : Nat)
  | put (index : Nat)
  | lose (index : Nat) (now later : τ)
  | prepare
  | close
  | stop
  | signal
  | join
  | answer
  | writer (outcome : Outcome) (now later : τ)
deriving DecidableEq

section Steps

variable {ρ τ : Type} [LinearOrder τ]

/-- `Queue.put_nowait` raises `Full`; a `maxsize` of zero is no bound. -/
def full (capacity : Nat) (s : State ρ τ) : Bool :=
  0 < capacity && capacity ≤ s.queue.length

/-- `EvidenceWriter.lost` -/
def lost (copy : Copy ρ τ) (now later : τ) (s : State ρ τ) : State ρ τ :=
  let loss : Loss ρ τ := ⟨copy, now, later⟩
  { s with
    pendingGap :=
      match s.pendingGap with
      | some gap => some (min loss.start gap.1, max later gap.2)
      | none => some (loss.start, later)
    dropped := s.dropped + 1
    lost := s.lost ++ [loss] }

/-! ## the writer thread -/

/-- `flush_gap` returns. -/
def returned : Caller ρ τ → Place ρ τ
  | .idle => .head
  | .record copy => .writing copy
  | .last => .finished

/-- A store operation raises.  An exception that no handler names ends the thread. -/
def raised (error : Error) (caller : Caller ρ τ) (s : State ρ τ) : State ρ τ :=
  match caller with
  | .idle => { s with writer := if error.ignored then .head else .finished }
  | .record copy =>
    if error.caught then
      { s with
        errors := s.errors + 1
        failureStreak := s.failureStreak + 1
        writer := .losing copy }
    else { s with writer := .finished }
  | .last =>
    { s with
      errors := if error.ignored then s.errors + 1 else s.errors
      writer := .finished }

/-- The next step of `run`. -/
def writerStep (outcome : Outcome) (now later : τ) (s : State ρ τ) : State ρ τ :=
  match s.writer with
  | .head => { s with writer := if s.stopping then .draining else .timeout }
  | .draining =>
    if s.queue.isEmpty then
      { s with writer := if s.store then .flushing .last else .finished }
    else { s with writer := .timeout }
  | .timeout => { s with writer := .waiting s.pendingGap.isSome }
  | .waiting timed =>
    match s.queue with
    | .record copy :: rest => { s with queue := rest, writer := .received copy }
    | .sentinel :: rest => { s with queue := rest, writer := .head }
    | .preparation :: rest => { s with queue := rest, writer := .preparing }
    | [] => if timed then { s with writer := .idle } else s
  | .idle =>
    { s with
      writer := if s.store && s.pendingGap.isSome then .flushing .idle else .head }
  | .preparing =>
    let s := { s with preparing := s.preparing - 1 }
    if s.store then { s with writer := .head }
    else
      match outcome with
      | .done => { s with store := true, writer := .head }
      | .raises error =>
        if error.caught then
          { s with
            errors := s.errors + 1
            failureStreak := s.failureStreak + 1
            writer := .head }
        else { s with writer := .finished }
  | .received copy =>
    if s.store then { s with writer := .flushing (.record copy) }
    else
      match outcome with
      | .done => { s with store := true, writer := .flushing (.record copy) }
      | .raises error => raised error (.record copy) s
  | .flushing caller =>
    match s.pendingGap with
    | none => { s with writer := returned caller }
    | some gap => { s with writer := .gapping gap caller }
  | .gapping gap caller =>
    match outcome with
    | .done => { s with gaps := s.gaps ++ [gap], writer := .clearing gap caller }
    | .raises error => raised error caller s
  | .clearing gap caller =>
    { s with
      pendingGap := if s.pendingGap = some gap then none else s.pendingGap
      writer := returned caller }
  | .writing copy =>
    match outcome with
    | .done =>
      { s with
        stored := s.stored ++ [copy]
        written := s.written + 1
        failureStreak := 0
        writer := .head }
    | .raises error => raised error (.record copy) s
  | .losing copy => { lost copy now later s with writer := .head }
  | .finished => s

/-! ## all threads -/

def step (capacity : Nat) (s : State ρ τ) : Event ρ τ → State ρ τ
  | .call record =>
    let copy := ⟨s.passed.length, record⟩
    { s with passed := s.passed ++ [copy], entered := s.entered ++ [copy] }
  | .readClosed index =>
    match s.entered[index]? with
    | none => s
    | some copy =>
      let s := { s with entered := s.entered.eraseIdx index }
      if s.closed then { s with refused := s.refused ++ [copy] }
      else { s with admitted := s.admitted ++ [copy] }
  | .put index =>
    match s.admitted[index]? with
    | none => s
    | some copy =>
      let s := { s with admitted := s.admitted.eraseIdx index }
      if full capacity s then { s with refused := s.refused ++ [copy] }
      else { s with queue := s.queue ++ [.record copy] }
  | .lose index now later =>
    match s.refused[index]? with
    | none => s
    | some copy => lost copy now later { s with refused := s.refused.eraseIdx index }
  -- the put of `prepare` waits for room, at any time after its own test of `closed`
  | .prepare =>
    if full capacity s then s
    else { s with queue := s.queue ++ [.preparation], preparing := s.preparing + 1 }
  | .close =>
    match s.closing with
    | .idle | .answered _ =>
      if s.closed then { s with closing := .signalled }
      else { s with closed := true, closing := .flagged }
    | _ => s
  | .stop =>
    match s.closing with
    | .flagged => { s with stopping := true, closing := .stopped }
    | _ => s
  | .signal =>
    match s.closing with
    | .stopped =>
      if full capacity s then { s with closing := .signalled }
      else { s with queue := s.queue ++ [.sentinel], closing := .signalled }
    | _ => s
  -- the timeout of the join may end it while the thread runs
  | .join =>
    match s.closing with
    | .signalled => { s with closing := .joined s.writer.alive }
    | _ => s
  | .answer =>
    match s.closing with
    | .joined alive => { s with closing := .answered (!alive && s.pendingGap.isNone) }
    | _ => s
  | .writer outcome now later => writerStep outcome now later s

end Steps

/-! ## where the records are -/

section Places

variable {ρ τ : Type}

/-- The record the writer thread works on for a caller of `flush_gap`. -/
def Caller.copy? : Caller ρ τ → Option (Copy ρ τ)
  | .record copy => some copy
  | .idle | .last => none

def Place.copy? : Place ρ τ → Option (Copy ρ τ)
  | .received copy | .writing copy | .losing copy => some copy
  | .flushing caller | .gapping _ caller | .clearing _ caller => caller.copy?
  | _ => none

/-- The records of the `write` calls in progress. -/
def State.offered (s : State ρ τ) : List (Copy ρ τ) := s.entered ++ s.admitted ++ s.refused

def State.queued (s : State ρ τ) : List (Copy ρ τ) := s.queue.filterMap Item.copy?

def State.beingWritten (s : State ρ τ) : List (Copy ρ τ) := s.writer.copy?.toList

/-- The records that went through `lost`. -/
def State.missing (s : State ρ τ) : List (Copy ρ τ) := s.lost.map Loss.copy

def State.custody (s : State ρ τ) : List (Copy ρ τ) :=
  s.offered ++ s.queued ++ s.beingWritten ++ s.stored ++ s.missing

/-- The pending gap or a stored one reaches from the `ts` of the record to the clock
reading at its loss. -/
def Covered [LinearOrder τ] (s : State ρ τ) (loss : Loss ρ τ) : Prop :=
  ∃ gap, (s.pendingGap = some gap ∨ gap ∈ s.gaps) ∧
    gap.1 ≤ loss.start ∧ loss.later ≤ gap.2

end Places

/-! ## what the runs are about -/

section Runs

variable {ρ τ : Type}

/-- The store operation of the step raises nothing that `run` has no handler for. -/
def Handled : Event ρ τ → Prop
  | .writer (.raises .other) _ _ => False
  | _ => True

/-- `close` is called after the last `write`: no call begins once `closed` is set, and
none is in progress when `close` begins. -/
def AfterLastWrite (s : State ρ τ) : Event ρ τ → Prop
  | .call _ => s.closed = false
  | .close => s.offered = []
  | _ => True

instance AfterLastWrite.decidable (s : State ρ τ) : DecidablePred (AfterLastWrite s)
  | .call _ => inferInstanceAs (Decidable (s.closed = false))
  | .close => inferInstanceAs (Decidable (s.offered = []))
  | .readClosed _ | .put _ | .lose _ _ _ | .prepare | .stop | .signal | .join | .answer
  | .writer _ _ _ => isTrue trivial

end Runs

end Codexon.EvidenceWriter
