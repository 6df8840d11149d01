import Codexon.Run
import Mathlib.Algebra.GroupWithZero.Nat

/-!
# Codexon.Backlog

`cachemonitor/quota_backlog.py`: the durable queue of quota observations
between the threads that observe and the service thread that saves them.

Every method holds the lock, so a run is a sequence of whole method calls.
Whether the disk serves a call (connection, journal room, transaction) is an
input of the call; a failed transaction is rolled back.  `encode` and `decode`
stand for `json.dumps(…).encode()` and `json.loads`.
-/

namespace Codexon.Backlog

/-- The kinds of entries the service stores. -/
inductive Kind where
  | control
  | quota
  | failure
  | «local»
deriving DecidableEq, Repr

def Kind.fetched : Kind → Bool
  | .quota | .failure => true
  | _ => false

/-! ## limits and messages -/

def maxItems : Nat := 4096
def maxBytes : Nat := 8 * 1024 * 1024
def observationReserveBytes : Nat := 64 * 1024
def controlReserve : Nat := 32

/-- The texts of `issue`. -/
inductive Issue where
  | none
  | storeFailed
  | full
  | unavailable
  | refused
deriving DecidableEq, Repr

def Issue.text : Issue → String
  | .none => ""
  | .storeFailed => "한도 관측 임시 저장 실패: 새 조회를 중지했습니다. 종료 전 저장 공간을 확인하세요."
  | .full => "한도 관측 복구 대기 공간이 가득 찼습니다. 저장 복구까지 새 조회를 중지합니다."
  | .unavailable => "한도 관측 임시 저장소를 열 수 없습니다. 저장 복구까지 새 조회를 중지합니다."
  | .refused => "한도 관측 복구 대기 공간이 가득 찼습니다. 새 기록을 받지 못했습니다."

/-! ## state -/

/-- A row of the `pending` table. -/
structure Item where
  seq : Nat
  kind : Kind
  data : List UInt8
deriving DecidableEq, Repr

/-- The backlog: its two tables (rows in `seq` order, the `budget` row and the
autoincrement counter) and the object's fields. -/
structure State where
  pending : List Item := []
  lastSeq : Nat := 0
  items : Int := 0
  bytes : Int := 0
  unsaved : Option (Kind × List UInt8) := none
  fetchReserved : Bool := false
  issue : Issue := .none
deriving DecidableEq, Repr

/-- How storing fails: a storage error of the disk, or `BufferError`. -/
inductive StoreError where
  | storage
  | capacity
deriving DecidableEq, Repr

namespace State

def reserve : Kind → Nat
  | .control => controlReserve
  | _ => 0

/-- `_store`: append a row within the limits; the trigger keeps the budget. -/
def store (s : State) (kind : Kind) (encoded : List UInt8) (disk : Bool) :
    Except StoreError State :=
  if !disk then .error .storage
  else if (maxItems + reserve kind : Nat) ≤ s.items ∨
      (maxBytes + reserve kind * observationReserveBytes : Nat) < s.bytes + encoded.length then
    .error .capacity
  else .ok { s with
    pending := s.pending ++ [⟨s.lastSeq + 1, kind, encoded⟩]
    lastSeq := s.lastSeq + 1
    items := s.items + 1
    bytes := s.bytes + encoded.length }

/-- `flush`: try to store the unsaved entry. -/
def flush (s : State) (disk : Bool) : Bool × State :=
  match s.unsaved with
  | none => (true, s)
  | some (kind, encoded) =>
    match s.store kind encoded disk with
    | .error _ => (false, { s with issue := .storeFailed })
    | .ok s => (true, { s with unsaved := none })

/-- `available`: flushed, and room for one more observation. -/
def available (s : State) (disk disk' : Bool) : Bool × State :=
  match s.flush disk with
  | (false, s) => (false, s)
  | (true, s) =>
    if !disk' then (false, { s with issue := .unavailable })
    else if (maxItems : Int) ≤ s.items ∨ (maxBytes : Int) < s.bytes + observationReserveBytes then
      (false, { s with issue := .full })
    else (true, { s with issue := .none })

/-- `reserve_fetch`: admit one fetch whose response can use the unsaved slot. -/
def reserveFetch (s : State) (disk disk' : Bool) : Bool × State :=
  if s.fetchReserved then (false, s)
  else match s.available disk disk' with
    | (false, s) => (false, s)
    | (true, s) => (true, { s with fetchReserved := true })

def cancelFetch (s : State) : State := { s with fetchReserved := false }

/-- `acknowledge`: the entry without a sequence is the unsaved one. -/
def acknowledge (s : State) (sequence : Option Nat) (disk : Bool) : Except StoreError State :=
  match sequence with
  | none => .ok { s with unsaved := none }
  | some seq =>
    if !disk then .error .storage
    else
      let removed := s.pending.filter (·.seq = seq)
      .ok { s with
        pending := s.pending.filter (·.seq ≠ seq)
        items := s.items - removed.length
        bytes := s.bytes - (removed.map (·.data.length)).sum }

section

-- `json.dumps(value, …).encode()` and `json.loads`.
variable {V : Type} (encode : V → List UInt8) (decode : List UInt8 → V)

/-- `append`: whether the value was taken, into the table or the free slot. -/
def append (s : State) (kind : Kind) (value : V) (disk : Bool) : Bool × State :=
  let encoded := encode value
  let admitted := s.fetchReserved && kind.fetched
  let s := if kind.fetched then { s with fetchReserved := false } else s
  if s.unsaved.isSome then (false, s)
  else match s.store kind encoded disk with
    | .ok s => (true, s)
    | .error .capacity =>
      if !admitted || decide (maxBytes < encoded.length) then (false, { s with issue := .refused })
      else (true, { s with unsaved := some (kind, encoded), issue := .full })
    | .error .storage =>
      (true, { s with unsaved := some (kind, encoded), issue := .storeFailed })

/-- `first`: the oldest durable row, else the unsaved entry. -/
def first (s : State) (disk : Bool) : Except StoreError (Option (Option Nat × Kind × V)) :=
  if !disk then .error .storage
  else match s.pending, s.unsaved with
    | row :: _, _ => .ok (some (some row.seq, row.kind, decode row.data))
    | [], some (kind, data) => .ok (some (none, kind, decode data))
    | [], none => .ok none

end

end State

end Codexon.Backlog
