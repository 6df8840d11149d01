import Mathlib.Data.Nat.Size
import Codexon.Dict
import Codexon.Json

/-!
# Codexon.GraphTransfer

`cachemonitor/quota_transport.py`: a graph of display values in bounded frames.

Pickle keeps one memo on each side.  A pickled object is named by what the memo knows it
by, here by its identity in the source graph; `persistent_id` answers for the containers
that are sent in batches.  The length of a pickled frame is the parameter `size`.
-/

namespace Codexon

namespace GraphTransfer

def MAX_FRAME_BYTES : Nat := 256 * 1024
def TARGET_FRAME_BYTES : Nat := 192 * 1024
def INLINE_BYTES : Nat := 8 * 1024
def INLINE_ITEMS : Nat := 64
def BATCH_ITEMS : Nat := 128
def SCALAR_BATCH_ITEMS : Nat := 24576
def BATCH_CONTAINERS : Nat := 64

/-! ## values -/

inductive Scalar where
  | none
  | bool (b : Bool)
  | int (i : Int)
  | float (bits : BitVec 64)
  | str (s : PyStr)
  | bytes (b : Bytes)
deriving DecidableEq

/-- Values over the containers `α`, which have identities. -/
inductive Value (α : Type) where
  | scalar (s : Scalar)
  | tuple (items : List (Value α))
  | node (a : α)

mutual

def Value.map {α β : Type} (f : α → β) : Value α → Value β
  | .scalar s => .scalar s
  | .tuple items => .tuple (Value.mapAll f items)
  | .node a => .node (f a)

def Value.mapAll {α β : Type} (f : α → β) : List (Value α) → List (Value β)
  | [] => []
  | v :: vs => v.map f :: Value.mapAll f vs

end

mutual

/-- The containers in a value, in the order of pickling. -/
def Value.nodes {α : Type} : Value α → List α
  | .scalar _ => []
  | .tuple items => Value.nodesAll items
  | .node a => [a]

def Value.nodesAll {α : Type} : List (Value α) → List α
  | [] => []
  | v :: vs => v.nodes ++ Value.nodesAll vs

end

mutual

/-- Equality of keys as dictionaries see it, over the equality of scalars.  Packed rows are
equal to themselves only. -/
def Value.same {α : Type} [DecidableEq α] (eq : Scalar → Scalar → Bool) : Value α → Value α → Bool
  | .scalar s, .scalar t => eq s t
  | .tuple items, .tuple others => Value.sameAll eq items others
  | .node a, .node b => a = b
  | _, _ => false

def Value.sameAll {α : Type} [DecidableEq α] (eq : Scalar → Scalar → Bool) :
    List (Value α) → List (Value α) → Bool
  | [], [] => true
  | v :: vs, u :: us => v.same eq u && Value.sameAll eq vs us
  | _, _ => false

end

inductive Kind where
  | list
  | dict
  | packed
deriving DecidableEq

/-- An item of a container: of a list, of a dictionary, or an end and a block of
packed rows. -/
inductive Entry (α : Type) where
  | value (v : Value α)
  | pair (k v : Value α)
  | block (stop : Nat) (data : Bytes)

def Entry.fits {α : Type} : Kind → Entry α → Prop
  | .list, .value _ => True
  | .dict, .pair _ _ => True
  | .packed, .block _ _ => True
  | _, _ => False

def Entry.map {α β : Type} (f : α → β) : Entry α → Entry β
  | .value v => .value (v.map f)
  | .pair k v => .pair (k.map f) (v.map f)
  | .block stop data => .block stop data

/-- `values`: what is weighed and pickled of an entry. -/
def Entry.parts {α : Type} : Entry α → List (Value α)
  | .value v => [v]
  | .pair k v => [k, v]
  | .block stop data => [.tuple [.scalar (.int stop), .scalar (.bytes data)]]

def Entry.nodes {α : Type} (e : Entry α) : List α := e.parts.flatMap Value.nodes

/-- A container: a list, a dictionary or `_PackedRows`. -/
structure Node (α : Type) where
  kind : Kind := .list
  entries : List (Entry α) := []

def Node.map {α β : Type} (f : α → β) (n : Node α) : Node β := ⟨n.kind, n.entries.map (Entry.map f)⟩

def Node.parts {α : Type} (n : Node α) : List (Value α) := n.entries.flatMap Entry.parts

def Node.nodes {α : Type} (n : Node α) : List α := n.parts.flatMap Value.nodes

/-- Keys are not equal, and packed ends increase. -/
def Entry.Before {α : Type} [DecidableEq α] (eq : Scalar → Scalar → Bool) :
    Entry α → Entry α → Prop
  | .pair k _, .pair k' _ => k.same eq k' = false
  | .block stop _, .block stop' _ => stop < stop'
  | _, _ => True

/-- A graph of display values: containers by identity, and a root. -/
structure Graph (eq : Scalar → Scalar → Bool) where
  nodes : List (Node Nat)
  root : Value Nat
  fits : ∀ n ∈ nodes, ∀ e ∈ n.entries, e.fits n.kind
  ordered : ∀ n ∈ nodes, n.entries.Pairwise (Entry.Before eq)
  positive : ∀ n ∈ nodes, ∀ stop data, Entry.block stop data ∈ n.entries → 0 < stop
  /-- lengths are at most `sys.maxsize` -/
  lengths : nodes.length < 2 ^ 63 ∧ ∀ n ∈ nodes, n.entries.length < 2 ^ 63

variable {eq : Scalar → Scalar → Bool}

/-- The container with an identity.  Identities that are not used stand for empty lists. -/
def Graph.node (g : Graph eq) (n : Nat) : Node Nat := g.nodes.getD n {}

/-! ## weights -/

def Scalar.weight : Scalar → Nat
  | .none => 8
  | .bool _ => 8
  | .int i => 8 + i.natAbs.size / 8
  | .float _ => 8
  | .str s => 8 + s.length * 4
  | .bytes b => 8 + b.length

mutual

def scalarWeight {α : Type} (depth : Nat) : Value α → Option Nat
  | .scalar s => some s.weight
  | .tuple items =>
    if items.length ≤ 8 ∧ depth < 3 then (scalarWeights (depth + 1) items).map (16 + ·) else none
  | .node _ => none

def scalarWeights {α : Type} (depth : Nat) : List (Value α) → Option Nat
  | [] => some 0
  | v :: vs =>
    match scalarWeight depth v, scalarWeights depth vs with
    | some w, some total => some (w + total)
    | _, _ => none

end

/-- The loop of `_inline_weight` over the items. -/
def addWeights {α : Type} (weigh : Value α → Option Nat) : Nat → List (Value α) → Option Nat
  | total, [] => some total
  | total, v :: vs =>
    match weigh v with
    | none => none
    | some w => if INLINE_BYTES < total + w then none else addWeights weigh (total + w) vs

/-- `_inline_weight`, which goes `levels` deep. -/
def inlineWeight (g : Graph eq) : Nat → List Nat → Value Nat → Option Nat
  | 0, _, v => scalarWeight 0 v
  | levels + 1, ancestors, .node n =>
    if (g.node n).kind = .packed ∨ INLINE_ITEMS < (g.node n).entries.length ∨ n ∈ ancestors then
      none
    else addWeights (inlineWeight g levels (n :: ancestors)) 32 (g.node n).parts
  | _ + 1, _, v => scalarWeight 0 v

def weight (g : Graph eq) (v : Value Nat) : Option Nat := inlineWeight g 3 [] v

/-- A container that is pickled where it is first met. -/
def inlined (g : Graph eq) (n : Nat) : Bool := (weight g (.node n)).isSome

/-! ## pickling -/

/-- A frame over the containers `α`; a record is a reference number, an offset and the items. -/
structure Record (α : Type) where
  number : Nat
  offset : Nat
  items : List (Entry α)

inductive Frame (α : Type) where
  | root (v : Value α)
  | fill (records : List (Record α))
  | done (count : Nat)

def Record.map {α β : Type} (f : α → β) (r : Record α) : Record β :=
  ⟨r.number, r.offset, r.items.map (Entry.map f)⟩

def Frame.map {α β : Type} (f : α → β) : Frame α → Frame β
  | .root v => .root (v.map f)
  | .fill records => .fill (records.map (Record.map f))
  | .done count => .done count

def Frame.parts {α : Type} : Frame α → List (Value α)
  | .root v => [v]
  | .fill records => records.flatMap fun r => r.items.flatMap Entry.parts
  | .done _ => []

/-- `references` and `inline` of the pickler, in the order of their entries. -/
structure Pickler where
  refs : List Nat := []
  memo : List Nat := []

def Pickler.reference (p : Pickler) (n : Nat) : Pickler :=
  if n ∈ p.refs then p else { p with refs := p.refs ++ [n] }

/-- `persistent_id`, called for a container that is pickled, and for what is in it where the
container is new and pickled in place.  These are at most `levels` deep. -/
def visit (g : Graph eq) : Nat → Pickler → Nat → Pickler
  | 0, p, n => if inlined g n then p else p.reference n
  | levels + 1, p, n =>
    if inlined g n then
      if n ∈ p.memo then p
      else (g.node n).nodes.foldl (visit g levels) { p with memo := p.memo ++ [n] }
    else p.reference n

/-- What stands in a pickled frame for a container: its reference, or its place in the memo. -/
inductive Atom where
  | persistent (kind : Kind) (number count : Nat)
  | object (label : Nat)

def atomOf (g : Graph eq) (p : Pickler) (n : Nat) : Atom :=
  if inlined g n then .object n
  else .persistent (g.node n).kind (p.refs.idxOf n) (g.node n).entries.length

/-- A pickled frame, with the containers that are pickled in it for the first time. -/
structure Payload where
  frame : Frame Atom
  objects : List (Nat × Node Atom) := []

def visitFrame (g : Graph eq) (p : Pickler) (f : Frame Nat) : Pickler :=
  (f.parts.flatMap Value.nodes).foldl (visit g 3) p

def dump (g : Graph eq) (p : Pickler) (f : Frame Nat) : Payload :=
  let after := visitFrame g p f
  { frame := f.map (atomOf g after)
    objects := (after.memo.drop p.memo.length).map fun n => (n, (g.node n).map (atomOf g after)) }

inductive TransferError where
  | frameSize
  | invalidReference
  | invalidPacked
  | outOfOrder
  | incomplete
  | unexpected
  | invalidItems
  | unfinished
deriving DecidableEq

/-! ## sending -/

/-- A container that is not sent completely: `active`, or one of `pending`. -/
structure Active where
  number : Nat
  entries : List (Entry Nat)
  offset : Nat := 0

/-- What is left of the limits of a frame. -/
structure Budget where
  remaining : Nat := SCALAR_BATCH_ITEMS
  containers : Nat := BATCH_ITEMS
  weight : Nat := 64
  /-- the records of the frame so far -/
  records : Nat := 0

def Budget.spent (b : Budget) : Bool := b.remaining = 0 ∨ b.containers = 0

/-- `sum(pickler.weight(part) or 64 for part in values)+16`. -/
def entryWeight (g : Graph eq) (e : Entry Nat) : Nat :=
  (e.parts.map fun v => (weight g v).getD 64).sum + 16

def Value.isScalar {α : Type} : Value α → Bool
  | .scalar _ => true
  | _ => false

def Budget.take (g : Graph eq) (b : Budget) (e : Entry Nat) : Budget :=
  { b with
    remaining := b.remaining - 1
    containers := if e.parts.all Value.isScalar then b.containers else b.containers - 1
    weight := b.weight + entryWeight g e }

/-- How the inner loop over the entries of one container ends. -/
structure Taken where
  items : List (Entry Nat) := []
  rest : List (Entry Nat) := []
  budget : Budget
  held : Bool := false
  finished : Bool := false

/-- The inner loop.  `begun` tells whether the frame has an item. -/
def takeItems (g : Graph eq) : Budget → Bool → List (Entry Nat) → Taken
  | b, _, [] => { budget := b, finished := !b.spent }
  | b, begun, e :: rest =>
    if b.spent then { rest := e :: rest, budget := b }
    else if TARGET_FRAME_BYTES < b.weight + entryWeight g e ∧ begun then
      { rest := e :: rest, budget := b, held := true }
    else
      let taken := takeItems g (b.take g e) true rest
      { taken with items := e :: taken.items }

def recordOf (a : Active) (items : List (Entry Nat)) : List (Record Nat) :=
  if items.isEmpty then [] else [⟨a.number, a.offset, items⟩]

/-- The outer loop: the records of one fill frame, and the containers left over. -/
def batch (g : Graph eq) : Budget → List Active → List (Record Nat) × List Active
  | _, [] => ([], [])
  | b, a :: todo =>
    if b.spent ∨ BATCH_CONTAINERS ≤ b.records then ([], a :: todo)
    else
      let taken := takeItems g b (b.records ≠ 0) a.entries
      let record := recordOf a taken.items
      let left := { a with entries := taken.rest, offset := a.offset + taken.items.length }
      if taken.held ∨ TARGET_FRAME_BYTES ≤ taken.budget.weight then
        (record, if taken.finished then todo else left :: todo)
      else if taken.finished then
        let others := batch g { taken.budget with records := b.records + record.length } todo
        (record ++ others.1, others.2)
      else (record, left :: todo)

/-- What the frame put at the end of `pending`. -/
def newcomers (g : Graph eq) (p p' : Pickler) : List Active :=
  (p'.refs.drop p.refs.length).mapIdx fun i n => ⟨p.refs.length + i, (g.node n).entries, 0⟩

/-! ## pickled lengths -/

/-- The opcode of an integer. -/
def intCost (i : Int) : Nat :=
  if 0 ≤ i ∧ i < 256 then 2
  else if 0 ≤ i ∧ i < 65536 then 3
  else if -2147483648 ≤ i ∧ i < 2147483648 then 5
  else if i.natAbs.size / 8 + 1 < 256 then 2 + (i.natAbs.size / 8 + 1)
  else 5 + (i.natAbs.size / 8 + 1)

/-- The opcode and the length in front of a string, and the memo entry behind it. -/
def textCost (n : Nat) : Nat :=
  if n < 256 then 3 + n else if n < 4294967296 then 6 + n else 10 + n

def utf8Length (c : CodePoint) : Nat :=
  if c.val < 0x80 then 1 else if c.val < 0x800 then 2 else if c.val < 0x10000 then 3 else 4

def Scalar.cost : Scalar → Nat
  | .none => 1
  | .bool _ => 1
  | .int i => intCost i
  | .float _ => 9
  | .str s => textCost (s.map utf8Length).sum
  | .bytes b => textCost b.length

def tupleCost (n : Nat) : Nat := if n = 0 then 1 else if n ≤ 3 then 2 else 3

mutual

/-- A value where nothing in it is known to the memo; containers cost what `f` says. -/
def Value.cost {α : Type} (f : α → Nat) : Value α → Nat
  | .scalar s => s.cost
  | .tuple items => tupleCost items.length + Value.costAll f items
  | .node a => f a

def Value.costAll {α : Type} (f : α → Nat) : List (Value α) → Nat
  | [] => 0
  | v :: vs => v.cost f + Value.costAll f vs

end

/-- A persistent reference is a tuple of at most three opcodes around its kind and two
numbers; an object of the memo is got by its number. -/
def Atom.cost : Atom → Nat
  | .persistent _ number count => 17 + intCost number + intCost count
  | .object _ => 5

def Entry.cost {α : Type} (f : α → Nat) (e : Entry α) : Nat :=
  match e with
  | .pair k v => tupleCost 2 + k.cost f + v.cost f
  | e => Value.costAll f e.parts

def Record.cost (r : Record Atom) : Nat :=
  tupleCost 3 + intCost r.number + intCost r.offset + tupleCost r.items.length +
    (r.items.map (Entry.cost Atom.cost)).sum

/-- The frame tuple with its two strings, between the first and the last opcode. -/
def Frame.cost : Frame Atom → Nat
  | .root v => 37 + v.cost Atom.cost
  | .fill records => 37 + tupleCost records.length + (records.map Record.cost).sum
  | .done count => 37 + intCost count

/-- A container in place: it is made, put in the memo and filled. -/
def Node.cost {α : Type} (f : α → Nat) (n : Node α) : Nat := 4 + Value.costAll f n.parts

def Payload.cost (payload : Payload) : Nat :=
  payload.frame.cost + (payload.objects.map fun o => o.2.cost Atom.cost).sum

variable (size : Payload → Nat)

/-- `encode`: a frame that is too long is refused. -/
def encode (g : Graph eq) (p : Pickler) (f : Frame Nat) : Except TransferError Payload :=
  if MAX_FRAME_BYTES < size (dump g p f) then .error .frameSize else .ok (dump g p f)

/-- The loop of `frames`, for at most `rounds` rounds. -/
def framesFrom (g : Graph eq) : Nat → Pickler → List Active → Except TransferError (List Payload)
  | _, p, [] => do
    let payload ← encode size g p (.done p.refs.length)
    return [payload]
  | 0, _, _ :: _ => .error .unfinished
  | rounds + 1, p, a :: todo =>
    let (records, left) := batch g {} (a :: todo)
    if records.isEmpty then framesFrom g rounds p left
    else do
      let payload ← encode size g p (.fill records)
      let p' := visitFrame g p (.fill records)
      let rest ← framesFrom g rounds p' (left ++ newcomers g p p')
      return payload :: rest

def rounds (g : Graph eq) : Nat := (g.nodes.map fun n => n.entries.length + 1).sum

def frames (g : Graph eq) : Except TransferError (List Payload) := do
  let payload ← encode size g {} (.root g.root)
  let p := visitFrame g {} (.root g.root)
  let rest ← framesFrom size g (rounds g) p (newcomers g {} p)
  return payload :: rest

/-! ## receiving -/

/-- A container of the receiver: made for a reference, or by the unpickler. -/
inductive Loc where
  | ref (number : Nat)
  | object (label : Nat)
deriving DecidableEq

def Atom.loc : Atom → Loc
  | .persistent _ number _ => .ref number
  | .object label => .object label

structure Ref where
  kind : Kind
  count : Nat
  received : Nat := 0
  entries : List (Entry Loc) := []

structure Receiver where
  root : Option (Value Loc) := none
  references : Dict Nat Ref := {}
  objects : Dict Nat (Node Loc) := {}
  completed : Nat := 0

/-- `persistent_load`.  An object of the memo needs no reference. -/
def persistentLoad (r : Receiver) : Atom → Except TransferError Receiver
  | .object _ => .ok r
  | .persistent kind number count =>
    match r.references.get? number with
    | some existing =>
      if existing.kind = kind ∧ existing.count = count then .ok r else .error .invalidReference
    | none =>
      .ok { r with
        references := r.references.set number { kind, count }
        completed := if count = 0 then r.completed + 1 else r.completed }

/-- `unpickler.load()`: the receiver with what the frame brings. -/
def load (r : Receiver) (payload : Payload) : Except TransferError Receiver := do
  let r ← ((payload.frame.parts ++ payload.objects.flatMap fun o => o.2.parts).flatMap
    Value.nodes).foldlM persistentLoad r
  return { r with
    objects := payload.objects.foldl (fun d o => d.set o.1 (o.2.map Atom.loc)) r.objects }

/-- `d[k] = v`. -/
def setItem (eq : Scalar → Scalar → Bool) (k v : Value Loc) :
    List (Entry Loc) → List (Entry Loc)
  | [] => [.pair k v]
  | .pair k' v' :: es =>
    if k'.same eq k then .pair k' v :: es else .pair k' v' :: setItem eq k v es
  | e :: es => e :: setItem eq k v es

/-- `rows.count`. -/
def rowCount (es : List (Entry Loc)) : Nat :=
  match es.getLast? with
  | some (.block stop _) => stop
  | _ => 0

def addItem (eq : Scalar → Scalar → Bool) : Kind → List (Entry Loc) → Entry Loc →
    Except TransferError (List (Entry Loc))
  | .list, es, .value v => .ok (es ++ [.value v])
  | .dict, es, .pair k v => .ok (setItem eq k v es)
  | .packed, es, .block stop data =>
    if stop ≤ rowCount es then .error .invalidPacked else .ok (es ++ [.block stop data])
  | _, _, _ => .error .invalidItems

def fillRecord (eq : Scalar → Scalar → Bool) (r : Receiver) (record : Record Loc) :
    Except TransferError Receiver :=
  match r.references.get? record.number with
  | none => .error .outOfOrder
  | some target =>
    if record.items.isEmpty ∨ target.received ≠ record.offset ∨
        target.count < record.offset + record.items.length then .error .outOfOrder
    else do
      let entries ← record.items.foldlM (addItem eq target.kind) target.entries
      let received := target.received + record.items.length
      if received = target.count ∧ entries.length ≠ target.count then .error .incomplete
      else
        return { r with
          references := r.references.set record.number { target with received, entries }
          completed := if received = target.count then r.completed + 1 else r.completed }

/-- One frame of `receive_result`; the last one gives the value. -/
def receiveFrame (eq : Scalar → Scalar → Bool) (r : Receiver) (payload : Payload) :
    Except TransferError (Receiver × Option (Value Loc)) := do
  let r ← load r payload
  match payload.frame.map Atom.loc, r.root with
  | .root v, none => return ({ r with root := some v }, none)
  | .fill records, some _ => return (← records.foldlM (fillRecord eq) r, none)
  | .done count, some v =>
    if count ≠ r.references.entries.length ∨ count ≠ r.completed then .error .incomplete
    else return (r, some v)
  | _, _ => .error .unexpected

/-- `receive_result`, as far as the frames go: the value, or none where it waits for more. -/
def receive (eq : Scalar → Scalar → Bool) :
    Receiver → List Payload → Except TransferError (Receiver × Option (Value Loc))
  | r, [] => .ok (r, none)
  | r, payload :: payloads =>
    if MAX_FRAME_BYTES < size payload then .error .frameSize
    else do
      let (r, result) ← receiveFrame eq r payload
      match result with
      | some v => return (r, some v)
      | none => receive eq r payloads

def Receiver.node (r : Receiver) : Loc → Option (Node Loc)
  | .ref number => (r.references.get? number).map fun ref => ⟨ref.kind, ref.entries⟩
  | .object label => r.objects.get? label

end GraphTransfer

end Codexon
