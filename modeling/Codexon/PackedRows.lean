import Codexon.Blocks
import Codexon.Json

/-!
# Codexon.PackedRows

`_PackedRows` and `_PackedHistory` of `cachemonitor/quota_cycles.py`: rows in compressed
blocks, found by the ends of the blocks and by the times of their last rows.

A list stands for an array of Python, and the cache of decoded blocks is the state of the
methods that read through it.
-/

namespace Codexon.PackedRows

/-- `pickle`, `zlib`, `json` and `hashlib`, of rows and of a pair of positions. -/
structure Encoding (ρ δ : Type) where
  dumps : List ρ → Bytes
  loads : Bytes → List ρ
  compress : Bytes → Bytes
  decompress : Bytes → Bytes
  dumpsPair : Nat × Nat → Bytes
  jsonDumps : List ρ → Bytes
  sha256 : Bytes → δ

/-- What `_PackedRows` reads of a row: `row['at']` and the values that are texts. -/
structure Reader (ρ τ : Type) where
  time : ρ → τ
  texts : ρ → List PyStr

/-- The fields of `_PackedRows`, without the cache. -/
structure Packed (τ : Type) where
  blocks : List Bytes := []
  ends : List Nat := []
  times : List τ := []
  timeEnds : List τ := []
  timestamped : Bool
  count : Nat := 0

variable {ρ τ δ : Type} [LinearOrder τ] (enc : Encoding ρ δ) (reader : Reader ρ τ)

def maxPayload : Nat := 64 * 1024

def maxBatch : Nat := 512

def maxWeight : Nat := 2 * 1024 * 1024

/-! ## packing -/

/-- `pickle.loads(zlib.decompress(block))`. -/
def Encoding.decode (block : Bytes) : List ρ := enc.loads (enc.decompress block)

def Encoding.encode (rows : List ρ) : Bytes := enc.compress (enc.dumps rows)

def Packed.addBlock (p : Packed τ) (rows : List ρ) : Packed τ :=
  { p with
    blocks := p.blocks ++ [enc.encode rows]
    ends := p.ends ++ [p.ends.getLast?.getD 0 + rows.length]
    timeEnds :=
      if p.timestamped then p.timeEnds ++ (rows.getLast?.map reader.time).toList
      else p.timeEnds }

/-- `_pack`: a batch is halved until its payload is small; of `pending`, what comes first is
packed first. -/
def Packed.pack (p : Packed τ) (batch : List ρ) : Packed τ :=
  if maxPayload < (enc.encode batch).length ∧ 1 < batch.length then
    let middle := batch.length / 2
    ((p.pack (batch.take middle)).pack (batch.drop middle))
  else p.addBlock enc reader batch
termination_by batch.length
decreasing_by all_goals simp; omega

/-- The state of the loop of `__init__`. -/
structure Filling (ρ τ : Type) where
  packed : Packed τ
  batch : List ρ := []
  weight : Nat := 0

def rowSize (row : ρ) : Nat := 512 + ((reader.texts row).map fun v => v.length * 4).sum

/-- A batch is packed before a row that it has no room for. -/
def Filling.flush (s : Filling ρ τ) (size : Nat) : Filling ρ τ :=
  if s.batch ≠ [] ∧ (maxBatch ≤ s.batch.length ∨ maxWeight < s.weight + size) then
    { packed := s.packed.pack enc reader s.batch }
  else s

/-- The body of the loop of `__init__`. -/
def Filling.add (s : Filling ρ τ) (row : ρ) : Filling ρ τ :=
  let size := rowSize reader row
  let s := s.flush enc reader size
  { packed := { s.packed with
      count := s.packed.count + 1
      times :=
        if s.packed.timestamped ∧ s.packed.times.getLast? ≠ some (reader.time row) then
          s.packed.times ++ [reader.time row]
        else s.packed.times }
    batch := s.batch ++ [row]
    weight := s.weight + size }

def packedRows (timestamped : Bool) (rows : List ρ) : Packed τ :=
  let s := rows.foldl (Filling.add enc reader) { packed := { timestamped } }
  if s.batch = [] then s.packed else s.packed.pack enc reader s.batch

def packedHistory (rows : List ρ) : Packed τ := packedRows enc reader true rows

/-! ## reads -/

/-- `_cache`, the least recent first. -/
abbrev Cache (ρ : Type) := List (Nat × List ρ)

/-- `ends[block-1] if block else 0`. -/
def Packed.base (p : Packed τ) (block : Nat) : Nat :=
  if block = 0 then 0 else p.ends[block - 1]?.getD 0

def Packed.block (p : Packed τ) (block : Nat) : Py (Cache ρ) (List ρ) := do
  let cache ← get
  let rows ←
    match cache.find? fun entry => entry.1 = block with
    | some entry => pure entry.2
    | none => enc.decode <$> Py.ofExcept (item p.blocks block)
  let cache := cache.filter (fun entry => entry.1 ≠ block) ++ [(block, rows)]
  set (cache.drop (cache.length - 2))
  return rows

/-- `__getitem__` of an integer. -/
def Packed.getItem (p : Packed τ) (index : Int) : Py (Cache ρ) ρ := do
  let index := if index < 0 then index + p.count else index
  if 0 ≤ index ∧ index < p.count then
    let block := bisectRight p.ends index.toNat
    let rows ← p.block enc block
    Py.ofExcept (item rows (index.toNat - p.base block))
  else throw .indexError

/-- A slice. -/
structure Slice where
  start : Option Int
  stop : Option Int
  step : Option Int

def Slice.indices (s : Slice) (length : Nat) : Except PyError (Int × Int × Int) :=
  let step := s.step.getD 1
  if step = 0 then .error .valueError
  else
    let lower : Int := if step < 0 then -1 else 0
    let upper : Int := if step < 0 then length - 1 else length
    let clip := fun i : Int => if i < 0 then max (i + length) lower else min i upper
    let start := (s.start.map clip).getD (if step < 0 then upper else lower)
    let stop := (s.stop.map clip).getD (if step < 0 then lower else upper)
    .ok (start, stop, step)

def range (start stop step : Int) : List Int :=
  let length :=
    if 0 < step then (stop - start + step - 1) / step else (start - stop - step - 1) / -step
  (List.range length.toNat).map fun (i : Nat) => start + i * step

/-- `__getitem__` of a slice. -/
def Packed.getSlice (p : Packed τ) (s : Slice) : Py (Cache ρ) (List ρ) := do
  let (start, stop, step) ← Py.ofExcept (s.indices p.count)
  if step ≠ 1 then (range start stop step).mapM (p.getItem enc)
  else if stop ≤ start then return []
  else
    let start := start.toNat
    let stop := stop.toNat
    let first := bisectRight p.ends start
    let parts ← (List.range' first (bisectLeft p.ends stop + 1 - first)).mapM fun block => do
      let rows ← p.block enc block
      return Blocks.portion start stop (p.base block) rows
    return parts.flatten

def Packed.len (p : Packed τ) : Nat := p.count

def Packed.iter (p : Packed τ) : List ρ := p.blocks.flatMap enc.decode

/-! ## signatures -/

def littleEndian : Nat → Nat → Bytes
  | 0, _ => []
  | length + 1, n => Fin.ofNat 256 n :: littleEndian length (n / 256)

def toBytes (length n : Nat) : Except PyError Bytes :=
  if n < 256 ^ length then .ok (littleEndian length n) else .error .overflowError

/-- What `signature` reads of a block: its payload, or the JSON of its rows in the range. -/
def Packed.payload (p : Packed τ) (start stop block : Nat) : Py (Cache ρ) Bytes := do
  let base := p.base block
  let whole ←
    if start ≤ base then (fun (e : Nat) => decide (e ≤ stop)) <$> Py.ofExcept (item p.ends block)
    else pure false
  if whole then Py.ofExcept (item p.blocks block)
  else
    let rows ← p.block enc block
    return enc.jsonDumps (Blocks.portion start stop base rows)

def Packed.signature (p : Packed τ) (start : Nat) (stop : Option Nat) : Py (Cache ρ) δ := do
  let stop := stop.getD p.count
  if start < stop then
    let first := bisectRight p.ends start
    let payloads ← (List.range' first (bisectLeft p.ends stop + 1 - first)).mapM fun block => do
      let payload ← p.payload enc start stop block
      return (← Py.ofExcept (toBytes 8 payload.length)) ++ payload
    return enc.sha256 (enc.dumpsPair (start - p.base first, stop - start) ++ payloads.flatten)
  else return enc.sha256 []

/-! ## histories -/

def Packed.iterFrom (p : Packed τ) (at_ : τ) : List ρ :=
  (p.blocks.drop (bisectLeft p.timeEnds at_)).flatMap fun block =>
    (enc.decode block).filter fun row => at_ ≤ reader.time row

def Packed.rangeBlocks (p : Packed τ) (start stop : τ) : Packed τ :=
  let first := bisectLeft p.timeEnds start
  let last := min p.blocks.length (bisectRight p.timeEnds stop + 1)
  let base := p.base first
  let ends := ((p.ends.take last).drop first).map (· - base)
  { blocks := (p.blocks.take last).drop first
    ends
    timeEnds := (p.timeEnds.take last).drop first
    timestamped := true
    count := ends.getLast?.getD 0 }

/-- `retained`: the rows of a block that are before a time. -/
def Packed.retained (p : Packed τ) (at_ : τ) (block : Nat) : List ρ :=
  match p.blocks[block]? with
  | some payload => (enc.decode payload).filter fun row => reader.time row < at_
  | none => []

def Packed.withSuffix (p : Packed τ) (at_ : τ) (rows : List ρ) : Packed τ :=
  let block := bisectLeft p.timeEnds at_
  let tail := packedHistory enc reader (p.retained enc reader at_ block ++ rows)
  let count := p.base block
  { blocks := p.blocks.take block ++ tail.blocks
    ends := p.ends.take block ++ tail.ends.map (count + ·)
    times := p.times.take (bisectLeft p.times at_) ++ tail.times.drop (bisectLeft tail.times at_)
    timeEnds := p.timeEnds.take block ++ tail.timeEnds
    timestamped := true
    count := count + tail.count }

end Codexon.PackedRows
