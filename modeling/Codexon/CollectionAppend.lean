import Codexon.Dict
import Codexon.Json

/-!
# Codexon.CollectionAppend

`cachemonitor/collection_append.py`: append packets for the readers of a session.

`complete` issues a packet when a session only grew by a certified tail, `bind`
keeps a bounded chain of the packets published last, and `response` composes the
suffix of the chain that a lagging reader still misses.

`encode` and `sha256` stand for the JSON encoder and the hash of the standard
library.  A packet carries its payload both as bytes and as the value that
`json.loads` reads from them.  Tokens and evidence are compared as Python
compares JSON values (`Json.canon`).
-/

namespace Codexon

namespace Append

/-! ## limits -/

def tailRows : Nat := 128

def chainPackets : Nat := 32

def retainedBytes : Nat := 16 * 1024 * 1024

def responseBytes : Nat := 4 * 1024 * 1024

def metadataBytes : Nat := 64 * 1024

mutual
/-- The weight that `_catalog_weight` adds up. -/
def weight : Json → Nat
  | .str s => 64 + 4 * s.length
  | .arr xs => 64 + 32 * xs.length + weightElems xs
  | .obj members => 64 + 32 * members.length + weightMembers members
  | _ => 32

def weightElems : List Json → Nat
  | [] => 0
  | x :: xs => weight x + weightElems xs

def weightMembers : List (PyStr × Json) → Nat
  | [] => 0
  | (k, x) :: xs => 64 + 32 * 2 + (64 + 4 * k.length) + weight x + weightMembers xs
end

mutual
/-- How many containers are open at once; the items of a dictionary are pairs. -/
def nesting : Json → Nat
  | .arr xs => 1 + nestingElems xs
  | .obj members => 1 + nestingMembers members
  | _ => 0

def nestingElems : List Json → Nat
  | [] => 0
  | x :: xs => max (nesting x) (nestingElems xs)

def nestingMembers : List (PyStr × Json) → Nat
  | [] => 0
  | (_, x) :: xs => max (1 + nesting x) (nestingMembers xs)
end

def catalogWeight (value : Json) (budget : Nat) : Except PyError Nat :=
  if weight value ≤ budget ∧ nesting value + 1 ≤ 32 then .ok (weight value) else .error .valueError

/-- The standard library's encoder and hash. -/
structure Codec where
  /-- `encoded` -/
  encode : Json → Except PyError (List UInt8)
  /-- `hashlib.sha256(…).hexdigest()` -/
  sha256 : List UInt8 → PyStr

def Codec.digest (codec : Codec) (value : Json) : Except PyError PyStr :=
  (codec.encode value).map codec.sha256

/-- `a == b` of JSON values. -/
def same (a b : Json) : Bool := a.canon = b.canon

/-! ## payloads -/

/-- The `evidence` of a payload. -/
structure Evidence where
  priorRevision : Json
  revision : Json
  joinEpoch : Json
  generation : Json
deriving DecidableEq

/-- A `requests` or `turns` entry of a payload: rows by name, and removed names. -/
structure Upserts (α : Type) where
  upserts : List (PyStr × α)
  removed : List PyStr
deriving DecidableEq

/-- The value of a packet. -/
structure Payload where
  format : Nat
  owner : PyStr × PyStr
  priorToken : Json
  token : Json
  priorRawCount : Nat
  rawCount : Nat
  priorFrontier : Json
  tail : List Json
  tailDigest : PyStr
  contextDigest : PyStr
  evidence : Evidence
  priorSourceToken : Json
  sourceToken : Json
  metadata : List (PyStr × Json)
  requestMaps : List PyStr
  requests : Upserts (Nat × Json)
  turns : Upserts Json
deriving DecidableEq

def Payload.toJson (p : Payload) : Json :=
  .obj [
    (py "format", .int p.format),
    (py "owner", .arr [.str p.owner.1, .str p.owner.2]),
    (py "prior_token", p.priorToken),
    (py "token", p.token),
    (py "prior_raw_count", .int p.priorRawCount),
    (py "raw_count", .int p.rawCount),
    (py "prior_frontier", p.priorFrontier),
    (py "tail", .arr p.tail),
    (py "tail_digest", .str p.tailDigest),
    (py "context_digest", .str p.contextDigest),
    (py "evidence", .obj [
      (py "prior_revision", p.evidence.priorRevision),
      (py "revision", p.evidence.revision),
      (py "join_epoch", p.evidence.joinEpoch),
      (py "generation", p.evidence.generation)]),
    (py "prior_source_token", p.priorSourceToken),
    (py "source_token", p.sourceToken),
    (py "metadata", .obj p.metadata),
    (py "request_maps", .arr (p.requestMaps.map .str)),
    (py "requests", .obj [
      (py "upserts", .arr (p.requests.upserts.map fun r =>
        .arr [.str r.1, .int r.2.1, r.2.2])),
      (py "removed", .arr (p.requests.removed.map .str))]),
    (py "turns", .obj [
      (py "upserts", .arr (p.turns.upserts.map fun r => .arr [.str r.1, r.2])),
      (py "removed", .arr (p.turns.removed.map .str))])]

/-- An `AppendPacket`; `value` is what `json.loads` reads from its payload. -/
structure AppendPacket where
  charge : Nat
  producer : Nat
  key : PyStr × PyStr
  priorToken : Json
  token : Json
  value : Payload
  payload : List UInt8
  digest : PyStr
  rows : Nat
deriving DecidableEq

/-- An `AppendBudget`. -/
structure AppendBudget where
  limit : Nat := retainedBytes
  used : Nat := 0

def AppendBudget.packet (codec : Codec) (budget : AppendBudget) (producer : Nat)
    (key : PyStr × PyStr) (priorToken token : Json) (value : Payload) :
    Option (AppendPacket × AppendBudget) :=
  match catalogWeight value.toJson responseBytes, codec.encode value.toJson with
  | .ok _, .ok payload =>
    let charge := payload.length + 4096 + 4 * (key.1.length + key.2.length)
    if responseBytes - metadataBytes < payload.length ∨ budget.limit < budget.used + charge then
      none
    else
      some
        ({ charge, producer, key, priorToken, token, value, payload
           digest := codec.sha256 payload, rows := value.tail.length },
         { budget with used := budget.used + charge })
  | _, _ => none

/-! ## the chain of a session -/

/-- A binding without its history. -/
structure Link where
  packet : AppendPacket
  epoch : Nat
  priorBodyDigest : PyStr
  bodyDigest : PyStr
deriving DecidableEq

/-- A binding. -/
structure Binding extends Link where
  history : List Link
deriving DecidableEq

def Binding.chain (b : Binding) : List Link := b.history ++ [b.toLink]

/-- The loop of `bind`: links from the newest on, as long as their rows and their
number fit. -/
def retain (rows : Nat) (kept : List Link) : List Link → List Link
  | [] => kept
  | item :: older =>
    if tailRows < rows + item.packet.rows ∨ chainPackets - 1 ≤ kept.length then kept
    else retain (rows + item.packet.rows) (kept ++ [item]) older

def bind (packet : AppendPacket) (epoch : Nat) (priorBodyDigest bodyDigest : PyStr)
    (previous : Option Binding) : Binding :=
  let history :=
    match previous with
    | none => []
    | some before =>
      if before.epoch = epoch ∧ before.bodyDigest = priorBodyDigest ∧
          before.packet.producer = packet.producer ∧
          same before.packet.token packet.priorToken then
        (retain packet.rows [] before.chain.reverse).reverse
      else []
  { packet, epoch, priorBodyDigest, bodyDigest, history }

/-! ## answers -/

/-- The value composed so far, with the tail and the rows by name. -/
structure Composed where
  value : Payload
  tail : List Json
  requests : Dict PyStr (Nat × Json)
  turns : Dict PyStr Json

/-- The two payloads follow each other without a gap. -/
def joins (before after : Link) (value current : Payload) : Bool :=
  before.bodyDigest = after.priorBodyDigest &&
    same value.token current.priorToken &&
    same value.sourceToken current.priorSourceToken &&
    value.rawCount = current.priorRawCount &&
    value.contextDigest = current.contextDigest &&
    same value.evidence.generation current.evidence.generation &&
    same value.evidence.joinEpoch current.evidence.joinEpoch &&
    value.requestMaps.all (· ∈ current.requestMaps) &&
    current.requests.removed = [] && current.turns.removed = []

/-- The loop of `response` over the links after `before`. -/
def compose (state : Composed) (before : Link) : List Link → Option Composed
  | [] => some state
  | after :: rest =>
    let current := after.packet.value
    if joins before after state.value current then
      compose
        { value := current
          tail := state.tail ++ current.tail
          requests := state.requests.update current.requests.upserts
          turns := state.turns.update current.turns.upserts } after rest
    else none

/-- The combined payload of a chain that starts with `first`. -/
def combined (first : Payload) (state : Composed) (tailDigest : PyStr) : Payload :=
  { state.value with
    priorToken := first.priorToken, priorRawCount := first.priorRawCount
    priorFrontier := first.priorFrontier, priorSourceToken := first.priorSourceToken
    tail := state.tail, tailDigest
    evidence := { state.value.evidence with priorRevision := first.evidence.priorRevision }
    requests := ⟨state.requests.entries.mergeSort fun a b => a.2.1 ≤ b.2.1, []⟩
    turns := ⟨state.turns.entries, []⟩ }

/-- What `response` returns, with the value of the payload. -/
structure Answer where
  priorToken : Json
  value : Payload
  payload : List UInt8
  digest : PyStr

def composedAnswer (codec : Codec) (first : Link) (rest : List Link) :
    Except PyError (Option Answer) :=
  let value := first.packet.value
  if value.requests.removed ≠ [] ∨ value.turns.removed ≠ [] then .ok none
  else
    let start : Composed :=
      { value, tail := value.tail
        requests := Dict.update {} value.requests.upserts
        turns := Dict.update {} value.turns.upserts }
    match compose start first rest with
    | none => .ok none
    | some state =>
      if tailRows < state.tail.length ∨ tailRows < state.requests.entries.length ∨
          tailRows < state.turns.entries.length then .ok none
      else do
        let tailDigest ← codec.digest (.arr state.tail)
        let value := combined value state tailDigest
        match catalogWeight value.toJson responseBytes, codec.encode value.toJson with
        | .ok _, .ok payload =>
          if responseBytes - metadataBytes < payload.length then return none
          else
            let answer : Answer :=
              { priorToken := first.packet.value.priorToken, value, payload
                digest := codec.sha256 payload }
            return some answer
        | _, _ => return none

def response (codec : Codec) (binding : Binding) (prior : PyStr) :
    Except PyError (Option Answer) :=
  if binding.priorBodyDigest = prior then
    .ok (some
      { priorToken := binding.packet.priorToken, value := binding.packet.value
        payload := binding.packet.payload, digest := binding.packet.digest })
  else
    match binding.chain.dropWhile fun item => item.priorBodyDigest ≠ prior with
    | [] => .ok none
    | first :: rest => composedAnswer codec first rest

/-! ## issuing a packet -/

def mutableFields : List PyStr :=
  ["history", "requests", "groups", "totals", "remaining", "collection_complete", "status",
    "usage_revision", "request_revision", "activity", "running", "request_state", "turn_records",
    "turn_states", "rate", "weighted_rate", "input", "cached", "cache_misses", "cache_health",
    "cache_degradation", "_prepared"].map py

def metadataExclude : List PyStr :=
  ["history", "requests", "groups", "turn_records", "turn_states", "cache_misses", "cache_health",
    "cache_degradation", "_prepared"].map py

def contextDigest (codec : Codec) (source : List (PyStr × Json)) : Option PyStr :=
  let value : Json := .obj (source.filter fun m => m.1 ∉ mutableFields)
  match catalogWeight value metadataBytes, codec.digest value with
  | .ok _, .ok digest => some digest
  | _, _ => none

/-- A `_replay_source`: the epoch of the store, the owner and its revision. -/
structure SourceToken where
  epoch : PyStr
  owner : Int
  revision : Int
deriving DecidableEq

def SourceToken.toJson (t : SourceToken) : Json := .arr [.str t.epoch, .int t.owner, .int t.revision]

/-- What `complete` reads of the evidence reader. -/
structure Reader where
  ident : Nat
  identity : Json
  generation : Json
  joinEpoch : Json
  revision : Json
  previousRevision : Json
  error : Bool
  catchingUp : Bool
  /-- `changed_responses.get(home_key(key[0]), ())` -/
  changedResponses : List PyStr
deriving DecidableEq

/-- What `complete` reads of a session. -/
structure LiveSession where
  ident : Nat
  contextRevision : Nat
  replaySource : Option SourceToken
  keys : List PyStr
deriving DecidableEq

/-- What `begin` captured of the predecessor. -/
structure Origin where
  session : Nat
  reader : Nat
  priorToken : Json
  priorRawCount : Nat
  /-- `prior_frontier`: the time, a number, and the key of the last row -/
  frontierTs : Json
  frontierKey : PyStr
  contextDigest : PyStr
  /-- `evidence`: identity, generation, join epoch and revision of the reader -/
  identity : Json
  generation : Json
  joinEpoch : Json
  revision : Json
  sourceToken : Option SourceToken
  keys : List PyStr
  turns : List PyStr
  /-- `request_maps['turn_records']` -/
  records : List (PyStr × Json)
  /-- `request_maps['turn_states']` -/
  states : List (PyStr × Json)
  contextRevision : Nat

def Origin.current (origin : Origin) (session : LiveSession) (reader : Reader) (rebuilding : Bool) :
    Bool :=
  origin.session = session.ident && session.contextRevision = origin.contextRevision &&
    reader.ident = origin.reader && same reader.identity origin.identity &&
    same reader.generation origin.generation && same reader.joinEpoch origin.joinEpoch &&
    !reader.error && !reader.catchingUp &&
    (same origin.revision reader.revision || same origin.revision reader.previousRevision) &&
    !rebuilding

def Origin.undisturbed (origin : Origin) (session : LiveSession) (reader : Reader) : Bool :=
  same origin.revision reader.revision ||
    !reader.changedResponses.any fun name => name ∈ session.keys && name ∉ origin.keys

/-- `type(ts) in (int, float)` with its value. -/
def numberOf : Json → Option PyFloat
  | .int n => some (.finite n)
  | .float x => some x
  | _ => none

def tailKeys (previous : PyFloat) (seen : List PyStr) : List Json → Except PyError (Option (List PyStr))
  | [] => .ok (some seen)
  | row :: rows => do
    let name ← row.getNone "key"
    let ts ← row.getNone "ts"
    match name, numberOf ts with
    | .str name, some ts =>
      if name ∈ seen ∨ ¬ ts.isfinite ∨ ts ≤ previous then return none
      else tailKeys ts (seen ++ [name]) rows
    | _, _ => return none

def changedRows (before after : List (PyStr × Json)) (touched : List PyStr) :
    List (PyStr × Nat × Json) :=
  (after.zipIdx.filter fun (row, _) => row.1 ∈ touched &&
    match Json.lookup before row.1 with
    | none => true
    | some value => !same value row.2).map fun (row, i) => (row.1, i, row.2)

def removedRows (before after : List (PyStr × Json)) (turns : List PyStr) : List PyStr :=
  turns.filter fun name => (Json.lookup before name).isSome && (Json.lookup after name).isNone

/-- `source.get(field, {})`, a dictionary. -/
def sourceMap (source : List (PyStr × Json)) (field : PyStr) : Option (List (PyStr × Json)) :=
  match (Json.lookup source field).getD (.obj []) with
  | .obj members => some members
  | _ => none

def payloadOf (origin : Origin) (reader : Reader) (key : PyStr × PyStr)
    (source : List (PyStr × Json)) (token : Json) (tail : List Json) (tailDigest : PyStr)
    (oldSource newSource : SourceToken) (records states : List (PyStr × Json)) : Payload where
  format := 1
  owner := key
  priorToken := origin.priorToken
  token := token
  priorRawCount := origin.priorRawCount
  rawCount := origin.priorRawCount + tail.length
  priorFrontier := .arr [origin.frontierTs, .str origin.frontierKey]
  tail := tail
  tailDigest := tailDigest
  contextDigest := origin.contextDigest
  evidence := {
    priorRevision := origin.revision, revision := reader.revision
    joinEpoch := origin.joinEpoch, generation := origin.generation }
  priorSourceToken := oldSource.toJson
  sourceToken := newSource.toJson
  metadata := source.filter fun m => m.1 ∉ metadataExclude
  requestMaps := ([py "turn_records", py "turn_states"]).filter fun name =>
    (Json.lookup source name).isSome
  requests := {
    upserts := changedRows origin.records records origin.turns
    removed := removedRows origin.records records origin.turns }
  turns := {
    upserts := (changedRows origin.states states origin.turns).map fun r => (r.1, r.2.2)
    removed := removedRows origin.states states origin.turns }

def certifiedTail (origin : Origin) (source : List (PyStr × Json)) :
    Except PyError (Option (List Json)) :=
  match Json.lookup source (py "history") with
  | some (.arr history) =>
    let tail := history.drop origin.priorRawCount
    if history.length ≠ origin.priorRawCount + origin.keys.length ∨ tail = [] ∨
        tailRows < tail.length then .ok none
    else do
      match ← tailKeys ((numberOf origin.frontierTs).getD 0) [] tail with
      | none => return none
      | some names =>
        if names.all (· ∈ origin.keys) && origin.keys.all (· ∈ names) then return some tail
        else return none
  | _ => .ok none

/-- `complete`: the packet of a session whose view is `source`. -/
def complete (codec : Codec) (budget : AppendBudget) (producer : Nat) (key : PyStr × PyStr)
    (origin : Origin) (session : LiveSession) (reader : Reader) (rebuilding : Bool)
    (source : List (PyStr × Json)) (token : Json) :
    Except PyError (Option (AppendPacket × AppendBudget)) :=
  if !(origin.current session reader rebuilding) ∨
      contextDigest codec source ≠ some origin.contextDigest ∨
      !(origin.undisturbed session reader) then .ok none
  else
    match origin.sourceToken, session.replaySource with
    | some oldSource, some newSource =>
      if oldSource.epoch ≠ newSource.epoch ∨ oldSource.owner ≠ newSource.owner ∨
          newSource.revision ≤ oldSource.revision then .ok none
      else do
        match ← certifiedTail origin source with
        | none => return none
        | some tail =>
          match catalogWeight (.arr tail) responseBytes,
            catalogWeight (.obj (source.filter fun m => m.1 ∉ metadataExclude)) metadataBytes,
            sourceMap source (py "turn_records"), sourceMap source (py "turn_states") with
          | .ok _, .ok _, some records, some states =>
            let tailDigest ← codec.digest (.arr tail)
            return budget.packet codec producer key origin.priorToken token
              (payloadOf origin reader key source token tail tailDigest oldSource newSource
                records states)
          | _, _, _, _ => return none
    | _, _ => .ok none

end Append

end Codexon
