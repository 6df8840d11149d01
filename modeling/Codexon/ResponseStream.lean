import Codexon.Json

/-!
# Codexon.ResponseStream

`cachemonitor/proxy_observation.py`: the metadata of a relayed response, read
from the pieces its bytes arrive in.

`ResponseMetadata` looks at the first bytes and hands the rest to a JSON
selector or to `EventStream`, which frames server-sent events and gives each
event a selector of its own.  A callback is kept as an entry of `called`.

`JsonCoro` stands for `ijson.parse_coro`.  The framer asks little of a
selector, so it is written over any `Selector`; the code's is `selectedJSON`.
-/

namespace Codexon

/-- The texts an observation records as its error. -/
inductive ObserveError where
  | observationLimit
  | invalidJson
  | unknownFormat
  | decodeError
deriving DecidableEq, Repr

/-! ## the JSON selector -/

/-- What `ijson` emits: a string, a boolean, or an event nobody selects. -/
inductive ParseValue where
  | string (s : PyStr)
  | boolean (b : Bool)
  | other
deriving DecidableEq, Repr

/-- An event and the path of the value it is about. -/
structure ParseEvent where
  path : PyStr
  value : ParseValue
deriving DecidableEq, Repr

/-- `ijson.parse_coro`: `send` and `close` emit events, or raise. -/
structure JsonCoro (π : Type) where
  start : π
  send : π → Bytes → Option (π × List ParseEvent)
  close : π → Option (List ParseEvent)

def MAX_OBSERVATION : Nat := 128 * 1024 * 1024

def FIELDS : List PyStr :=
  ["model", "stream_id", "type", "object", "id", "event_id", "response_id", "status", "generate",
    "stream", "prompt_cache_retention", "service_tier", "response.id", "response.model",
    "response.status", "response.service_tier", "reasoning.effort",
    "response.reasoning.effort"].map py

/-- `target[parts[-1]] = value`, where `target` is reached by `setdefault(part, {})`.
No field is a prefix of another one, so what is reached is a dictionary. -/
def storeField : List PyStr → Json → List (PyStr × Json) → List (PyStr × Json)
  | [], _, fields => fields
  | [part], value, fields => Json.assign fields part value
  | part :: parts, value, fields =>
    let target := match Json.lookup fields part with
      | some (.obj members) => members
      | _ => []
    Json.assign fields part (.obj (storeField parts value target))

/-- One round of `_collect`. -/
def collectField (fields : List (PyStr × Json)) (e : ParseEvent) : List (PyStr × Json) :=
  if e.path ∈ FIELDS then
    match e.value with
    | .string s =>
      if s.length > 256 then fields
      else storeField (e.path.splitOn (Fin.ofNat 0x110000 46)) (.str s) fields
    | .boolean b =>
      if py "reasoning.effort" <:+ e.path then fields
      else storeField (e.path.splitOn (Fin.ofNat 0x110000 46)) (.bool b) fields
    | .other => fields
  else fields

/-- A `SelectedJSON`. -/
structure SelectedJSON (π : Type) where
  parser : π
  fields : List (PyStr × Json) := []
  error : Option ObserveError := none
  closed : Bool := false
  size : Nat := 0

namespace SelectedJSON

variable {π : Type} (coro : JsonCoro π)

/-- `feed`.  What an erroneous text emitted before its error is never read. -/
def feed (s : SelectedJSON π) (data : Bytes) : SelectedJSON π :=
  if data = [] ∨ s.error.isSome ∨ s.closed then s
  else
    let s := { s with size := s.size + data.length }
    if s.size > MAX_OBSERVATION then { s with error := some .observationLimit }
    else match coro.send s.parser data with
      | some (parser, events) => { s with parser, fields := events.foldl collectField s.fields }
      | none => { s with error := some .invalidJson }

def finish (s : SelectedJSON π) : SelectedJSON π × List (PyStr × Json) :=
  let s :=
    if s.closed then s
    else match coro.close s.parser with
      | some events => { s with closed := true, fields := events.foldl collectField s.fields }
      | none => { s with closed := true, error := some (s.error.getD .invalidJson) }
  (s, if s.error.isSome then [] else s.fields)

end SelectedJSON

/-- What the framer asks of a JSON selector: `SelectedJSON()`, `feed`,
`finish`, whether the fields are true, and `error`. -/
structure Selector (σ φ : Type) where
  new : σ
  feed : σ → Bytes → σ
  finish : σ → σ × φ
  truthy : φ → Bool
  error : σ → Option ObserveError

def selectedJSON {π : Type} (coro : JsonCoro π) :
    Selector (SelectedJSON π) (List (PyStr × Json)) where
  new := { parser := coro.start }
  feed := SelectedJSON.feed coro
  finish := SelectedJSON.finish coro
  truthy fields := !fields.isEmpty
  error := SelectedJSON.error

/-! ## server-sent events -/

def lineFeed : Byte := 10

def carriageReturn : Byte := 13

def endsLine (c : Byte) : Bool := c = lineFeed || c = carriageReturn

/-- What the line's field is, once known. -/
inductive LineField where
  | data
  | ignore
deriving DecidableEq, Repr

/-- An `EventStream`. -/
structure EventFramer (σ φ : Type) where
  json : σ
  before : Bytes := []
  field : Option LineField := none
  firstValue : Bool := false
  lineNonempty : Bool := false
  hadData : Bool := false
  skipLf : Bool := false
  called : List φ := []

namespace EventFramer

variable {σ φ : Type} (sel : Selector σ φ)

/-- The loop of `_piece` that looks for the end of the field's name. -/
def findField (s : EventFramer σ φ) : Bytes → EventFramer σ φ × Bytes
  | [] => (s, [])
  | byte :: piece =>
    if byte = 58 then
      ({ s with
          field := some (if s.before = ascii "data" then .data else .ignore)
          firstValue := true }, piece)
    else if s.before.length < 5 then findField { s with before := s.before ++ [byte] } piece
    else ({ s with field := some .ignore }, piece)

def piece (s : EventFramer σ φ) (piece : Bytes) : EventFramer σ φ :=
  if piece = [] then s
  else
    let s := { s with lineNonempty := true }
    let (s, piece) := if s.field.isNone then s.findField piece else (s, piece)
    if s.field = some .data then
      let s := { s with hadData := true }
      let (s, piece) :=
        if s.firstValue ∧ piece ≠ [] then
          ({ s with firstValue := false }, if piece.head? = some 32 then piece.tail else piece)
        else (s, piece)
      { s with json := sel.feed s.json piece }
    else s

def newline (s : EventFramer σ φ) : EventFramer σ φ :=
  let s :=
    if !s.lineNonempty then
      let fields := (sel.finish s.json).2
      { s with
        called := s.called ++ if s.hadData && sel.truthy fields then [fields] else []
        json := sel.new
        hadData := false }
    else if s.field = some .data then { s with json := sel.feed s.json [lineFeed] }
    else s
  { s with before := [], field := none, lineNonempty := false, firstValue := false }

/-- The loop of `feed`, from `offset` on. -/
def lines (s : EventFramer σ φ) (data : Bytes) : EventFramer σ φ :=
  if data = [] then s
  else
    match hrest : data.dropWhile (!endsLine ·) with
    | [] => s.piece sel (data.takeWhile (!endsLine ·))
    | c :: rest =>
      have := length_of_dropWhile hrest
      let s := (s.piece sel (data.takeWhile (!endsLine ·))).newline sel
      if c = carriageReturn then
        match rest with
        | [] => { s with skipLf := true }
        | d :: more => if d = lineFeed then lines s more else lines s (d :: more)
      else lines s rest
termination_by data.length
decreasing_by all_goals first | exact this | exact Nat.lt_of_succ_lt this

def feed (s : EventFramer σ φ) (data : Bytes) : EventFramer σ φ :=
  let rest := if s.skipLf ∧ data.head? = some lineFeed then data.tail else data
  { s with skipLf := false }.lines sel rest

/-- `finish`: an unterminated event is not evidence of a completed response. -/
def finish (s : EventFramer σ φ) : EventFramer σ φ := { s with json := (sel.finish s.json).1 }

end EventFramer

/-! ## JSON or server-sent events -/

/-- What a response turned out to be. -/
inductive Kind where
  | json
  | sse
deriving DecidableEq, Repr

/-- The parser of a response. -/
inductive ResponseParser (σ φ : Type) where
  | json (s : σ)
  | sse (s : EventFramer σ φ)

/-- A `ResponseMetadata`; its callbacks are its parser's and, of a JSON response, `answered`. -/
structure ResponseMetadata (σ φ : Type) where
  before : Bytes := []
  parser : Option (ResponseParser σ φ) := none
  error : Option ObserveError := none
  answered : List φ := []

def markers : List Bytes := ["data:", "event:", ":", "id:", "retry:"].map ascii

def bom : Bytes := [0xef, 0xbb, 0xbf]

/-- `b' \t\r\n'`. -/
def whitespace (c : Byte) : Bool := c = 32 || c = 9 || c = carriageReturn || c = lineFeed

/-- `prefix.removeprefix(bom)`. -/
def probe (before : Bytes) : Bytes := if bom <+: before then before.drop bom.length else before

namespace ResponseParser

variable {σ φ : Type} (sel : Selector σ φ)

/-- `self.parser.feed`. -/
def feed (data : Bytes) : ResponseParser σ φ → ResponseParser σ φ
  | .json s => .json (sel.feed s data)
  | .sse s => .sse (s.feed sel data)

/-- `self.kind`. -/
def kind : ResponseParser σ φ → Kind
  | .json _ => .json
  | .sse _ => .sse

def called : ResponseParser σ φ → List φ
  | .json _ => []
  | .sse s => s.called

end ResponseParser

namespace ResponseMetadata

variable {σ φ : Type} (sel : Selector σ φ)

/-- The loop of `feed`, from `offset` on; `lstrip` drops the white space byte by byte. -/
def sniff (r : ResponseMetadata σ φ) : Bytes → ResponseMetadata σ φ
  | [] => r
  | c :: rest =>
    if (r.before = [] ∨ r.before = bom) ∧ whitespace c then sniff r rest
    else
      let r := { r with before := r.before ++ [c] }
      if r.before = bom then sniff r rest
      else
        let text := probe r.before
        let start (parser : ResponseParser σ φ) : ResponseMetadata σ φ :=
          { r with before := [], parser := some ((parser.feed sel text).feed sel rest) }
        if text = ascii "\x7b" then start (.json sel.new)
        else if text ∈ markers then start (.sse { json := sel.new })
        else if r.before <+: bom ∨ ∃ marker ∈ markers, text <+: marker then sniff r rest
        else { r with error := some .unknownFormat, before := [] }

def feed (r : ResponseMetadata σ φ) (data : Bytes) : ResponseMetadata σ φ :=
  if r.error.isSome then r
  else match r.parser with
    | some parser => { r with parser := some (parser.feed sel data) }
    | none => r.sniff sel data

def finish (r : ResponseMetadata σ φ) : ResponseMetadata σ φ :=
  match r.parser with
  | none => r
  | some (.sse s) => { r with parser := some (.sse (s.finish sel)) }
  | some (.json s) =>
    let (s, fields) := sel.finish s
    { r with
      parser := some (.json s)
      error := sel.error s
      answered := if sel.truthy fields then [fields] else [] }

/-- `self.kind`. -/
def kind (r : ResponseMetadata σ φ) : Option Kind := r.parser.map (·.kind)

def called (r : ResponseMetadata σ φ) : List φ := (r.parser.map (·.called)).getD [] ++ r.answered

def observe (pieces : List Bytes) : ResponseMetadata σ φ := (pieces.foldl (feed sel) {}).finish sel

end ResponseMetadata

end Codexon
