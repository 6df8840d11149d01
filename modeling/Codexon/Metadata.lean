import Codexon.Dict
import Codexon.Json
import Codexon.Nested

/-!
# Codexon.Metadata

The selection of metadata from a message: `native/src/metadata.rs`, and `SelectedJSON` and
`message_metadata` of `cachemonitor/proxy_observation.py`.

The native side walks the value with visitors and keeps the selected scalars by their dotted
names.  The other side reads the events of a streaming parser, each with its dotted prefix.
-/

namespace Codexon

namespace Metadata

/-! ## messages -/

/-- The value of a JSON text, with the members of an object as they are written. -/
inductive Doc where
  | null
  | boolean (b : Bool)
  | number (literal : PyStr)
  | string (s : PyStr)
  | array (elements : List Doc)
  | object (members : List (PyStr × Doc))

inductive Scalar where
  | text (s : PyStr)
  | boolean (b : Bool)
deriving DecidableEq

abbrev Items := Nested.Items PyStr Scalar

def fields : List PyStr := ["model", "stream_id", "type", "object", "id", "event_id", "response_id",
  "status", "generate", "stream", "prompt_cache_retention", "service_tier", "response.id",
  "response.model", "response.status", "response.service_tier", "reasoning.effort",
  "response.reasoning.effort"]

def split (name : PyStr) : List PyStr := name.splitOn 46

def join (path : List PyStr) : PyStr := (py ".").intercalate path

/-- `name.ends_with("reasoning.effort")` -/
def isEffort (name : PyStr) : Bool := (py "reasoning.effort").isSuffixOf name

/-! ## the native selection -/

abbrev Fields := Dict PyStr Scalar

def selectedScalar (name : PyStr) (fields : Fields) : Doc → Fields
  | .string value => if value.length ≤ 256 then fields.set name (.text value) else fields
  | .boolean value => if isEffort name then fields else fields.set name (.boolean value)
  | _ => fields

/-- `nested`: the prefix of the members of a value. -/
def nested (name : PyStr) : Option PyStr :=
  if name = "response" then some "response."
  else if name = "reasoning" then some "reasoning."
  else if name = "response.reasoning" then some "response.reasoning."
  else none

mutual
def selection (pre : PyStr) (kept : Fields) : Doc → Fields
  | .object members => visitMap pre kept members
  | _ => kept

def visitMap (pre : PyStr) (kept : Fields) : List (PyStr × Doc) → Fields
  | [] => kept
  | (key, value) :: rest =>
    let name := pre ++ key
    match nested name with
    | some inner => visitMap pre (selection inner kept value) rest
    | none =>
      if name ∈ fields then visitMap pre (selectedScalar name kept value) rest
      else visitMap pre kept rest
end

/-- The items of a `BTreeMap`. -/
def sorted (kept : Fields) : List (PyStr × Scalar) :=
  kept.entries.insertionSort fun a b => a.1 ≤ b.1

abbrev Data := List UInt8

/-- `std::str::from_utf8(data).is_ok()` -/
def isUtf8 (data : Data) : Bool := (ByteArray.mk data.toArray).validateUTF8

/-- `select`; `serde` is the value that the deserializer reads, if it reads all of the data. -/
def select (serde : Data → Option Doc) (data : Data) : Option Fields :=
  if isUtf8 data then (serde data).map (selection [] {}) else none

/-- The dictionary that is made of the fields; none where an item is not a dictionary. -/
def output (kept : Fields) : Option Items :=
  Nested.inserts [] ((sorted kept).map fun field => (split field.1, field.2))

/-- What a call of the native function gives. -/
inductive Native where
  | ok (items : Items)
  | valueError
  | castError

/-- `message_metadata` of the native module. -/
def nativeMetadata (serde : Data → Option Doc) (data : Data) : Native :=
  match select serde data with
  | none => .valueError
  | some kept =>
    match output kept with
    | some items => .ok items
    | none => .castError

/-! ## the streaming selection -/

/-- An event of the parser, with its value. -/
inductive Happening where
  | null
  | boolean (b : Bool)
  | number (literal : PyStr)
  | string (s : PyStr)
  | startMap
  | mapKey (key : PyStr)
  | endMap
  | startArray
  | endArray
deriving DecidableEq

structure Event where
  pre : PyStr
  event : Happening

mutual
/-- The events that stand for a value under a path: the prefix is `'.'.join(path)`. -/
def events (path : List PyStr) : Doc → List Event
  | .null => [⟨join path, .null⟩]
  | .boolean b => [⟨join path, .boolean b⟩]
  | .number literal => [⟨join path, .number literal⟩]
  | .string s => [⟨join path, .string s⟩]
  | .array elements =>
    ⟨join path, .startArray⟩ :: eventsElements (path ++ [py "item"]) elements ++
      [⟨join path, .endArray⟩]
  | .object members =>
    ⟨join path, .startMap⟩ :: eventsMembers path members ++ [⟨join path, .endMap⟩]

def eventsElements (path : List PyStr) : List Doc → List Event
  | [] => []
  | element :: rest => events path element ++ eventsElements path rest

def eventsMembers (path : List PyStr) : List (PyStr × Doc) → List Event
  | [] => []
  | (key, value) :: rest =>
    ⟨join path, .mapKey key⟩ :: events (path ++ [key]) value ++ eventsMembers path rest
end

/-- A step of `_collect`; none where a value that is no dictionary is in the way. -/
def collectEvent (items : Items) (e : Event) : Option Items :=
  if e.pre ∈ fields then
    match e.event with
    | .string value =>
      if 256 < value.length then some items
      else Nested.insert items (split e.pre) (.text value)
    | .boolean value =>
      if isEffort e.pre then some items else Nested.insert items (split e.pre) (.boolean value)
    | _ => some items
  else some items

def collect (items : Items) (es : List Event) : Option Items := es.foldlM collectEvent items

/--
The streaming parser: a piece of the text, or its end, gives events, and the parser after it, or
whether the text is complete; it fails otherwise.
-/
structure Sax (σ : Type) where
  start : σ
  send : σ → Data → List Event × Option σ
  close : σ → List Event × Bool

def maxObservation : Nat := 128 * 1024 * 1024

def chunk : Nat := 65536

inductive Error where
  | observationLimit
  | invalidJson
deriving DecidableEq

structure SelectedJSON (σ : Type) where
  fields : Items := []
  error : Option Error := none
  closed : Bool := false
  size : Nat := 0
  parser : σ

section Streaming

variable {σ : Type}

/-- `feed`; none where `_collect` fails. -/
def feed (sax : Sax σ) (s : SelectedJSON σ) (data : Data) : Option (SelectedJSON σ) :=
  if data = [] ∨ s.error ≠ none ∨ s.closed then some s
  else
    let s := { s with size := s.size + data.length }
    if maxObservation < s.size then some { s with error := some .observationLimit }
    else
      let (es, parser) := sax.send s.parser data
      (collect s.fields es).map fun items =>
        match parser with
        | some parser => { s with fields := items, parser := parser }
        | none => { s with fields := items, error := some .invalidJson }

/-- `finish`; none where `_collect` fails. -/
def finish (sax : Sax σ) (s : SelectedJSON σ) : Option Items :=
  if s.closed then some (if s.error = none then s.fields else [])
  else
    let (es, complete) := sax.close s.parser
    (collect s.fields es).map fun items =>
      if s.error = none ∧ complete then items else []

/-- A message as it comes: bytes, or a text that can be encoded. -/
inductive Message where
  | bytes (data : Data)
  | str (text : List Char)

/-- `xs[offset:offset+CHUNK] for offset in range(0,len(xs),CHUNK)` -/
def slices {α : Type} (xs : List α) : List (List α) :=
  if xs = [] then [] else xs.take chunk :: slices (xs.drop chunk)
termination_by xs.length
decreasing_by
  rename_i h
  have hpos := List.length_pos_of_ne_nil h
  rw [List.length_drop]
  unfold chunk
  omega

def encode (text : List Char) : Data := text.flatMap String.utf8EncodeChar

def Message.pieces : Message → List Data
  | .bytes data => slices data
  | .str text => (slices text).map encode

def Message.data : Message → Data
  | .bytes data => data
  | .str text => encode text

/-- `_python_message_metadata`; none where `_collect` fails. -/
def pythonMetadata (sax : Sax σ) (message : Message) : Option Items := do
  let s ← message.pieces.foldlM (feed sax) { parser := sax.start }
  finish sax s

def Message.size : Message → Nat
  | .bytes data => data.length
  | .str text => ((slices text).map fun piece => (encode piece).length).sum

/-- `message_metadata`; `native` is none where there is no native module. -/
def messageMetadata (sax : Sax σ) (native : Option (Data → Native)) (message : Message) :
    Option Items :=
  match native with
  | none => pythonMetadata sax message
  | some native =>
    if maxObservation < message.size then some []
    else
      match native message.data with
      | .ok items => some items
      | .valueError => pythonMetadata sax message
      | .castError => none

end Streaming

end Metadata

end Codexon
