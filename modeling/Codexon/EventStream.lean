import Codexon.Json

/-!
# Codexon.EventStream

`cachemonitor/event_stream.py` and the native `scan_event_lines`: the events of
a JSONL file, read in blocks.

`EventProjection` is a push parser that keeps the parts of one JSON text that
`SCHEMA` names.  `EventLines` finds the event lines, by the native scanner, by
looking at a line that lies in one block, or by feeding an `EventProjection`
the pieces of a line that does not.

`loads` stands for `json.loads` of bytes (`none` for the `ValueError` of bytes
that are no JSON) and `dumps` for `json.dumps(…, ensure_ascii=False)` encoded
as UTF-8 (`none` where it raises).
-/

namespace Codexon

/-! ## the schema -/

/-- A schema: `True` keeps everything, a dictionary the members it names. -/
inductive Schema where
  | all
  | keys (members : List (PyStr × Schema))

namespace Schema

def each (names : List String) : List (PyStr × Schema) := names.map fun name => (py name, .all)

def nested (members : List (String × Schema)) : List (PyStr × Schema) :=
  members.map fun m => (py m.1, m.2)

def USAGE : Schema := .keys (each ["input_tokens", "cached_input_tokens", "cache_write_input_tokens",
    "output_tokens", "reasoning_output_tokens", "total_tokens"] ++
  nested [("input_tokens_details", .keys (each ["cached_tokens", "cache_write_tokens"])),
    ("output_tokens_details", .keys (each ["reasoning_tokens"]))])

def WINDOW : Schema := .keys (each ["used_percent", "resets_at", "window_minutes"])

def SCHEMA : Schema := .keys (each ["type", "timestamp"] ++ nested [("payload", .keys
  (each ["id", "cwd", "source", "type", "turn_id", "thread_id", "response_id", "model", "effort",
      "reasoning_effort", "service_tier", "parent_thread_id", "agent_path", "agent_nickname",
      "spawn_depth"] ++
    nested [("usage", USAGE), ("thread_token_usage", USAGE),
      ("collaboration_mode", .keys (nested [("settings", .keys (each ["reasoning_effort"]))])),
      ("thread_settings", .keys (each ["service_tier"])),
      ("info", .keys (nested [("total_token_usage", USAGE), ("last_token_usage", USAGE)])),
      ("rate_limits", .keys (each ["limit_id", "plan_type"] ++
        nested [("primary", WINDOW), ("secondary", WINDOW)] ++ each ["unlimited_windows"]))]))])

/-- `schema.get(key)`. -/
def lookup (members : List (PyStr × Schema)) (key : PyStr) : Option Schema :=
  (members.find? (·.1 = key)).map (·.2)

/-- `bool(schema)`. -/
def truthy : Option Schema → Bool
  | none => false
  | some .all => true
  | some (.keys members) => !members.isEmpty

/-- The schema of the member of that key (`None` for no key). -/
def member (schema : Option Schema) (key : Option PyStr) : Option Schema :=
  match schema with
  | some (.keys members) => key.bind (lookup members)
  | schema => schema

/-- `frame['schema'] is True or frame['key'] in frame['schema']`. -/
def admits (schema : Option Schema) (key : PyStr) : Bool :=
  match schema with
  | some .all => true
  | some (.keys members) => (lookup members key).isSome
  | none => false

end Schema

/-! ## the projection -/

/-- `{` or `[`. -/
inductive Bracket where
  | brace
  | square
deriving DecidableEq, Repr

/-- What a container waits for. -/
inductive Phase where
  | keyFirst
  | first
  | key
  | colon
  | value
  | comma
deriving DecidableEq, Repr

/-- A container being read. -/
structure Frame where
  kind : Bracket
  schema : Option Schema
  value : Option Json
  phase : Phase
  key : Option PyStr := none

/-- An `EventProjection`; the innermost container comes first. -/
structure EventProjection where
  stack : List Frame := []
  result : Json := .null
  done : Bool := false
  string : Bool := false
  escape : Bool := false
  token : Bytes := []
  capture : Bool := false
  keyToken : Bool := false
  primitive : Bool := false
  selectedBytes : Nat := 0

namespace EventProjection

def maxSelected : Nat := 16 * 1024 * 1024

def maxDepth : Nat := 128

/-- `SPECIAL`: a quote or a backslash. -/
def special (c : Byte) : Bool := c = 34 || c = 92

/-- `DELIMITER`: white space, brackets, a comma, a colon or a quote. -/
def delimiter (c : Byte) : Bool :=
  c = 32 || (9 ≤ c && c ≤ 13) || c = 123 || c = 125 || c = 91 || c = 93 || c = 44 || c = 58 || c = 34

def schema (p : EventProjection) : Except PyError (Option Schema) :=
  match p.stack with
  | [] => if p.done then .error .valueError else .ok (some Schema.SCHEMA)
  | frame :: _ =>
    if frame.phase ≠ .value ∧ frame.phase ≠ .first then .error .valueError
    else match frame.kind with
      | .square => .ok frame.schema
      | .brace => .ok (Schema.member frame.schema frame.key)

def windowName (value : Json) : Bool := value = .str (py "weekly") || value = .str (py "five_hour")

def Frame.put (frame : Frame) (value : Json) : Option Json :=
  match frame.value, frame.key with
  | some (.obj members), some key =>
    if Schema.admits frame.schema key then some (.obj (Json.assign members key value))
    else frame.value
  | some (.arr xs), _ =>
    if windowName value && value ∉ xs then some (.arr (xs ++ [value])) else frame.value
  | _, _ => frame.value

def accept (p : EventProjection) (value : Json) : EventProjection :=
  match p.stack with
  | [] => { p with result := value, done := true }
  | frame :: stack =>
    { p with stack := { frame with value := Frame.put frame value, phase := .comma } :: stack }

/-- `append`.  An unknown long object key cannot match the schema. -/
def append (p : EventProjection) (part : Bytes) : Except PyError EventProjection :=
  if !p.capture then .ok p
  else if p.keyToken then
    if 256 < p.token.length + part.length then .ok { p with capture := false, token := [] }
    else .ok { p with token := p.token ++ part }
  else if maxSelected < p.selectedBytes + part.length then .error .valueError
  else .ok { p with
    selectedBytes := p.selectedBytes + part.length
    token := p.token ++ part }

section

variable (loads : Bytes → Option Json)

/-- `json.loads(self.token) if self.capture else None`. -/
def tokenValue (p : EventProjection) : Except PyError Json :=
  if p.capture then
    match loads p.token with
    | some value => .ok value
    | none => .error .valueError
  else .ok .null

/-- The key of the container's next member.  A token that begins with a quote
is a string or no JSON. -/
def takeKey (p : EventProjection) (value : Json) : Except PyError EventProjection :=
  match p.stack, value with
  | frame :: stack, .str key =>
    .ok { p with stack := { frame with key := some key, phase := .colon } :: stack }
  | frame :: stack, _ =>
    if p.capture then .error .valueError
    else .ok { p with stack := { frame with key := none, phase := .colon } :: stack }
  | [], _ => .error .indexError

/-- The value of the token becomes a key or is put into its container. -/
def placeToken (p : EventProjection) (value : Json) : Except PyError EventProjection :=
  if p.keyToken then p.takeKey value else .ok (p.accept value)

def finishToken (p : EventProjection) : Except PyError EventProjection := do
  let value ← p.tokenValue loads
  let p ← p.placeToken value
  return { p with token := [], string := false, primitive := false }

end

/-! ## characters outside strings and primitives -/

/-- `{` and `[`. -/
def openBracket (p : EventProjection) (kind : Bracket) : Except PyError EventProjection := do
  let schema ← p.schema
  if maxDepth ≤ p.stack.length then .error .valueError
  else
    let frame : Frame := {
      kind, schema
      value := if Schema.truthy schema then
          some (match kind with
            | .brace => .obj []
            | .square => .arr [])
        else none
      phase := match kind with
        | .brace => .keyFirst
        | .square => .first }
    return { p with stack := frame :: p.stack }

/-- `}` and `]`. -/
def closeBracket (p : EventProjection) (kind : Bracket) : Except PyError EventProjection :=
  match p.stack with
  | [] => .error .valueError
  | frame :: stack =>
    if frame.kind ≠ kind ∨
        (frame.phase ≠ .keyFirst ∧ frame.phase ≠ .first ∧ frame.phase ≠ .comma) then
      .error .valueError
    else .ok ({ p with stack }.accept (frame.value.getD .null))

/-- `:`. -/
def colon (p : EventProjection) : Except PyError EventProjection :=
  match p.stack with
  | [] => .error .valueError
  | frame :: stack =>
    if frame.phase ≠ .colon then .error .valueError
    else .ok { p with stack := { frame with phase := .value } :: stack }

/-- `,`. -/
def comma (p : EventProjection) : Except PyError EventProjection :=
  match p.stack with
  | [] => .error .valueError
  | frame :: stack =>
    if frame.phase ≠ .comma then .error .valueError
    else
      let phase := match frame.kind with
        | .brace => .key
        | .square => .value
      .ok { p with stack := { frame with phase } :: stack }

/-- A string or a primitive begins with an object's key. -/
def atKey (p : EventProjection) : Bool := p.stack.head?.any fun frame =>
  frame.kind = .brace && (frame.phase = .key || frame.phase = .keyFirst)

/-- `self.key_token or bool(self.schema())`. -/
def captures (p : EventProjection) : Except PyError Bool :=
  if p.atKey then .ok true else p.schema.map Schema.truthy

def startToken (p : EventProjection) (char : Byte) : Except PyError EventProjection :=
  if p.atKey ∧ char ≠ 34 then .error .valueError
  else do
    let capture ← p.captures
    let p ← { p with keyToken := p.atKey, capture, token := [] }.append [char]
    return { p with string := char = 34, primitive := char ≠ 34 }

def structural (p : EventProjection) (char : Byte) : Except PyError EventProjection :=
  if char = 32 ∨ char = 9 ∨ char = 13 then .ok p
  else if char = 123 then p.openBracket .brace
  else if char = 91 then p.openBracket .square
  else if char = 125 then p.closeBracket .brace
  else if char = 93 then p.closeBracket .square
  else if char = 58 then p.colon
  else if char = 44 then p.comma
  else p.startToken char

section

variable (loads : Bytes → Option Json)

/-- `feed`.  After the end of a primitive the loop goes on with the delimiter. -/
def feed (p : EventProjection) (data : Bytes) : Except PyError EventProjection :=
  match data with
  | [] => .ok p
  | char :: rest =>
    if p.string then
      if p.escape then do
        let p ← p.append [char]
        feed { p with escape := false } rest
      else do
        let p ← p.append ((char :: rest).takeWhile (!special ·))
        match _h : (char :: rest).dropWhile (!special ·) with
        | [] => return p
        | char :: rest =>
          let p ← p.append [char]
          if char = 92 then feed { p with escape := true } rest
          else feed (← p.finishToken loads) rest
    else if p.primitive then do
      let p ← p.append ((char :: rest).takeWhile (!delimiter ·))
      match _h : (char :: rest).dropWhile (!delimiter ·) with
      | [] => return p
      | char :: rest => feed (← (← p.finishToken loads).structural char) rest
    else do feed (← p.structural char) rest
termination_by data.length
decreasing_by all_goals first | exact length_of_dropWhile ‹_› | simp

def settle (p : EventProjection) : Except PyError EventProjection :=
  if p.primitive then p.finishToken loads else .ok p

def finish (p : EventProjection) : Except PyError Json := do
  let p ← p.settle loads
  if p.string || !p.stack.isEmpty || !p.done then .error .valueError else return p.result

end

end EventProjection

end Codexon
