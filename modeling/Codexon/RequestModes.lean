import Codexon.Json
import Codexon.Regex

/-!
# Codexon.RequestModes

`request_mode_observation` of `cachemonitor/request_modes.py`: the mode of a turn, read from a body
of the log.

Quoted text is replaced by numbered placeholders first.  The rest of the function searches the shape
that remains, and reads the text of a placeholder by its number.
-/

namespace Codexon.RequestModes

/-- The classes of characters that `re` and `int` use. -/
structure Classes where
  space : CodePoint → Bool
  digit : CodePoint → Bool
  word : CodePoint → Bool
  decimal : CodePoint → Nat

inductive Error where
  | valueError
  | indexError
deriving DecidableEq

abbrev Re := Regex CodePoint

/-- A literal text of an expression. -/
def lit (t : String) : Re := Regex.lit (py t)

def isNewline (c : CodePoint) : Bool := c = 10

/-! ## the shape -/

/-- `"(?:\\.|[^"\\])*"` -/
def quoted : Re :=
  .seq (.one (· = 34)) (.seq (.star true (.alt (.seq (.one (· = 92)) (.one fun c => !isNewline c))
      (.one fun c => c ≠ 34 && c ≠ 92)))
    (.one (· = 34)))

/-- `match.group()[1:-1]` -/
def inner (m : Regex.Match CodePoint) : PyStr := ((m.start.upTo m.stop).drop 1).dropLast

/-- `f'@{n}@'` -/
def placeholder (n : Nat) : PyStr := py "@" ++ Json.natRepr n ++ py "@"

/-- `replace` on the matches, in order. -/
def substitute (strings : List PyStr) : List (CodePoint ⊕ Regex.Match CodePoint) →
    PyStr × List PyStr
  | [] => ([], strings)
  | .inl c :: rest =>
    let (shape, all) := substitute strings rest
    (c :: shape, all)
  | .inr m :: rest =>
    let (shape, all) := substitute (strings ++ [inner m]) rest
    (placeholder strings.length ++ shape, all)

/-- `shape` and `strings` of a body. -/
def shapeOf (body : PyStr) : PyStr × List PyStr :=
  substitute [] (quoted.tokens body.length { after := body })

/-! ## the submission -/

section

variable (cs : Classes)

def isName (c : CodePoint) : Bool :=
  97 ≤ c.val && c.val ≤ 122 || 65 ≤ c.val && c.val ≤ 90 || 48 ≤ c.val && c.val ≤ 57 || c = 45

/-- `Submission sub=Submission\s*\{\s*id:\s*@(\d+)@,\s*op:\s*TurnInput` -/
def submissionStruct : Re :=
  Regex.all [lit "Submission sub=Submission", .many cs.space, lit "\x7b", .many cs.space,
    lit "id:", .many cs.space, lit "@", .group 1 (.plus cs.digit), lit "@,", .many cs.space,
    lit "op:", .many cs.space, lit "TurnInput"]

/-- `\bSubmission\s+([^{}]*?)\bop=\s*TurnInput\b` -/
def submissionFields : Re :=
  Regex.all [.boundary cs.word, lit "Submission", .plus cs.space,
    .group 1 (.star false (.one fun c => c ≠ 123 && c ≠ 125)), .boundary cs.word, lit "op=",
    .many cs.space, lit "TurnInput", .boundary cs.word]

/-- `\bsubmission_id=(?:@(\d+)@|([a-zA-Z0-9-]+))(?=\s|$)` -/
def identifierRe : Re :=
  Regex.all [.boundary cs.word, lit "submission_id=",
    .alt (Regex.all [lit "@", .group 1 (.plus cs.digit), lit "@"]) (.group 2 (.plus isName)),
    .look (.alt (.one cs.space) (.ending isNewline))]

/-- Where the turn of a submission is: a placeholder, by its digits, or a plain text. -/
inductive Turn where
  | string (digits : PyStr)
  | plain (t : PyStr)
deriving DecidableEq

def submission (shape : PyStr) : Option (Turn × Nat) :=
  match (submissionStruct cs).search shape with
  | some m => some (.string ((m.stop.group 1).getD []), m.stop.before.length)
  | none => do
    let m ← (submissionFields cs).search shape
    let identifier ← (identifierRe cs).search ((m.stop.group 1).getD [])
    match identifier.stop.group 1 with
    | some digits => some (.string digits, m.stop.before.length)
    | none => some (.plain ((identifier.stop.group 2).getD []), m.stop.before.length)

/-- `int(digits)`, which refuses more than 4300 digits. -/
def toInt (digits : PyStr) : Except Error Nat :=
  if 4300 < digits.length then .error .valueError
  else .ok (digits.foldl (fun n c => 10 * n + cs.decimal c) 0)

def stringAt (strings : List PyStr) (digits : PyStr) : Except Error PyStr := do
  let n ← toInt cs digits
  match strings[n]? with
  | some t => .ok t
  | none => .error .indexError

/-- `[a-zA-Z0-9-]{16,64}` -/
def isTurn (t : PyStr) : Bool := t.all isName && 16 ≤ t.length && t.length ≤ 64

/-! ## the structures -/

inductive Structure where
  | threadSettingsOverrides
  | turnStartOptions
deriving DecidableEq

def Structure.name : Structure → String
  | .threadSettingsOverrides => "ThreadSettingsOverrides"
  | .turnStartOptions => "TurnStartOptions"

def findFrom (needle text : PyStr) (start : Nat) : Option Nat :=
  (List.range' start (text.length + 1 - start)).find? fun i => needle.isPrefixOf (text.drop i)

def closing : Nat → PyStr → Nat
  | 0, _ => 0
  | _, [] => 0
  | depth + 1, c :: rest =>
    1 + closing (if c = 123 then depth + 2 else if c = 125 then depth else depth + 1) rest

def content (shape : PyStr) (stop : Nat) (structure_ : Structure) : Option PyStr := do
  let found ← findFrom (py structure_.name ++ py " \x7b") shape stop
  let start := ((findFrom (py "\x7b") shape found).map (· + 1)).getD 0
  let stop := start + closing 1 (shape.drop start)
  some ((shape.drop start).take (stop - 1 - start))

/-- `\bservice_tier:\s*(Some\(None\)|Some\((?:Some\()?@(\d+)@\)\)?|None)` -/
def tierRe : Re :=
  Regex.all [.boundary cs.word, lit "service_tier:", .many cs.space,
    .group 1 (.alt (lit "Some(None)") (.alt
      (Regex.all [lit "Some(", .opt (lit "Some("), lit "@", .group 2 (.plus cs.digit), lit "@)",
        .opt (lit ")")])
      (lit "None")))]

/-- What a match says of the tier. -/
inductive Tier where
  | none
  | clear
  | string (digits : PyStr)
deriving DecidableEq

def tiers (content : PyStr) : List Tier :=
  ((tierRe cs).finditer content).filterMap fun m =>
    if m.start.before.count 123 ≠ m.start.before.count 125 then Option.none
    else if m.stop.group 1 = some (py "None") then some .none
    else if m.stop.group 1 = some (py "Some(None)") then some .clear
    else some (.string ((m.stop.group 2).getD []))

/-! ## the observation -/

structure Update where
  action : PyStr
  mode : Option PyStr
  configuredServiceTier : Option PyStr
deriving DecidableEq

structure Observation where
  turn : PyStr
  action : PyStr
  mode : Option PyStr
  source : PyStr
  configuredServiceTier : Option PyStr
  settingsUpdate : Option Update := none
deriving DecidableEq

/-- `{'priority':'Fast',...}.get(value,value)` -/
def modeOf (value : PyStr) : PyStr :=
  if value = py "priority" ∨ value = py "fast" then py "Fast"
  else if value = py "default" ∨ value = py "standard" then py "Standard"
  else value

def Structure.source : Structure → PyStr
  | .threadSettingsOverrides => "settings_override"
  | .turnStartOptions => "turn_override"

def Observation.say (result : Observation) (structure_ : Structure) (update : Update) :
    Observation :=
  { turn := result.turn
    action := update.action
    mode := update.mode
    source := structure_.source
    configuredServiceTier := update.configuredServiceTier
    settingsUpdate :=
      if structure_ = .threadSettingsOverrides then some update else result.settingsUpdate }

def applyTier (strings : List PyStr) (structure_ : Structure) (result : Observation) :
    Tier → Except Error Observation
  | .none => .ok result
  | .clear => .ok (result.say structure_ ⟨"clear", some "Standard", none⟩)
  | .string digits => do
    let value ← stringAt cs strings digits
    .ok (result.say structure_ ⟨"set", some (modeOf value), some value⟩)

def applyStructure (shape : PyStr) (strings : List PyStr) (stop : Nat) (result : Observation)
    (structure_ : Structure) : Except Error Observation :=
  match content shape stop structure_ with
  | none => .ok result
  | some content => (tiers cs content).foldlM (applyTier cs strings structure_) result

def structures : List Structure := [.threadSettingsOverrides, .turnStartOptions]

def turnText (strings : List PyStr) : Turn → Except Error PyStr
  | .string digits => stringAt cs strings digits
  | .plain t => .ok t

def observe (shape : PyStr) (strings : List PyStr) : Except Error (Option Observation) :=
  match submission cs shape with
  | none => .ok none
  | some (turn, stop) => do
    let turn ← turnText cs strings turn
    if !isTurn turn then .ok none
    else
      let result ← structures.foldlM (applyStructure cs shape strings stop)
        { turn := turn, action := "unchanged", mode := none, source := "unchanged"
          configuredServiceTier := none }
      .ok (some result)

def requestModeObservation (body : Option PyStr) : Except Error (Option Observation) :=
  let (shape, strings) := shapeOf (body.getD [])
  observe cs shape strings

end

end Codexon.RequestModes
