import Codexon.Dict
import Codexon.Json
import Mathlib.Data.List.TakeWhile

/-!
# Codexon.JsonLexical

`_JSONLexical` and `_material_admitted` of `cachemonitor/collection_stream.py`: the filter
that bounds the tokens of a JSON text and writes `null` for the numbers that JSON lacks.

What is left of a piece of data stands for the data and a position in it.
-/

namespace Codexon.JsonLexical

open List

/-- What the code raises. -/
inductive Error where
  /-- `CollectionCatalogUnavailable('json_token_budget')`. -/
  | tokenBudget
  /-- `CollectionCatalogUnavailable('json_depth_budget')`. -/
  | depthBudget
  /-- `ValueError`, of a name that is repeated or not read. -/
  | value
  /-- What `check` raises. -/
  | check
deriving DecidableEq

def chunkBytes : Nat := 64 * 1024

def tokenBytes : Nat := 4 * 1024 * 1024

def recordBytes : Nat := 32 * 1024 * 1024

def literalBytes : Nat := 8192

def maxDepth : Nat := 64

/-! ## bytes -/

/-- A quote or a backslash (`_STRING_SPECIAL`). -/
def isSpecial (c : Byte) : Bool := c = 34 || c = 92

def isOpening (c : Byte) : Bool := c = 123 || c = 91

def isClosing (c : Byte) : Bool := c = 125 || c = 93

/-- White space, brackets, a comma or a colon: what `_TOKEN_START` passes over. -/
def isSeparator (c : Byte) : Bool :=
  c = 32 || c = 9 || c = 13 || c = 10 || c = 44 || isOpening c || isClosing c || c = 58

/-- A separator or a quote (`_DELIMITER`). -/
def isDelimiter (c : Byte) : Bool := isSeparator c || c = 34

/-- The numbers of Python that are none of JSON. -/
inductive Nonfinite where
  | nan
  | infinity
  | negInfinity
deriving DecidableEq

def Nonfinite.text : Nonfinite → Bytes
  | nan => ascii "NaN"
  | infinity => ascii "Infinity"
  | negInfinity => ascii "-Infinity"

/-- `_NONFINITE.get(value)`. -/
def nonfinite (value : Bytes) : Option Nonfinite :=
  [Nonfinite.nan, .infinity, .negInfinity].find? fun number => number.text = value

/-! ## the filter -/

inductive Mode where
  | string
  | literal
deriving DecidableEq

/-- The fields of `_JSONLexical`. -/
structure Lexical where
  mode : Option Mode := none
  escaped : Bool := false
  size : Nat := 0
  literal : Bytes := []
  token : Nat := 0
  replacements : Dict Nat Nonfinite := {}
  depth : Int := 0
deriving DecidableEq

namespace Lexical

def admitBytes (s : Lexical) (count : Nat) : Except Error Lexical :=
  let s := { s with size := s.size + count }
  let limit := if s.mode = some .literal then literalBytes else tokenBytes
  if limit < s.size then .error .tokenBudget else .ok s

def finishLiteral (s : Lexical) : Bytes × Lexical :=
  let value := s.literal
  let s := { s with literal := [], mode := none }
  match nonfinite value with
  | some number =>
    (ascii "null", { s with replacements := s.replacements.set s.token number })
  | none => (value, s)

def nested (s : Lexical) (c : Byte) : Lexical :=
  { s with depth :=
      if isOpening c then s.depth + 1 else if isClosing c then s.depth - 1 else s.depth }

/-- The loop over `separators`. -/
def separate (s : Lexical) : Bytes → Except Error Lexical
  | [] => .ok s
  | c :: separators =>
    if maxDepth < (s.nested c).depth then .error .depthBudget
    else separate (s.nested c) separators

/-- Of the steps of the loop of `feed` that consume nothing, which come first. -/
def rank (s : Lexical) (data : Bytes) : Nat :=
  match s.mode with
  | none => 1
  | some .string => 0
  | some .literal => if data.head?.any isDelimiter then 2 else 0

theorem rank_le (s : Lexical) (data : Bytes) : s.rank data ≤ 2 := by
  rw [rank]
  split
  · omega
  · omega
  · split <;> omega

theorem mode_finishLiteral (s : Lexical) : s.finishLiteral.2.mode = none := by
  rw [finishLiteral]
  split <;> rfl

theorem of_dropWhile_eq {p : Byte → Bool} {c x : Byte} {rest rest' : Bytes}
    (h : (c :: rest).dropWhile p = x :: rest') :
    p x = false ∧ (rest'.length < rest.length ∨ x = c ∧ rest' = rest) := by
  have hx : p x = false := by
    have := head?_dropWhile_not p (c :: rest)
    simpa [h] using this
  refine ⟨hx, ?_⟩
  cases hc : p c with
  | false =>
    rw [dropWhile_cons_of_neg (by simp [hc])] at h
    simp_all
  | true =>
    rw [dropWhile_cons_of_pos hc] at h
    have hle : (rest.dropWhile p).length ≤ rest.length := (dropWhile_sublist p).length_le
    rw [h, length_cons] at hle
    omega

theorem length_le_of_dropWhile {p : Byte → Bool} {c x : Byte} {rest rest' : Bytes}
    (h : (c :: rest).dropWhile p = x :: rest') : rest'.length ≤ rest.length := by
  rcases (of_dropWhile_eq h).2 with hlt | ⟨-, rfl⟩
  · exact hlt.le
  · exact le_rfl

/-- `parts.append(part)`, before what follows. -/
def prepend (part : Bytes) (r : Except Error (Bytes × Lexical)) :
    Except Error (Bytes × Lexical) := do
  let (out, s) ← r
  return (part ++ out, s)

/-- The loop of `feed`: what it adds to `parts`, and the fields after it. -/
def feedLoop (s : Lexical) (data : Bytes) : Except Error (Bytes × Lexical) :=
  match data with
  | [] => .ok ([], s)
  | c :: rest =>
    match _hmode : s.mode with
    | some .string =>
      if s.escaped then do
        let s ← s.admitBytes 1
        prepend [c] (feedLoop { s with escaped := false } rest)
      else
        let plain := (c :: rest).takeWhile fun c => ! isSpecial c
        match _hfound : (c :: rest).dropWhile fun c => ! isSpecial c with
        | [] => do
          let s ← s.admitBytes plain.length
          return (plain, s)
        | found :: rest' => do
          let s ← s.admitBytes (plain.length + 1)
          let s := if found = 92 then { s with escaped := true } else { s with mode := none }
          prepend (plain ++ [found]) (feedLoop s rest')
    | some .literal => do
      let part := (c :: rest).takeWhile fun c => ! isDelimiter c
      let s ← s.admitBytes part.length
      let s := { s with literal := s.literal ++ part }
      match _hfound : (c :: rest).dropWhile fun c => ! isDelimiter c with
      | [] => return ([], s)
      | found :: rest' =>
        prepend s.finishLiteral.1 (feedLoop s.finishLiteral.2 (found :: rest'))
    | none => do
      let separators := (c :: rest).takeWhile isSeparator
      let s ← s.separate separators
      match _hfound : (c :: rest).dropWhile isSeparator with
      | [] => return (separators, s)
      | first :: rest' =>
        let s := { s with token := s.token + 1, size := 0 }
        if first = 34 then do
          let s ← { s with mode := some .string }.admitBytes 1
          prepend (separators ++ [first]) (feedLoop s rest')
        else prepend separators (feedLoop { s with mode := some .literal } (first :: rest'))
termination_by 3 * data.length + s.rank data
decreasing_by
  · refine Nat.lt_of_le_of_lt (Nat.add_le_add_left (rank_le _ rest) _) ?_
    rw [length_cons]
    omega
  · have hlength := length_le_of_dropWhile _hfound
    refine Nat.lt_of_le_of_lt (Nat.add_le_add_left (rank_le _ rest') _) ?_
    rw [length_cons]
    omega
  · have hrank {s : Lexical} : rank s.finishLiteral.2 (found :: rest') = 1 := by
      rw [rank, mode_finishLiteral]
    obtain ⟨hdelimiter, hlength⟩ := of_dropWhile_eq _hfound
    rw [hrank, length_cons, length_cons]
    rcases hlength with hlength | ⟨rfl, rfl⟩
    · omega
    · have hdelimiter : isDelimiter found := by simpa using hdelimiter
      simp only [rank, _hmode, head?_cons, Option.any_some, hdelimiter, if_true]
      omega
  · have hlength := length_le_of_dropWhile _hfound
    refine Nat.lt_of_le_of_lt (Nat.add_le_add_left (rank_le _ rest') _) ?_
    rw [length_cons]
    omega
  · obtain ⟨hseparator, -⟩ := of_dropWhile_eq _hfound
    have hlength := length_le_of_dropWhile _hfound
    have hfirst : first ≠ 34 := by assumption
    have hdelimiter : isDelimiter first = false := by simp [isDelimiter, hseparator, hfirst]
    simp only [rank, _hmode, head?_cons, Option.any_some, hdelimiter, Bool.false_eq_true,
      if_false, length_cons]
    omega

def feed (s : Lexical) (data : Bytes) (final : Bool) : Except Error (Bytes × Lexical) := do
  let (out, s) ← s.feedLoop data
  if final ∧ s.mode = some .literal then return (out ++ s.finishLiteral.1, s.finishLiteral.2)
  else return (out, s)

/-- Feeds, of which the last is final, and what they put out. -/
def run (s : Lexical) : List Bytes → Except Error (Bytes × Lexical)
  | [] => .ok ([], s)
  | [data] => s.feed data true
  | data :: chunks => do
    let (out, s) ← s.feed data false
    prepend out (s.run chunks)

end Lexical

/-! ## admission -/

/-- A record of `stack`. -/
structure Opened (κ : Type) where
  byte : Byte
  start : Nat
  seen : Option (List κ)

/-- The start of the first match of `_MATERIAL_MARKER`; `before` is the byte before. -/
def findMarker : Option Byte → Bytes → Option Nat
  | _, [] => none
  | before, c :: rest =>
    if c = 34 ∨ isOpening c ∨ isClosing c then some 0
    else if before.all isDelimiter ∧
        literalBytes < ((c :: rest).takeWhile fun c => ! isDelimiter c).length then some 0
    else (findMarker (some c) rest).map (· + 1)

def backslashes (bs : Bytes) : Nat := (bs.reverse.takeWhile (· = 92)).length

/-- The place of the quote that ends a string, from a place in its body on. -/
def closing (body : Bytes) (place : Nat) : Option Nat :=
  match _hfound : (body.drop place).findIdx? (· = 34) with
  | none => none
  | some k =>
    if backslashes (body.take (place + k)) % 2 = 0 then some (place + k)
    else closing body (place + k + 1)
termination_by body.length - place
decreasing_by
  obtain ⟨hlt, -⟩ := findIdx?_eq_some_iff_getElem.mp _hfound
  rw [length_drop] at hlt
  omega

/-- `raw.find(b'\\u') >= 0`. -/
def hasUnicodeEscape : Bytes → Bool
  | a :: b :: rest => (a = 92 && b = 117) || hasUnicodeEscape (b :: rest)
  | _ => false

def isWhite (c : Byte) : Bool := c = 32 || c = 9 || c = 13 || c = 10

variable {κ : Type} [DecidableEq κ] (check : Nat → Except Error Unit)
  (loads : Bytes → Except Error κ)

def noteName (stack : List (Opened κ)) (name after : Bytes) : Except Error (List (Opened κ)) :=
  match stack with
  | [] => .ok []
  | top :: below =>
    match top.seen with
    | none => .ok (top :: below)
    | some seen =>
      if (after.dropWhile isWhite).head? = some 58 then do
        let key ← loads name
        if key ∈ seen then .error .value
        else .ok ({ top with seen := some (key :: seen) } :: below)
      else .ok (top :: below)

/-- The loop of `_material_admitted` from `position` on, where `rest` is. -/
def materialLoop (stack : List (Opened κ)) (position nextCheck : Nat) (before : Option Byte)
    (rest : Bytes) : Except Error Bool := do
  match findMarker before rest with
  | none =>
    check (position + rest.length)
    return stack.isEmpty
  | some k =>
    let start := position + k
    match _hrest : rest.drop k with
    | [] => return false
    | byte :: tail =>
      if nextCheck ≤ start then check start
      let nextCheck := if nextCheck ≤ start then start + chunkBytes else nextCheck
      if byte = 34 then
        match closing tail 0 with
        | none => return false
        | some e =>
          if tokenBytes < e + 2 then throw .tokenBudget
          if hasUnicodeEscape (34 :: tail.take e) then return false
          let after := tail.drop (e + 1)
          let stack ← noteName loads stack (34 :: tail.take (e + 1)) after
          materialLoop stack (start + e + 2) nextCheck (some 34) after
      else if isOpening byte then
        let seen := if byte = 123 ∧ stack.length < 2 then some [] else none
        let stack := ⟨byte, start, seen⟩ :: stack
        if maxDepth < stack.length then throw .depthBudget
        materialLoop stack (start + 1) nextCheck (some byte) tail
      else if isClosing byte then
        match stack with
        | [] => return false
        | top :: below =>
          if top.byte ≠ (if byte = 125 then 123 else 91) then return false
          if stack.length = 3 ∧ recordBytes < (start - top.start + 1) * 96 then return false
          materialLoop below (start + 1) nextCheck (some byte) tail
      else throw .tokenBudget
termination_by rest.length
decreasing_by
  all_goals
    have := congrArg List.length _hrest
    simp only [length_drop, length_cons] at *
    omega

def materialAdmitted (raw : Bytes) : Except Error Bool :=
  if [0xef, 0xbb, 0xbf] <+: raw then .ok false else materialLoop check loads [] 0 0 none raw

end Codexon.JsonLexical
