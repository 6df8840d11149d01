import Codexon.JsonLexical.Chunks

/-!
# Codexon.JsonLexical.Grammar

The texts of JSON with `NaN`, `Infinity` and `-Infinity`, and what they become.
-/

namespace Codexon

namespace JsonLexical

/-! ## tokens -/

def isDigit (c : Byte) : Bool := 48 ≤ c && c ≤ 57

def isHex (c : Byte) : Bool := isDigit c || (65 ≤ c && c ≤ 70) || (97 ≤ c && c ≤ 102)

/-- A number of JSON. -/
structure NumberText where
  minus : Bool
  int : Bytes
  frac : Option Bytes
  exp : Option (Byte × Option Byte × Bytes)
  int_digits : int ≠ [] ∧ ∀ c ∈ int, isDigit c
  int_zero : int = [48] ∨ int.head? ≠ some 48
  frac_digits : ∀ ds ∈ frac, ds ≠ [] ∧ ∀ c ∈ ds, isDigit c
  exp_digits : ∀ e ∈ exp, (e.1 = 101 ∨ e.1 = 69) ∧ (∀ c ∈ e.2.1, c = 43 ∨ c = 45) ∧
    e.2.2 ≠ [] ∧ ∀ c ∈ e.2.2, isDigit c

def NumberText.text (n : NumberText) : Bytes :=
  (if n.minus then [45] else []) ++ n.int ++ (n.frac.map fun ds => 46 :: ds).getD [] ++
    (n.exp.map fun e => e.1 :: (e.2.1.toList ++ e.2.2)).getD []

inductive Word where
  | true
  | false
  | null

def Word.text : Word → Bytes
  | true => ascii "true"
  | false => ascii "false"
  | null => ascii "null"

inductive Literal where
  | word (w : Word)
  | number (n : NumberText)
  | nonfinite (n : Nonfinite)

def Literal.text : Literal → Bytes
  | word w => w.text
  | number n => n.text
  | nonfinite n => n.text

def Literal.replaced : Literal → Bytes
  | nonfinite _ => ascii "null"
  | l => l.text

/-- A part of a string. -/
inductive Piece where
  | plain (c : Byte) (h : 32 ≤ c ∧ isSpecial c = false)
  | escape (c : Byte) (h : c ∈ ascii "\"\\/bfnrt")
  | unicode (a b c d : Byte) (h : isHex a ∧ isHex b ∧ isHex c ∧ isHex d)

def Piece.text : Piece → Bytes
  | plain c _ => [c]
  | escape c _ => [92, c]
  | unicode a b c d _ => [92, 117, a, b, c, d]

def quoted (pieces : List Piece) : Bytes := 34 :: (pieces.flatMap Piece.text ++ [34])

abbrev Spaces := { bs : Bytes // ∀ c ∈ bs, isWhite c }

/-! ## values -/

mutual

inductive Value where
  | literal (l : Literal)
  | string (pieces : List Piece)
  | emptyArray (spaces : Spaces)
  | array (elements : Elements)
  | emptyObject (spaces : Spaces)
  | object (members : Members)

inductive Elements where
  | one (before : Spaces) (v : Value) (after : Spaces)
  | more (before : Spaces) (v : Value) (after : Spaces) (rest : Elements)

inductive Members where
  | one (before : Spaces) (name : List Piece) (after : Spaces) (before' : Spaces) (v : Value)
      (after' : Spaces)
  | more (before : Spaces) (name : List Piece) (after : Spaces) (before' : Spaces) (v : Value)
      (after' : Spaces) (rest : Members)

end

mutual

/-- The text of a value, with each literal written by `f`. -/
def Value.render (f : Literal → Bytes) : Value → Bytes
  | .literal l => f l
  | .string pieces => quoted pieces
  | .emptyArray spaces => 91 :: (spaces.val ++ [93])
  | .array elements => 91 :: (elements.render f ++ [93])
  | .emptyObject spaces => 123 :: (spaces.val ++ [125])
  | .object members => 123 :: (members.render f ++ [125])

def Elements.render (f : Literal → Bytes) : Elements → Bytes
  | .one before v after => before.val ++ (v.render f ++ after.val)
  | .more before v after rest => before.val ++ (v.render f ++ (after.val ++ 44 :: rest.render f))

def Members.render (f : Literal → Bytes) : Members → Bytes
  | .one before name after before' v after' => before.val ++ (quoted name ++
      (after.val ++ 58 :: (before'.val ++ (v.render f ++ after'.val))))
  | .more before name after before' v after' rest => before.val ++ (quoted name ++
      (after.val ++ 58 :: (before'.val ++ (v.render f ++ (after'.val ++ 44 :: rest.render f)))))

end

mutual

/-- The limits on depth, on strings with their quotes, and on literals, inside of `depth`
brackets. -/
def Value.Fits (depth : Nat) : Value → Prop
  | .literal l => l.text.length ≤ literalBytes
  | .string pieces => (quoted pieces).length ≤ tokenBytes
  | .emptyArray _ => depth < maxDepth
  | .array elements => depth < maxDepth ∧ elements.Fits (depth + 1)
  | .emptyObject _ => depth < maxDepth
  | .object members => depth < maxDepth ∧ members.Fits (depth + 1)

def Elements.Fits (depth : Nat) : Elements → Prop
  | .one _ v _ => v.Fits depth
  | .more _ v _ rest => v.Fits depth ∧ rest.Fits depth

def Members.Fits (depth : Nat) : Members → Prop
  | .one _ name _ _ v _ => (quoted name).length ≤ tokenBytes ∧ v.Fits depth
  | .more _ name _ _ v _ rest => (quoted name).length ≤ tokenBytes ∧ v.Fits depth ∧ rest.Fits depth

end

/-- A text of JSON, or of JSON with the three numbers that it lacks. -/
structure Document where
  before : Spaces
  value : Value
  after : Spaces

def Document.text (doc : Document) : Bytes :=
  doc.before.val ++ (doc.value.render Literal.text ++ doc.after.val)

/-- The text with `null` for the numbers that JSON lacks. -/
def Document.replaced (doc : Document) : Bytes :=
  doc.before.val ++ (doc.value.render Literal.replaced ++ doc.after.val)

end JsonLexical

end Codexon
