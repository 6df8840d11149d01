import Codexon.Number
import Mathlib.Data.List.Sort
import Mathlib.Data.Nat.Digits.Defs
import Mathlib.Data.List.Lex

/-!
# Codexon.Json

The values `json.loads` produces: Python strings as lists of code points
(surrogates included), integers apart from floats, lists, and dictionaries as
member lists in insertion order.  Dictionary equality ignores that order
(`Json.beq`); everything else about a value is its structure.
-/

namespace Codexon

/-- A Unicode code point, surrogates included, as in a Python `str`. -/
abbrev CodePoint := Fin 0x110000

/-- A Python `str`. -/
abbrev PyStr := List CodePoint

instance neZeroCodePoints : NeZero 0x110000 := ⟨by decide⟩

instance lawfulPyStr : LawfulBEq PyStr := inferInstance

instance lawfulPair : LawfulBEq (PyStr × PyStr) := inferInstance

theorem nodup_nil_pairs : ([] : List (PyStr × PyStr)).Nodup := List.nodup_nil

/-- A string literal as a Python `str`. -/
def py (s : String) : PyStr := s.toList.map fun c => Fin.ofNat 0x110000 c.toNat

instance : Coe String PyStr := ⟨py⟩

/-- A JSON document as Python holds it. -/
inductive Json where
  | null
  | bool (b : Bool)
  | int (n : Int)
  | float (x : PyFloat)
  | str (s : PyStr)
  | arr (xs : List Json)
  | obj (members : List (PyStr × Json))
deriving Repr

namespace Json

/-! ## decidable equality -/

mutual
/-- Structural equality test. -/
def beq : Json → Json → Bool
  | .null, .null => true
  | .bool a, .bool b => a = b
  | .int a, .int b => a = b
  | .float a, .float b => a = b
  | .str a, .str b => a = b
  | .arr a, .arr b => beqElems a b
  | .obj a, .obj b => beqMembers a b
  | _, _ => false

def beqElems : List Json → List Json → Bool
  | [], [] => true
  | x :: xs, y :: ys => beq x y && beqElems xs ys
  | _, _ => false

def beqMembers : List (PyStr × Json) → List (PyStr × Json) → Bool
  | [], [] => true
  | (k, x) :: xs, (l, y) :: ys => k = l && beq x y && beqMembers xs ys
  | _, _ => false
end

mutual
theorem beq_iff : (a b : Json) → (beq a b = true ↔ a = b)
  | .null, b => by cases b <;> simp [beq]
  | .bool _, b => by cases b <;> simp [beq]
  | .int _, b => by cases b <;> simp [beq]
  | .float _, b => by cases b <;> simp [beq]
  | .str _, b => by cases b <;> simp [beq]
  | .arr xs, b => by
    cases b with
    | arr ys => simp [beq, beqElems_iff xs ys]
    | _ => simp [beq]
  | .obj xs, b => by
    cases b with
    | obj ys => simp [beq, beqMembers_iff xs ys]
    | _ => simp [beq]

theorem beqElems_iff : (a b : List Json) → (beqElems a b = true ↔ a = b)
  | [], b => by cases b <;> simp [beqElems]
  | x :: xs, b => by
    cases b with
    | nil => simp [beqElems]
    | cons y ys => simp [beqElems, beq_iff x y, beqElems_iff xs ys]

theorem beqMembers_iff : (a b : List (PyStr × Json)) → (beqMembers a b = true ↔ a = b)
  | [], b => by cases b <;> simp [beqMembers]
  | (k, x) :: xs, b => by
    cases b with
    | nil => simp [beqMembers]
    | cons m ys =>
      obtain ⟨l, y⟩ := m
      simp [beqMembers, beq_iff x y, beqMembers_iff xs ys]
end

instance : DecidableEq Json := fun a b => decidable_of_iff _ (beq_iff a b)

/-! ## dictionaries -/

/-- `members.get(key)`: the value of the first member of that key.  In a
dictionary keys are unique. -/
def lookup (members : List (PyStr × Json)) (key : PyStr) : Option Json :=
  (members.find? (·.1 = key)).map (·.2)

/-- `members[key] = value`: an existing key keeps its place. -/
def assign (members : List (PyStr × Json)) (key : PyStr) (value : Json) :
    List (PyStr × Json) :=
  if members.any (·.1 = key) then
    members.map fun m => if m.1 = key then (key, value) else m
  else members ++ [(key, value)]

/-- `value.get(key)` on a dictionary; any other value has no `get`. -/
def get : Json → PyStr → Except PyError (Option Json)
  | .obj members, key => .ok (lookup members key)
  | _, _ => .error .attributeError

def truthy : Json → Bool
  | .null => false
  | .bool b => b
  | .int n => n ≠ 0
  | .float x => x ≠ .negZero && x ≠ 0
  | .str s => !s.isEmpty
  | .arr xs => !xs.isEmpty
  | .obj members => !members.isEmpty

/-- `value.get(key, default)`. -/
def getD (v : Json) (key : PyStr) (default : Json) : Except PyError Json :=
  (v.get key).map (·.getD default)

/-- `value.get(key)`, where a missing key is `None`. -/
def getNone (v : Json) (key : PyStr) : Except PyError Json := v.getD key .null

/-- `value or default`. -/
def orElse (v default : Json) : Json := if v.truthy then v else default

/-- `isinstance(value, dict)`. -/
def isDict : Json → Bool
  | .obj _ => true
  | _ => false

/-! ## equality of values -/

def sortMembers (members : List (PyStr × Json)) : List (PyStr × Json) :=
  members.insertionSort fun a b => a.1 ≤ b.1

mutual
/-- The representative of a value up to Python's `==`: booleans and integral
floats are integers, and the order of a dictionary is forgotten.  `json.loads`
makes one NaN object, so containers find a NaN equal to itself. -/
def canon : Json → Json
  | .null => .null
  | .bool b => .int (if b then 1 else 0)
  | .int n => .int n
  | .float .negZero => .int 0
  | .float (.finite q) => if q.den = 1 then .int q.num else .float (.finite q)
  | .float x => .float x
  | .str s => .str s
  | .arr xs => .arr (canonElems xs)
  | .obj members => .obj (sortMembers (canonMembers members))

def canonElems : List Json → List Json
  | [] => []
  | x :: xs => canon x :: canonElems xs

def canonMembers : List (PyStr × Json) → List (PyStr × Json)
  | [] => []
  | (k, x) :: xs => (k, canon x) :: canonMembers xs
end

/-- A value as the key of a dictionary or set; lists and dictionaries are not
hashable. -/
def hashed : Json → Except PyError Json
  | .arr _ | .obj _ => .error .typeError
  | v => .ok v.canon

end Json

/-!
## bytes

Bytes, and UTF-8 as Python encodes and decodes it with `surrogatepass`, which
`json.loads` uses: surrogates are encoded like the other characters of their
length.
-/

abbrev Byte := Fin 256

abbrev Bytes := List Byte

instance neZeroBytes : NeZero 256 := ⟨by decide⟩

instance lawfulBytes : LawfulBEq Bytes := inferInstance

def ascii (s : String) : Bytes := s.toList.map fun c => Fin.ofNat 256 c.toNat

theorem length_of_dropWhile {p : Byte → Bool} {xs ys : Bytes} {c : Byte}
    (h : xs.dropWhile p = c :: ys) : ys.length < xs.length := by
  have hle := (List.dropWhile_suffix (l := xs) p).length_le
  rw [h, List.length_cons] at hle
  omega

/-!
## json.dumps

`json.dumps` with `ensure_ascii=True`: the text of a document, with the
separators as parameters.  Strings escape everything outside the printable
ASCII range, characters above the basic plane as a surrogate pair; floats are
printed by `float.__repr__`.

`float.__repr__` is the shortest decimal that reads back as the same double
and, among those, the closest.  `floatRepr` searches it: for each number of
digits up to 17 it tries the two neighbouring decimals, the nearer one first,
and keeps the first text that `parseFloat` reads back.  Seventeen digits
identify every double, so the search fails only on rationals that are none.
-/

namespace Json

/-! ## digits -/

def digit (d : Nat) : CodePoint := Fin.ofNat 0x110000 (48 + d)

def isDigit (c : CodePoint) : Bool := 48 ≤ c.val && c.val ≤ 57

/-- Decimal digits of a natural number, most significant first. -/
def natRepr (n : Nat) : PyStr :=
  if n = 0 then [digit 0] else ((Nat.digits 10 n).map digit).reverse

def intRepr : Int → PyStr
  | .ofNat n => natRepr n
  | .negSucc n => py "-" ++ natRepr (n + 1)

def ofDigits (ds : PyStr) : Nat := ds.foldl (fun acc c => 10 * acc + (c.val - 48)) 0

/-! ## numbers as JSON writes them -/

/-- The three parts of a JSON number: `(-?(?:0|[1-9]\d*))(\.\d+)?([eE][-+]?\d+)?`. -/
structure NumberText where
  neg : Bool
  integer : PyStr
  frac : Option PyStr
  exp : Option (Bool × PyStr)
deriving DecidableEq, Repr

/-- Skip `integer`: a zero, or a digit string without leading zero. -/
def scanInteger : PyStr → Option (PyStr × PyStr)
  | [] => none
  | c :: s =>
    if c = digit 0 then some ([c], s)
    else if isDigit c then some (c :: s.takeWhile isDigit, s.dropWhile isDigit)
    else none

def scanFrac : PyStr → Option PyStr × PyStr
  | [] => (none, [])
  | c :: s =>
    if c = 46 ∧ (s.takeWhile isDigit) ≠ [] then
      (some (s.takeWhile isDigit), s.dropWhile isDigit)
    else (none, c :: s)

def scanSign : PyStr → Bool × PyStr
  | [] => (false, [])
  | c :: s => if c = 45 then (true, s) else if c = 43 then (false, s) else (false, c :: s)

/-- Skip an exponent, if its letter is followed by a sign and a digit. -/
def scanExp : PyStr → Option (Bool × PyStr) × PyStr
  | [] => (none, [])
  | c :: s =>
    if (c = 101 ∨ c = 69) ∧ ((scanSign s).2.takeWhile isDigit) ≠ [] then
      (some ((scanSign s).1, (scanSign s).2.takeWhile isDigit), (scanSign s).2.dropWhile isDigit)
    else (none, c :: s)

def scanNumber (s : PyStr) : Option (NumberText × PyStr) :=
  let neg := s.head? = some 45
  match scanInteger (if neg then s.tail else s) with
  | none => none
  | some (integer, s) =>
    let (frac, s) := scanFrac s
    let (exp, s) := scanExp s
    some (⟨neg, integer, frac, exp⟩, s)

/-- `int(text)` without fraction and exponent, else `float(text)`: the nearest
double of the decimal. -/
def NumberText.value (t : NumberText) : Json :=
  match t.frac, t.exp with
  | none, none =>
    .int (if t.neg then -(ofDigits t.integer : Int) else ofDigits t.integer)
  | frac, exp =>
    let digits := frac.getD []
    let power : Int := match exp with
      | none => 0
      | some (true, ds) => -(ofDigits ds : Int)
      | some (false, ds) => ofDigits ds
    .float (PyFloat.roundDouble t.neg
      (ofDigits (t.integer ++ digits) * 10 ^ (power - digits.length)))

def parseNumber (s : PyStr) : Option Json :=
  match scanNumber s with
  | some (t, []) => some t.value
  | _ => none

/-! ## `float.__repr__` -/

/-- Write the decimal `0.d₁d₂… × 10 ^ decpt` the way `repr` does: positional
between `1e-4` and `1e16`, scientific outside. -/
def formatDecimal (neg : Bool) (ds : PyStr) (decpt : Int) : PyStr :=
  let sign := if neg then py "-" else []
  let zeros (n : Nat) : PyStr := List.replicate n (digit 0)
  if decpt ≤ -4 ∨ 16 < decpt then
    let e := decpt - 1
    let mantissa := ds.take 1 ++ (if ds.length = 1 then [] else py "." ++ ds.drop 1)
    let expDigits := (if e.natAbs < 10 then zeros 1 else []) ++ natRepr e.natAbs
    sign ++ mantissa ++ py "e" ++ (if e < 0 then py "-" else py "+") ++ expDigits
  else if decpt ≤ 0 then sign ++ py "0." ++ zeros (-decpt).toNat ++ ds
  else if (ds.length : Int) ≤ decpt then
    sign ++ ds ++ zeros (decpt.toNat - ds.length) ++ py ".0"
  else sign ++ ds.take decpt.toNat ++ py "." ++ ds.drop decpt.toNat

def stripZeros (ds : PyStr) : PyStr := (ds.reverse.dropWhile (· = digit 0)).reverse

/-- The texts of the two `n`-digit decimals around `a > 0`, the nearer first. -/
def decimalsAround (neg : Bool) (a : ℚ) (n : Nat) : List PyStr :=
  let decpt := Int.log 10 a + 1
  let scaled := a * 10 ^ ((n : Int) - decpt)
  let near := PyFloat.roundHalfEven scaled
  let far := if (near : ℚ) ≤ scaled then near + 1 else near - 1
  [near, far].filterMap fun m =>
    if 0 < m then
      let ds := natRepr m.toNat
      some (formatDecimal neg (stripZeros ds) (decpt + (ds.length - n)))
    else none

/-- `float.__repr__`, and JSON's names for the values that have no decimal. -/
def floatRepr : PyFloat → Option PyStr
  | .nan => some (py "NaN")
  | .inf false => some (py "Infinity")
  | .inf true => some (py "-Infinity")
  | .negZero => some (py "-0.0")
  | .finite q =>
    if q = 0 then some (py "0.0")
    else ((List.range 17).flatMap fun n => decimalsAround (q < 0) |q| (n + 1)).find?
      fun text => parseNumber text = some (.float (.finite q))

/-! ## strings -/

def hexDigit (d : Nat) : CodePoint := Fin.ofNat 0x110000 (if d < 10 then 48 + d else 87 + d)

/-- `\uXXXX` of a 16-bit unit. -/
def escapeUnit (u : Nat) : PyStr :=
  py "\\u" ++ [hexDigit (u / 4096 % 16), hexDigit (u / 256 % 16), hexDigit (u / 16 % 16),
    hexDigit (u % 16)]

/-- One character as `ensure_ascii` writes it. -/
def escapeChar (c : CodePoint) : PyStr :=
  if c = 0x22 then py "\\\""
  else if c = 0x5c then py "\\\\"
  else if c = 0x0a then py "\\n"
  else if c = 0x0d then py "\\r"
  else if c = 0x09 then py "\\t"
  else if c = 0x0c then py "\\f"
  else if c = 0x08 then py "\\b"
  else if 0x20 ≤ c.val ∧ c.val ≤ 0x7e then [c]
  else if c.val < 0x10000 then escapeUnit c.val
  else escapeUnit (0xd800 + (c.val - 0x10000) / 0x400) ++
    escapeUnit (0xdc00 + (c.val - 0x10000) % 0x400)

def quote (s : PyStr) : PyStr := py "\"" ++ s.flatMap escapeChar ++ py "\""

/-! ## documents -/

/-- The separators of `json.dumps`, `(item, key)`. -/
structure Separators where
  item : PyStr
  key : PyStr

/-- `separators=(',', ':')`. -/
def compact : Separators := ⟨py ",", py ":"⟩

def spaced : Separators := ⟨py ", ", py ": "⟩

mutual
/-- `json.dumps(value, separators=…, ensure_ascii=True)`. -/
def dumps (sep : Separators) : Json → Option PyStr
  | .null => some (py "null")
  | .bool true => some (py "true")
  | .bool false => some (py "false")
  | .int n => some (intRepr n)
  | .float x => floatRepr x
  | .str s => some (quote s)
  | .arr xs => (dumpsElems sep xs).map fun t => py "[" ++ t ++ py "]"
  | .obj members => (dumpsMembers sep members).map fun t => py "\x7b" ++ t ++ py "\x7d"

def dumpsElems (sep : Separators) : List Json → Option PyStr
  | [] => some []
  | [x] => dumps sep x
  | x :: y :: xs => do
    let t ← dumps sep x
    let ts ← dumpsElems sep (y :: xs)
    return t ++ sep.item ++ ts

def dumpsMembers (sep : Separators) : List (PyStr × Json) → Option PyStr
  | [] => some []
  | [(k, x)] => do
    let t ← dumps sep x
    return quote k ++ sep.key ++ t
  | (k, x) :: y :: xs => do
    let t ← dumps sep x
    let ts ← dumpsMembers sep (y :: xs)
    return quote k ++ sep.key ++ t ++ sep.item ++ ts
end

end Json

end Codexon
