import Mathlib.Tactic.Common

/-!
# Codexon.Regex

Regular expressions that are matched by backtracking, as `re` matches them.

`ways` lists the ends of all matches from a point in the order in which backtracking tries them, so
that the first is the one that is taken.
-/

namespace Codexon

/-- A regular expression; `word` decides what a boundary is. -/
inductive Regex (α : Type) where
  | empty
  | one (p : α → Bool)
  | seq (a b : Regex α)
  | alt (a b : Regex α)
  | star (greedy : Bool) (a : Regex α)
  | group (n : Nat) (a : Regex α)
  | look (a : Regex α)
  | boundary (word : α → Bool)
  | ending (newline : α → Bool)

namespace Regex

variable {α : Type}

/-- A place in a text: what is before it, backwards, what is after it, and the groups so far. -/
structure Point (α : Type) where
  before : List α := []
  after : List α
  groups : List (Nat × List α) := []

def Point.upTo (s t : Point α) : List α :=
  (t.before.take (t.before.length - s.before.length)).reverse

def Point.next (s : Point α) (c : α) (rest : List α) : Point α :=
  { s with before := c :: s.before, after := rest }

/-- `\b`: a word character on one side only. -/
def Point.isBoundary (word : α → Bool) (s : Point α) : Bool :=
  s.before.head?.any word != s.after.head?.any word

/-- `$`: the end, or a newline at the end. -/
def Point.isEnding (newline : α → Bool) (s : Point α) : Bool :=
  match s.after with
  | [] => true
  | [c] => newline c
  | _ => false

def repeated (greedy : Bool) (step : Point α → List (Point α)) : Nat → Point α → List (Point α)
  | 0, s => [s]
  | fuel + 1, s =>
    let more := ((step s).filter fun t => t.after.length < s.after.length).flatMap
      (repeated greedy step fuel)
    if greedy then more ++ [s] else s :: more

/-- The ends of the matches from a point, in the order of backtracking. -/
def ways : Regex α → Point α → List (Point α)
  | empty, s => [s]
  | one p, s =>
    match s.after with
    | c :: rest => if p c then [s.next c rest] else []
    | [] => []
  | seq a b, s => (a.ways s).flatMap b.ways
  | alt a b, s => a.ways s ++ b.ways s
  | star greedy a, s => repeated greedy a.ways s.after.length s
  | group n a, s => (a.ways s).map fun t => { t with groups := (n, s.upTo t) :: t.groups }
  | look a, s => if (a.ways s).isEmpty then [] else [s]
  | boundary word, s => if s.isBoundary word then [s] else []
  | ending newline, s => if s.isEnding newline then [s] else []

def matchAt (r : Regex α) (s : Point α) : Option (Point α) := (r.ways s).head?

/-- `m[n]` -/
def Point.group (s : Point α) (n : Nat) : Option (List α) :=
  (s.groups.find? (·.1 = n)).map Prod.snd

/-- A match from one point to another. -/
structure Match (α : Type) where
  start : Point α
  stop : Point α

/--
The text from a point, as the characters that are left alone and the matches, from left to right;
a match reads something.
-/
def tokens (r : Regex α) : Nat → Point α → List (α ⊕ Match α)
  | 0, s => s.after.map .inl
  | fuel + 1, s =>
    match s.after with
    | [] => []
    | c :: rest =>
      match r.matchAt s with
      | some t => .inr ⟨s, t⟩ :: tokens r fuel { t with groups := [] }
      | none => .inl c :: tokens r fuel (s.next c rest)

/-- `finditer` for an expression that matches no empty text. -/
def finditer (r : Regex α) (text : List α) : List (Match α) :=
  (tokens r text.length { after := text }).filterMap Sum.getRight?

/-- `search` for an expression that matches no empty text. -/
def search (r : Regex α) (text : List α) : Option (Match α) := (r.finditer text).head?

/-! ## building -/

/-- A text. -/
def lit [DecidableEq α] : List α → Regex α
  | [] => empty
  | c :: rest => seq (one (· = c)) (lit rest)

/-- One or more. -/
def plus (p : α → Bool) : Regex α := seq (one p) (star true (one p))

/-- Some or none. -/
def many (p : α → Bool) : Regex α := star true (one p)

/-- At most one. -/
def opt (a : Regex α) : Regex α := alt a empty

/-- One after the other. -/
def all : List (Regex α) → Regex α
  | [] => empty
  | [r] => r
  | r :: rest => seq r (all rest)

/-! ## matching -/

variable {rest : List α} {s : Point α}

theorem ways_one {p : α → Bool} {c : α} (h : s.after = c :: rest)
    (hp : p c) : (one p).ways s = [s.next c rest] := by
  simp [ways, h, hp]

theorem repeated_chain {step : Point α → List (Point α)} {fuel : Nat} {t : Point α}
    (hstep : step s = [t]) (hlt : t.after.length < s.after.length) :
    (repeated true step (fuel + 1) s).head? = (repeated true step fuel t).head? := by
  have hne : repeated true step fuel t ≠ [] := by
    cases fuel with
    | zero => simp [repeated]
    | succ fuel => simp [repeated]
  obtain ⟨first, others, hcons⟩ := List.exists_cons_of_ne_nil hne
  simp [repeated, hstep, hlt, hcons]

theorem repeated_stop {step : Point α → List (Point α)} {fuel : Nat}
    (hstep : step s = []) : repeated true step fuel s = [s] := by
  cases fuel with
  | zero => rfl
  | succ fuel => simp [repeated, hstep]

theorem matchAt_seq_of_head {a b : Regex α} {t u : Point α} (ha : (a.ways s).head? = some t)
    (hb : (b.ways t).head? = some u) : (seq a b).matchAt s = some u := by
  unfold matchAt ways
  cases hways : a.ways s with
  | nil => simp [hways] at ha
  | cons first others =>
    obtain rfl : first = t := by simpa [hways] using ha
    rw [List.flatMap_cons, List.head?_append, hb]
    rfl

theorem matchAt_seq_one {p : α → Bool} {b : Regex α} {c : α}
    (h : s.after = c :: rest) :
    (seq (one p) b).matchAt s = if p c then b.matchAt (s.next c rest) else none := by
  by_cases hp : p c
  · simp [matchAt, ways, h, hp]
  · simp [matchAt, ways, h, hp]

/-! ## tokens -/

theorem tokens_skip {r : Regex α} {fuel : Nat} {c : α}
    (h : s.after = c :: rest) (hnone : r.matchAt s = none) :
    tokens r (fuel + 1) s = .inl c :: tokens r fuel (s.next c rest) := by
  simp [tokens, h, hnone]

theorem tokens_match {r : Regex α} {fuel : Nat} {t : Point α} {c : α}
    (h : s.after = c :: rest) (hsome : r.matchAt s = some t) :
    tokens r (fuel + 1) s = .inr ⟨s, t⟩ :: tokens r fuel { t with groups := [] } := by
  simp [tokens, h, hsome]

end Regex

end Codexon
