import Codexon.ResponseStream

/-!
# Codexon.ResponseStream.Framing

What the framer delivers, against the text of the stream.

`Reading` cuts a stream into lines; it also sees where a piece ends without a
byte, and marks a line whose CR and LF stand around such an empty piece.
`payloads` joins the data lines of each event.  A framer over the `recorder`
selector keeps the payloads it delivers, so a byte at a time it follows the
reading (`At`), apart from the marked lines: there it ends an event early.
-/

namespace Codexon

open List

/-! ## the text of a stream -/

/-- The pieces as a list of bytes, an empty piece as `none`. -/
def marks (pieces : List Bytes) : List (Option Byte) :=
  pieces.flatMap fun piece => if piece = [] then [none] else piece.map some

/-- How the last line ended: for good, with a CR that an LF may follow, or with
a CR that an empty piece followed. -/
inductive Ending where
  | closed
  | cr
  | torn
deriving DecidableEq, Repr

/-- The lines read, the last one first, and the unfinished line.  A line is
marked when an empty piece stands between the CR and the LF that end it. -/
structure Reading where
  lines : List (Bytes × Bool) := []
  line : Bytes := []
  ending : Ending := .closed
deriving DecidableEq, Repr

namespace Reading

def step (r : Reading) : Option Byte → Reading
  | none => { r with ending := if r.ending = .cr then .torn else r.ending }
  | some c =>
    if c = lineFeed ∧ r.ending = .cr then { r with ending := .closed }
    else if c = lineFeed ∧ r.ending = .torn then
      { r with
        lines := match r.lines with
          | (line, _) :: lines => (line, true) :: lines
          | [] => []
        ending := .closed }
    else if endsLine c then
      { lines := (r.line, false) :: r.lines, ending := if c = carriageReturn then .cr else .closed }
    else { r with line := r.line ++ [c], ending := .closed }

def of (stream : List (Option Byte)) : Reading := stream.foldl step {}

end Reading

/-- What the first bytes of a stream decide; `found` has the bytes from the
chosen text on. -/
inductive Choice where
  | pending (before : Bytes)
  | unknown
  | found (kind : Kind) (body : List (Option Byte))

/-- The choice of JSON or server-sent events after the bytes `before`. -/
def choose (before : Bytes) : List (Option Byte) → Choice
  | [] => .pending before
  | none :: stream => choose before stream
  | some c :: stream =>
    if (before = [] ∨ before = bom) ∧ whitespace c then choose before stream
    else if before ++ [c] = bom then choose bom stream
    else
      let text := probe (before ++ [c])
      if text = ascii "\x7b" then .found .json (text.map some ++ stream)
      else if text ∈ markers then .found .sse (text.map some ++ stream)
      else if before ++ [c] <+: bom ∨ ∃ marker ∈ markers, text <+: marker then
        choose (before ++ [c]) stream
      else .unknown

def dataOf (line : Bytes) : Option Bytes :=
  if ascii "data:" <+: line then
    let value := line.drop 5
    some (if value.head? = some 32 then value.tail else value)
  else none

/-- The end of a line, for the payloads delivered and the open event's one. -/
def endLine (line : Bytes) (t : List Bytes × Option Bytes) : List Bytes × Option Bytes :=
  if line = [] then (t.1 ++ t.2.toList, none)
  else
    (t.1, match dataOf line with
      | some value => some (t.2.getD [] ++ value ++ [lineFeed])
      | none => t.2)

def payloadsFrom (opened : Option Bytes) (lines : List Bytes) : List Bytes :=
  (lines.foldl (fun t line => endLine line t) ([], opened)).1

def openedFrom (opened : Option Bytes) (lines : List Bytes) : Option Bytes :=
  (lines.foldl (fun t line => endLine line t) ([], opened)).2

def closes : List Bytes → Bool
  | [] => false
  | line :: lines => if line = [] then true else if (dataOf line).isSome then false else closes lines

/-- The lines as the framer sees them: a marked line is followed by a blank one. -/
def blanked (lines : List (Bytes × Bool)) : List Bytes :=
  lines.flatMap fun line => if line.2 then [line.1, []] else [line.1]

/-- A marked line stands where the open event has no data, or after the last
data line of an event that ends. -/
def WholeFrom (opened : Option Bytes) (lines : List (Bytes × Bool)) : Prop :=
  ∀ before line after, lines = before ++ (line, true) :: after →
    (openedFrom opened (before.map Prod.fst ++ [line])).isSome → closes (after.map Prod.fst)

/-! ## events that a marked line ends early -/

theorem endLine_append (line : Bytes) (done : List Bytes) (t : List Bytes × Option Bytes) :
    endLine line (done ++ t.1, t.2) = (done ++ (endLine line t).1, (endLine line t).2) := by
  unfold endLine
  split <;> simp [append_assoc]

theorem foldl_endLine (lines : List Bytes) : ∀ (done : List Bytes) (t : List Bytes × Option Bytes),
    lines.foldl (fun t line => endLine line t) (done ++ t.1, t.2) =
      (done ++ (lines.foldl (fun t line => endLine line t) t).1,
        (lines.foldl (fun t line => endLine line t) t).2) := by
  induction lines with
  | nil => exact fun _ _ => rfl
  | cons line lines ih =>
    intro done t
    rw [foldl_cons, foldl_cons, endLine_append]
    exact ih done (endLine line t)

theorem payloadsFrom_cons (opened : Option Bytes) (line : Bytes) (lines : List Bytes) :
    payloadsFrom opened (line :: lines) =
      (endLine line ([], opened)).1 ++ payloadsFrom (endLine line ([], opened)).2 lines := by
  have hfold := foldl_endLine lines (endLine line ([], opened)).1 ([], (endLine line ([], opened)).2)
  rw [List.append_nil] at hfold
  exact congrArg Prod.fst hfold

theorem payloadsFrom_blank (opened : Option Bytes) (lines : List Bytes) :
    payloadsFrom opened ([] :: lines) = opened.toList ++ payloadsFrom none lines := by
  rw [payloadsFrom_cons]
  rfl

theorem payloadsFrom_of_closes {payload : Bytes} {lines : List Bytes} (h : closes lines) :
    payloadsFrom (some payload) lines = payload :: payloadsFrom none lines := by
  induction lines with
  | nil => cases h
  | cons line lines ih =>
    by_cases hline : line = []
    · subst hline
      rw [payloadsFrom_blank, payloadsFrom_blank]
      rfl
    · cases hdata : dataOf line with
      | some value => simp [closes, hline, hdata] at h
      | none =>
        have hrest : closes lines := by simpa [closes, hline, hdata] using h
        rw [payloadsFrom_cons, payloadsFrom_cons]
        simpa [endLine, hline, hdata] using ih hrest

theorem length_of_not_closes (payload : Bytes) {lines : List Bytes} (h : ¬ closes lines) :
    (payloadsFrom (some payload) lines).length = (payloadsFrom none lines).length := by
  have hlength (p q : Bytes) (lines : List Bytes) :
      (payloadsFrom (some p) lines).length = (payloadsFrom (some q) lines).length := by
    induction lines generalizing p q with
    | nil => rfl
    | cons line lines ih =>
      rw [payloadsFrom_cons, payloadsFrom_cons]
      by_cases hline : line = []
      · simp [endLine, hline]
      · cases hdata : dataOf line with
        | none => simpa [endLine, hline, hdata] using ih p q
        | some value => simpa [endLine, hline, hdata] using ih _ _
  induction lines with
  | nil => rfl
  | cons line lines ih =>
    by_cases hline : line = []
    · simp [closes, hline] at h
    · rw [payloadsFrom_cons, payloadsFrom_cons]
      cases hdata : dataOf line with
      | some value => simpa [endLine, hline, hdata] using hlength _ _ lines
      | none =>
        have hrest : ¬ closes lines := by simpa [closes, hline, hdata] using h
        simpa [endLine, hline, hdata] using ih hrest

theorem openedFrom_cons (opened : Option Bytes) (line : Bytes) (lines : List Bytes) :
    openedFrom opened (line :: lines) = openedFrom (endLine line ([], opened)).2 lines := by
  have hfold := foldl_endLine lines (endLine line ([], opened)).1 ([], (endLine line ([], opened)).2)
  rw [List.append_nil] at hfold
  have hopened := congrArg Prod.snd hfold
  exact hopened

theorem wholeFrom_cons (opened : Option Bytes) (line : Bytes) (torn : Bool)
    (lines : List (Bytes × Bool)) : WholeFrom opened ((line, torn) :: lines) ↔
      (torn → (endLine line ([], opened)).2.isSome → closes (lines.map Prod.fst)) ∧
        WholeFrom (endLine line ([], opened)).2 lines := by
  constructor
  · intro h
    refine ⟨fun htorn hopen => ?_, fun before l after hlines hopen => ?_⟩
    · subst htorn
      exact h [] line lines rfl hopen
    · refine h ((line, torn) :: before) l after (by rw [hlines, cons_append]) ?_
      rw [map_cons, cons_append, openedFrom_cons]
      exact hopen
  · rintro ⟨hhead, htail⟩ before l after hlines hopen
    cases before with
    | nil =>
      obtain ⟨hline, rfl⟩ := List.cons.inj hlines
      obtain ⟨rfl, rfl⟩ := Prod.mk.inj hline
      exact hhead rfl hopen
    | cons first before =>
      obtain ⟨rfl, hrest⟩ := List.cons.inj hlines
      rw [map_cons, cons_append, openedFrom_cons] at hopen
      exact htail before l after hrest hopen

instance WholeFrom.decidable : ∀ opened lines, Decidable (WholeFrom opened lines)
  | _, [] => isTrue fun before _ _ hlines => by cases before <;> cases hlines
  | opened, (line, torn) :: lines =>
    have := WholeFrom.decidable (endLine line ([], opened)).2 lines
    decidable_of_iff _ (wholeFrom_cons opened line torn lines).symm

theorem wholeFrom_of_closes {payload : Bytes} {lines : List (Bytes × Bool)}
    (h : closes (lines.map Prod.fst)) : WholeFrom (some payload) lines ↔ WholeFrom none lines := by
  induction lines with
  | nil => cases h
  | cons l lines ih =>
    obtain ⟨line, torn⟩ := l
    rw [wholeFrom_cons, wholeFrom_cons]
    by_cases hline : line = []
    · simp [endLine, hline]
    · cases hdata : dataOf line with
      | some value => simp [closes, hline, hdata] at h
      | none =>
        have hrest : closes (lines.map Prod.fst) := by simpa [closes, hline, hdata] using h
        simp [endLine, hline, hdata, hrest, ih hrest]

theorem blanked_cons (line : Bytes) (torn : Bool) (lines : List (Bytes × Bool)) :
    blanked ((line, torn) :: lines) =
      (if torn then [line, []] else [line]) ++ blanked lines := flatMap_cons

theorem payloadsFrom_torn (opened : Option Bytes) (line : Bytes) (lines : List (Bytes × Bool)) :
    payloadsFrom opened (blanked ((line, true) :: lines)) =
      (endLine line ([], opened)).1 ++ ((endLine line ([], opened)).2.toList ++
        payloadsFrom none (blanked lines)) := by
  rw [blanked_cons, if_pos rfl, cons_append, singleton_append, payloadsFrom_cons,
    payloadsFrom_blank]

theorem payloadsFrom_untorn (opened : Option Bytes) (line : Bytes) (lines : List (Bytes × Bool)) :
    payloadsFrom opened (blanked ((line, false) :: lines)) = (endLine line ([], opened)).1 ++
        payloadsFrom (endLine line ([], opened)).2 (blanked lines) := by
  rw [blanked_cons, if_neg Bool.false_ne_true, singleton_append, payloadsFrom_cons]

theorem length_payloadsFrom_le (lines : List (Bytes × Bool)) : ∀ opened : Option Bytes,
    (payloadsFrom opened (lines.map Prod.fst)).length ≤
      (payloadsFrom opened (blanked lines)).length := by
  induction lines with
  | nil => exact fun _ => le_rfl
  | cons l lines ih =>
    obtain ⟨line, torn⟩ := l
    intro opened
    rw [map_cons, payloadsFrom_cons, length_append]
    cases torn with
    | false =>
      rw [payloadsFrom_untorn, length_append]
      exact Nat.add_le_add_left (ih _) _
    | true =>
      rw [payloadsFrom_torn, length_append, length_append]
      refine Nat.add_le_add_left ?_ _
      have hnone := ih none
      cases (endLine line ([], opened)).2 with
      | none => simpa using hnone
      | some payload =>
        by_cases hcloses : closes (lines.map Prod.fst)
        · simp [payloadsFrom_of_closes hcloses]
          omega
        · simp [length_of_not_closes payload hcloses]
          omega

/-- **Early ends**: the payloads are those of the lines exactly when no event
with data is ended early. -/
theorem payloadsFrom_blanked (lines : List (Bytes × Bool)) : ∀ opened : Option Bytes,
    payloadsFrom opened (blanked lines) = payloadsFrom opened (lines.map Prod.fst) ↔
      WholeFrom opened lines := by
  induction lines with
  | nil => exact fun opened => iff_of_true rfl fun before _ _ hlines => by cases before <;> cases hlines
  | cons l lines ih =>
    obtain ⟨line, torn⟩ := l
    intro opened
    rw [wholeFrom_cons, map_cons, payloadsFrom_cons]
    cases torn with
    | false => simp [payloadsFrom_untorn, ih]
    | true =>
      rw [payloadsFrom_torn, append_cancel_left_eq]
      cases (endLine line ([], opened)).2 with
      | none => simp [ih]
      | some payload =>
        by_cases hcloses : closes (lines.map Prod.fst)
        · simp [payloadsFrom_of_closes hcloses, wholeFrom_of_closes hcloses, ih, hcloses]
        · -- the early end makes one event too many
          have hle := length_payloadsFrom_le lines none
          have hlength := length_of_not_closes payload hcloses
          refine iff_of_false (fun heq => ?_) fun hwhole => hcloses (hwhole.1 rfl rfl)
          have hlen := congrArg List.length heq
          simp only [Option.toList_some, length_append, length_singleton] at hlen
          omega

end Codexon
