import Codexon.JsonLexical.Grammar

/-!
# Codexon.JsonLexical.Exact

A text within the limits comes out with `null` for the numbers that JSON lacks.
-/

namespace Codexon

open List

namespace JsonLexical

open Lexical

/-! ## what comes out -/

def output (s : Lexical) (data : Bytes) : Except Error Bytes :=
  (s.feed data true).map Prod.fst

theorem output_nil {s : Lexical} (hmode : s.mode = none) : output s [] = .ok [] := by
  simp [output, feed, feedLoop, hmode, bind, Except.bind, pure, Except.pure, Except.map]

variable {data : Bytes}

theorem output_append {s s' : Lexical} (hs : s.Sized) {out : Bytes}
    (h : s.bytes data = .ok (out, s')) (rest : Bytes) :
    output s (data ++ rest) = (output s' rest).map (out ++ ·) := by
  rw [output, output, feed_eq hs, feed_eq (sized_bytes hs h), bytes_append_ok h]
  rcases s'.bytes rest with e | ⟨out', s''⟩
  · rfl
  · simp only [prepend_ok, bind, Except.bind, pure, Except.pure]
    split <;> simp [Except.map]

/-- Between tokens, inside of `depth` brackets. -/
structure Idle (depth : Nat) (s : Lexical) : Prop where
  mode : s.mode = none
  escaped : s.escaped = false
  literal : s.literal = []
  depth : s.depth = depth
  sized : s.Sized

def Follows (rest : Bytes) : Prop := ∀ c ∈ rest.head?, isDelimiter c

/-- From between tokens to between tokens. -/
def Passes (depth : Nat) (data out : Bytes) (depth' : Nat) : Prop :=
  ∀ s, Idle depth s → ∀ rest, Follows rest → ∃ s', Idle depth' s' ∧
    output s (data ++ rest) = (output s' rest).map (out ++ ·)

/-- The same, whatever follows, of bytes that come out as they are. -/
def Steps (depth : Nat) (data : Bytes) (depth' : Nat) : Prop :=
  ∀ s, Idle depth s → ∃ s', Idle depth' s' ∧ s.bytes data = .ok (data, s')

variable {depth : Nat} {s : Lexical}

theorem Steps.then_passes {depth' depth'' : Nat} {data' out' : Bytes}
    (h : Steps depth data depth') (h' : Passes depth' data' out' depth'') :
    Passes depth (data ++ data') (data ++ out') depth'' := by
  intro s hs rest hrest
  obtain ⟨s', hs', hbytes⟩ := h s hs
  obtain ⟨s'', hs'', heq⟩ := h' s' hs' rest hrest
  refine ⟨s'', hs'', ?_⟩
  rw [append_assoc, output_append hs.sized hbytes, heq]
  cases output s'' rest <;> simp [Except.map]

theorem Steps.passes {depth' : Nat} (h : Steps depth data depth') :
    Passes depth data data depth' := by
  intro s hs rest _
  obtain ⟨s', hs', hbytes⟩ := h s hs
  exact ⟨s', hs', output_append hs.sized hbytes rest⟩

theorem Passes.append {depth' depth'' : Nat} {out data' out' : Bytes}
    (h : Passes depth data out depth') (h' : Passes depth' data' out' depth'')
    (hfollows : Follows data') : Passes depth (data ++ data') (out ++ out') depth'' := by
  intro s hs rest hrest
  have hmiddle : Follows (data' ++ rest) := by
    cases data' with
    | nil => exact hrest
    | cons c data' => exact hfollows
  obtain ⟨s', hs', heq⟩ := h s hs _ hmiddle
  obtain ⟨s'', hs'', heq'⟩ := h' s' hs' rest hrest
  refine ⟨s'', hs'', ?_⟩
  rw [append_assoc, heq, heq']
  cases output s'' rest <;> simp [Except.map]

/-! ## tokens -/

variable {c : Byte}

theorem isSeparator_of_isWhite (h : isWhite c) : isSeparator c := by
  simp only [isWhite, Bool.or_eq_true, decide_eq_true_eq] at h
  rcases h with ((rfl | rfl) | rfl) | rfl <;> decide

theorem separate_flat {separators : Bytes} (hs : Idle depth s) (hdepth : depth ≤ maxDepth)
    (h : ∀ c ∈ separators, isOpening c = false ∧ isClosing c = false) :
    s.separate separators = .ok s := by
  induction separators with
  | nil => rfl
  | cons c separators ih =>
    obtain ⟨hopening, hclosing⟩ := h c (by simp)
    have hnested : s.nested c = s := by simp [nested, hopening, hclosing]
    have hle : ¬ ((maxDepth : Nat) : Int) < s.depth := by
      rw [hs.depth]
      omega
    rw [separate, hnested, if_neg hle]
    exact ih fun c hc => h c (by simp [hc])

theorem steps_flat {separators : Bytes} (hdepth : depth ≤ maxDepth)
    (h : ∀ c ∈ separators, isSeparator c ∧ isOpening c = false ∧ isClosing c = false) :
    Steps depth separators depth :=
  fun s hs => ⟨s, hs, by
    rw [bytes_separators hs.mode fun c hc => (h c hc).1,
      separate_flat hs hdepth fun c hc => (h c hc).2]
    rfl⟩

theorem steps_spaces (spaces : Spaces) (hdepth : depth ≤ maxDepth) :
    Steps depth spaces.val depth := by
  refine steps_flat hdepth fun c hc => ⟨isSeparator_of_isWhite (spaces.property c hc), ?_⟩
  have h := spaces.property c hc
  simp only [isWhite, Bool.or_eq_true, decide_eq_true_eq] at h
  rcases h with ((rfl | rfl) | rfl) | rfl <;> decide

theorem steps_opening (hc : isOpening c) (hdepth : depth < maxDepth) :
    Steps depth [c] (depth + 1) := by
  refine fun s hs => ⟨s.nested c, ⟨hs.mode, hs.escaped, hs.literal, ?_, hs.sized⟩, ?_⟩
  · simp [nested, hc, hs.depth]
  · have hle : ¬ ((maxDepth : Nat) : Int) < (s.nested c).depth := by
      simp only [nested, hc, if_true, hs.depth]
      omega
    rw [bytes_separators hs.mode (by simp [isSeparator, hc]), separate, if_neg hle]
    rfl

theorem steps_closing (hc : isClosing c) (hdepth : depth ≤ maxDepth) :
    Steps (depth + 1) [c] depth := by
  have hopening : isOpening c = false := by
    simp only [isClosing, Bool.or_eq_true, decide_eq_true_eq] at hc
    rcases hc with rfl | rfl <;> decide
  refine fun s hs => ⟨s.nested c, ⟨hs.mode, hs.escaped, hs.literal, ?_, hs.sized⟩, ?_⟩
  · simp [nested, hopening, hc, hs.depth]
  · have hle : ¬ ((maxDepth : Nat) : Int) < (s.nested c).depth := by
      simp only [nested, hopening, hc, if_true, hs.depth]
      simp
      omega
    rw [bytes_separators hs.mode (by simp [isSeparator, hc]), separate, if_neg hle]
    rfl

/-- In a string of which `size` bytes were read, after a backslash that escapes or not. -/
structure Inside (depth size : Nat) (escaped : Bool) (s : Lexical) : Prop where
  mode : s.mode = some .string
  escaped : s.escaped = escaped
  literal : s.literal = []
  depth : s.depth = depth
  size : s.size = size

theorem limit_of_string {s : Lexical} (h : s.mode = some .string) : s.limit = tokenBytes := by
  simp [limit, h]

/-- Bytes of a string, of which `size` were read before. -/
def Reads (data : Bytes) : Prop :=
  ∀ depth size s, Inside depth size false s → size + data.length ≤ tokenBytes →
    ∃ s', Inside depth (size + data.length) false s' ∧ s.bytes data = .ok (data, s')

theorem Reads.append {data' : Bytes} (h : Reads data) (h' : Reads data') :
    Reads (data ++ data') := by
  intro depth size s hs hle
  rw [length_append] at hle ⊢
  obtain ⟨s', hs', hbytes⟩ := h depth size s hs (by omega)
  obtain ⟨s'', hs'', hbytes'⟩ := h' depth _ s' hs' (by omega)
  refine ⟨s'', by rwa [← Nat.add_assoc], ?_⟩
  rw [bytes_append_ok hbytes, hbytes', prepend_ok]

theorem reads_plain (h : ∀ c ∈ data, isSpecial c = false) : Reads data := by
  intro depth size s hs hle
  have hlimit : s.size + data.length ≤ s.limit := by
    simpa [limit, hs.mode, hs.size] using hle
  refine ⟨{ s with size := s.size + data.length }, ⟨hs.mode, hs.escaped, hs.literal, hs.depth,
    congrArg (· + data.length) hs.size⟩, ?_⟩
  rw [bytes_plain hs.mode hs.escaped (by simp only [Sized]; omega) h, admitBytes_of_le hlimit]
  rfl

theorem reads_escape (c : Byte) : Reads [92, c] := by
  intro depth size s hs hle
  have hle : s.size + 2 ≤ tokenBytes := by simpa [hs.size] using hle
  refine ⟨{ s with size := s.size + 2 }, ⟨hs.mode, hs.escaped, hs.literal, hs.depth,
    congrArg (· + 2) hs.size⟩, ?_⟩
  have hfirst : s.byte 92 = .ok ([92], { s with size := s.size + 1, escaped := true }) := by
    simp only [byte, hs.mode, stringByte]
    rw [admitBytes_of_le (by rw [limit_of_string hs.mode]; omega)]
    simp [hs.mode, hs.escaped, bind, Except.bind, pure, Except.pure]
  have hsecond : byte { s with size := s.size + 1, escaped := true } c =
      .ok ([c], { s with size := s.size + 2 }) := by
    simp only [byte, hs.mode, stringByte]
    rw [admitBytes_of_le (by rw [limit_of_string rfl]; exact hle)]
    simp [hs.escaped, bind, Except.bind, pure, Except.pure]
  rw [bytes_cons_ok hfirst, bytes_cons_ok hsecond]
  rfl

theorem not_special_of_isHex (h : isHex c) : isSpecial c = false := by
  revert c
  decide +kernel

theorem reads_piece (piece : Piece) : Reads piece.text := by
  cases piece with
  | plain c h =>
    refine reads_plain fun x hx => ?_
    rw [mem_singleton.mp hx]
    exact h.2
  | escape c h => exact reads_escape c
  | unicode a b c d h =>
    obtain ⟨ha, hb, hc, hd⟩ := h
    have hplain : Reads [a, b, c, d] := reads_plain fun x hx => by
      simp only [mem_cons, not_mem_nil, or_false] at hx
      rcases hx with rfl | rfl | rfl | rfl <;> exact not_special_of_isHex ‹_›
    exact (reads_escape 117).append hplain

theorem reads_pieces (pieces : List Piece) : Reads (pieces.flatMap Piece.text) := by
  induction pieces with
  | nil => exact reads_plain (by simp)
  | cons piece pieces ih => exact (reads_piece piece).append ih

theorem byte_open (hs : Idle depth s) :
    ∃ s', Inside depth 1 false s' ∧ s.byte 34 = .ok ([34], s') := by
  have hseparator : isSeparator 34 = false := by decide
  refine ⟨{ s with token := s.token + 1, size := 1, mode := some .string },
    ⟨rfl, hs.escaped, hs.literal, hs.depth, rfl⟩, ?_⟩
  simp only [byte, hs.mode, idleByte, hseparator, Bool.false_eq_true, if_false, if_true]
  rw [admitBytes_of_le (by rw [limit_of_string rfl]; simp [tokenBytes])]
  rfl

theorem byte_close {size : Nat} (hs : Inside depth size false s) (hsize : size + 1 ≤ tokenBytes) :
    ∃ s', Idle depth s' ∧ s.byte 34 = .ok ([34], s') := by
  rw [← hs.size] at hsize
  refine ⟨{ s with size := s.size + 1, mode := none },
    ⟨rfl, hs.escaped, hs.literal, hs.depth, by simpa [Sized, limit] using hsize⟩, ?_⟩
  simp only [byte, hs.mode, stringByte]
  rw [admitBytes_of_le (by rwa [limit_of_string hs.mode])]
  simp [hs.escaped, bind, Except.bind, pure, Except.pure]

theorem steps_quoted {pieces : List Piece} (hfits : (quoted pieces).length ≤ tokenBytes) :
    Steps depth (quoted pieces) depth := by
  intro s hs
  have hlength : 1 + (pieces.flatMap Piece.text).length + 1 ≤ tokenBytes := by
    simp only [quoted, length_cons, length_append, length_nil] at hfits
    omega
  obtain ⟨s₁, hs₁, hopen⟩ := byte_open hs
  obtain ⟨s₂, hs₂, hbytes⟩ := reads_pieces pieces depth 1 s₁ hs₁ (by omega)
  obtain ⟨s₃, hs₃, hclose⟩ := byte_close hs₂ hlength
  refine ⟨s₃, hs₃, ?_⟩
  rw [quoted, bytes_cons_ok hopen, bytes_append_ok hbytes, bytes_cons_ok hclose]
  rfl

/-! ## literals -/

def isNumberByte (c : Byte) : Bool := isDigit c || c = 43 || c = 45 || c = 46 || c = 69 || c = 101

theorem isNumberByte_of_isDigit (h : isDigit c) : isNumberByte c := by
  simp [isNumberByte, h]

theorem NumberText.isNumberByte_of_mem (n : NumberText) (hc : c ∈ n.text) : isNumberByte c := by
  have hminus : isNumberByte 45 := by decide
  have hpoint : isNumberByte 46 := by decide
  have hplus : isNumberByte 43 := by decide
  have hlower : isNumberByte 101 := by decide
  have hupper : isNumberByte 69 := by decide
  simp only [NumberText.text, mem_append] at hc
  rcases hc with ((hc | hc) | hc) | hc
  · split at hc
    · rwa [mem_singleton.mp hc]
    · simp at hc
  · exact isNumberByte_of_isDigit (n.int_digits.2 c hc)
  · cases hfrac : n.frac with
    | none => simp [hfrac] at hc
    | some ds =>
      simp only [hfrac, Option.map_some, Option.getD_some, mem_cons] at hc
      rcases hc with rfl | hc
      · exact hpoint
      · exact isNumberByte_of_isDigit ((n.frac_digits ds hfrac).2 c hc)
  · cases hexp : n.exp with
    | none => simp [hexp] at hc
    | some e =>
      obtain ⟨hletter, hsign, -, hdigits⟩ := n.exp_digits e hexp
      simp only [hexp, Option.map_some, Option.getD_some, mem_cons, mem_append,
        Option.mem_toList] at hc
      rcases hc with rfl | hc | hc
      · rcases hletter with hletter | hletter <;> rwa [hletter]
      · rcases hsign c hc with rfl | rfl
        · exact hplus
        · exact hminus
      · exact isNumberByte_of_isDigit (hdigits c hc)

theorem not_delimiter_of_isNumberByte (h : isNumberByte c) : isDelimiter c = false := by
  revert c
  decide +kernel

theorem Literal.text_spec (l : Literal) : l.text ≠ [] ∧ ∀ c ∈ l.text, isDelimiter c = false := by
  cases l with
  | word w => cases w <;> decide +kernel
  | number n =>
    refine ⟨fun h => ?_, fun c hc => not_delimiter_of_isNumberByte (n.isNumberByte_of_mem hc)⟩
    have : n.int = [] := by
      simp only [Literal.text, NumberText.text, append_eq_nil_iff] at h
      exact h.1.1.2
    exact n.int_digits.1 this
  | nonfinite n => cases n <;> decide +kernel

theorem nonfinite_literal (l : Literal) :
    nonfinite l.text = match l with | .nonfinite n => some n | _ => none := by
  cases l with
  | word w => cases w <;> decide +kernel
  | number n =>
    refine List.find?_eq_none.mpr fun other _ => ?_
    simp only [decide_eq_true_eq]
    intro heq
    have hbytes : ∀ c ∈ other.text, isNumberByte c := fun c hc =>
      n.isNumberByte_of_mem (by rw [heq] at hc; exact hc)
    revert hbytes
    cases other <;> decide +kernel
  | nonfinite n => cases n <;> decide +kernel

theorem output_delimiter {s : Lexical} (hmode : s.mode = some .literal) (hs : s.Sized)
    {rest : Bytes} (hrest : Follows rest) :
    output s rest = (output s.finishLiteral.2 rest).map (s.finishLiteral.1 ++ ·) := by
  rw [output, output, feed_eq hs, feed_eq (sized_finishLiteral hs)]
  cases rest with
  | nil =>
    simp [bytes, hmode, mode_finishLiteral, bind, Except.bind, pure, Except.pure, Except.map]
  | cons c rest =>
    rw [bytes_delimiter hmode (hrest c rfl)]
    rcases s.finishLiteral.2.bytes (c :: rest) with e | ⟨out, s'⟩
    · rfl
    · simp only [prepend_ok, bind, Except.bind, pure, Except.pure]
      split <;> simp [Except.map]

theorem idle_finishLiteral {s : Lexical} (hescaped : s.escaped = false) (hdepth : s.depth = depth)
    (hsized : s.Sized) : Idle depth s.finishLiteral.2 := by
  refine ⟨mode_finishLiteral s, ?_, ?_, ?_, sized_finishLiteral hsized⟩
  · rw [finishLiteral]
    split <;> exact hescaped
  · rw [finishLiteral]
    split <;> rfl
  · rw [finishLiteral]
    split <;> exact hdepth

theorem passes_literal (l : Literal) (hfits : l.text.length ≤ literalBytes) :
    Passes depth l.text l.replaced depth := by
  intro s hs rest hrest
  obtain ⟨hne, hdelimiter⟩ := l.text_spec
  generalize hs₁ : ({ s with
    token := s.token + 1, size := l.text.length, mode := some .literal, literal := l.text } :
      Lexical) = s₁
  have hbytes : s.bytes l.text = .ok ([], s₁) := by
    have hpart := bytes_part (s := { s with
      token := s.token + 1, size := 0, mode := some .literal }) rfl (Nat.zero_le _) hdelimiter
    obtain ⟨c, tail, htext⟩ := exists_cons_of_ne_nil hne
    have hc := hdelimiter c (by simp [htext])
    simp only [isDelimiter, Bool.or_eq_false_iff, decide_eq_false_iff_not] at hc
    rw [htext, bytes_token hs.mode hc.1, if_neg hc.2, ← htext, hpart,
      admitBytes_of_le (by simpa [limit] using hfits), ← hs₁]
    simp [hs.literal, bind, Except.bind, pure, Except.pure]
  have hmode : s₁.mode = some .literal := by rw [← hs₁]
  have hsized : s₁.Sized := by
    rw [← hs₁]
    simpa [Sized, limit] using hfits
  have hliteral : s₁.literal = l.text := by rw [← hs₁]
  have hout : s₁.finishLiteral.1 = l.replaced := by
    rw [finishLiteral, hliteral, nonfinite_literal]
    cases l <;> rfl
  refine ⟨s₁.finishLiteral.2, idle_finishLiteral (by rw [← hs₁, hs.escaped])
    (by rw [← hs₁, hs.depth]) hsized, ?_⟩
  rw [output_append hs.sized hbytes, output_delimiter hmode hsized hrest, hout]
  cases output s₁.finishLiteral.2 rest <;> simp [Except.map]

/-! ## values -/

theorem follows_spaces (spaces : Spaces) {rest : Bytes} (h : Follows rest) :
    Follows (spaces.val ++ rest) := by
  obtain ⟨bs, hbs⟩ := spaces
  cases bs with
  | nil => exact h
  | cons c bs =>
    rintro c' ⟨⟩
    simp [isDelimiter, isSeparator_of_isWhite (hbs c (by simp))]

theorem follows_only_spaces (spaces : Spaces) : Follows spaces.val := by
  have hnil : Follows [] := by simp [Follows]
  simpa using follows_spaces spaces hnil

theorem follows_cons (hc : isDelimiter c) (rest : Bytes) : Follows (c :: rest) := by
  rintro c' ⟨⟩
  exact hc

theorem steps_comma (hdepth : depth ≤ maxDepth) : Steps depth [44] depth :=
  steps_flat hdepth fun c hc => by rw [mem_singleton.mp hc]; decide

theorem steps_colon (hdepth : depth ≤ maxDepth) : Steps depth [58] depth :=
  steps_flat hdepth fun c hc => by rw [mem_singleton.mp hc]; decide

mutual

theorem passes_value (v : Value) (depth : Nat) (hdepth : depth ≤ maxDepth) (hfits : v.Fits depth) :
    Passes depth (v.render Literal.text) (v.render Literal.replaced) depth := by
  cases v with
  | literal l => exact passes_literal l hfits
  | string pieces => exact (steps_quoted hfits).passes
  | emptyArray spaces =>
    have hfits : depth < maxDepth := hfits
    exact (steps_opening rfl hfits).then_passes ((steps_spaces spaces hfits).then_passes
      (steps_closing rfl hdepth).passes)
  | array elements =>
    have hfits : depth < maxDepth ∧ elements.Fits (depth + 1) := hfits
    exact (steps_opening rfl hfits.1).then_passes
      ((passes_elements elements (depth + 1) hfits.1 hfits.2).append
        (steps_closing rfl hdepth).passes (follows_cons rfl _))
  | emptyObject spaces =>
    have hfits : depth < maxDepth := hfits
    exact (steps_opening rfl hfits).then_passes ((steps_spaces spaces hfits).then_passes
      (steps_closing rfl hdepth).passes)
  | object members =>
    have hfits : depth < maxDepth ∧ members.Fits (depth + 1) := hfits
    exact (steps_opening rfl hfits.1).then_passes
      ((passes_members members (depth + 1) hfits.1 hfits.2).append
        (steps_closing rfl hdepth).passes (follows_cons rfl _))

theorem passes_elements (elements : Elements) (depth : Nat) (hdepth : depth ≤ maxDepth)
    (hfits : elements.Fits depth) :
    Passes depth (elements.render Literal.text) (elements.render Literal.replaced) depth := by
  cases elements with
  | one before v after =>
    have hfits : v.Fits depth := hfits
    have hv := (passes_value v depth hdepth hfits).append (steps_spaces after hdepth).passes
      (follows_only_spaces after)
    exact (steps_spaces before hdepth).then_passes hv
  | more before v after rest =>
    have hfits : v.Fits depth ∧ rest.Fits depth := hfits
    have hrest := (steps_comma hdepth).then_passes (passes_elements rest depth hdepth hfits.2)
    have hafter := (steps_spaces after hdepth).then_passes hrest
    have hv := (passes_value v depth hdepth hfits.1).append hafter
      (follows_spaces after (follows_cons rfl _))
    exact (steps_spaces before hdepth).then_passes hv

theorem passes_members (members : Members) (depth : Nat) (hdepth : depth ≤ maxDepth)
    (hfits : members.Fits depth) :
    Passes depth (members.render Literal.text) (members.render Literal.replaced) depth := by
  cases members with
  | one before name after before' v after' =>
    have hfits : (quoted name).length ≤ tokenBytes ∧ v.Fits depth := hfits
    have hv := (passes_value v depth hdepth hfits.2).append (steps_spaces after' hdepth).passes
      (follows_only_spaces after')
    have hcolon := (steps_colon hdepth).then_passes ((steps_spaces before' hdepth).then_passes hv)
    exact (steps_spaces before hdepth).then_passes ((steps_quoted hfits.1).then_passes
      ((steps_spaces after hdepth).then_passes hcolon))
  | more before name after before' v after' rest =>
    have hfits : (quoted name).length ≤ tokenBytes ∧ v.Fits depth ∧ rest.Fits depth := hfits
    have hrest := (steps_comma hdepth).then_passes (passes_members rest depth hdepth hfits.2.2)
    have hafter := (steps_spaces after' hdepth).then_passes hrest
    have hv := (passes_value v depth hdepth hfits.2.1).append hafter
      (follows_spaces after' (follows_cons rfl _))
    have hcolon := (steps_colon hdepth).then_passes ((steps_spaces before' hdepth).then_passes hv)
    exact (steps_spaces before hdepth).then_passes ((steps_quoted hfits.1).then_passes
      ((steps_spaces after hdepth).then_passes hcolon))

end

/-- **Exactness**: in one feed. -/
theorem output_document (doc : Document) (hfits : doc.value.Fits 0) :
    output {} doc.text = .ok doc.replaced := by
  have hidle : Idle 0 {} := ⟨rfl, rfl, rfl, rfl, Nat.zero_le _⟩
  have hdepth : 0 ≤ maxDepth := Nat.zero_le _
  have hv := (passes_value doc.value 0 hdepth hfits).append
    (steps_spaces doc.after hdepth).passes (follows_only_spaces doc.after)
  obtain ⟨s', hs', heq⟩ := (steps_spaces doc.before hdepth).then_passes hv {} hidle []
    (by simp [Follows])
  rw [List.append_nil, output_nil hs'.mode] at heq
  rw [Document.text, heq]
  simp [Except.map, Document.replaced]

end JsonLexical

end Codexon
