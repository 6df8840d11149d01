import Codexon.JsonLexical

/-!
# Codexon.JsonLexical.Chunks

`feed` reads its data byte by byte, so how a text is split does not matter.
-/

namespace Codexon.JsonLexical

open List

namespace Lexical

/-! ## a byte -/

def literalByte (s : Lexical) (c : Byte) : Except Error (Bytes × Lexical) := do
  let s ← s.admitBytes 1
  return ([], { s with literal := s.literal ++ [c] })

def idleByte (s : Lexical) (c : Byte) : Except Error (Bytes × Lexical) :=
  if isSeparator c then do
    let s ← s.separate [c]
    return ([c], s)
  else
    let s := { s with token := s.token + 1, size := 0 }
    if c = 34 then do
      let s ← { s with mode := some .string }.admitBytes 1
      return ([c], s)
    else literalByte { s with mode := some .literal } c

def stringByte (s : Lexical) (c : Byte) : Except Error (Bytes × Lexical) := do
  let s ← s.admitBytes 1
  return ([c],
    if s.escaped then { s with escaped := false }
    else if c = 92 then { s with escaped := true }
    else if c = 34 then { s with mode := none }
    else s)

def byte (s : Lexical) (c : Byte) : Except Error (Bytes × Lexical) :=
  match s.mode with
  | some .string => s.stringByte c
  | some .literal =>
    if isDelimiter c then prepend s.finishLiteral.1 (s.finishLiteral.2.idleByte c)
    else s.literalByte c
  | none => s.idleByte c

def bytes (s : Lexical) : Bytes → Except Error (Bytes × Lexical)
  | [] => .ok ([], s)
  | c :: data => do
    let (out, s) ← s.byte c
    prepend out (s.bytes data)

@[simp] theorem prepend_ok (part out : Bytes) (s : Lexical) :
    prepend part (.ok (out, s)) = .ok (part ++ out, s) := rfl

@[simp] theorem prepend_error (part : Bytes) (e : Error) :
    prepend part (.error e) = .error e := rfl

@[simp] theorem prepend_nil (r : Except Error (Bytes × Lexical)) : prepend [] r = r := by
  rcases r with e | ⟨out, s⟩ <;> rfl

theorem prepend_prepend (part part' : Bytes) (r : Except Error (Bytes × Lexical)) :
    prepend part (prepend part' r) = prepend (part ++ part') r := by
  rcases r with e | ⟨out, s⟩ <;> simp

variable {s s' : Lexical}

variable {out : Bytes}

theorem bytes_cons_ok {c : Byte} (h : s.byte c = .ok (out, s'))
    (data : Bytes) : s.bytes (c :: data) = prepend out (s'.bytes data) := by
  rw [bytes, h]
  rfl

theorem bytes_cons_error {c : Byte} {e : Error} (h : s.byte c = .error e)
    (data : Bytes) : s.bytes (c :: data) = .error e := by
  rw [bytes, h]
  rfl

theorem bytes_append (s : Lexical) (data data' : Bytes) :
    s.bytes (data ++ data') = (do
      let (out, s) ← s.bytes data
      prepend out (s.bytes data')) := by
  induction data generalizing s with
  | nil => simp [bytes, bind, Except.bind]
  | cons c data ih =>
    rw [cons_append]
    cases hbyte : s.byte c with
    | error e => rw [bytes_cons_error hbyte, bytes_cons_error hbyte]; rfl
    | ok r =>
      obtain ⟨out, s'⟩ := r
      rw [bytes_cons_ok hbyte, bytes_cons_ok hbyte, ih]
      cases s'.bytes data with
      | error e => rfl
      | ok r => exact prepend_prepend _ _ _

variable {data : Bytes}

theorem bytes_append_ok (h : s.bytes data = .ok (out, s'))
    (data' : Bytes) : s.bytes (data ++ data') = prepend out (s'.bytes data') := by
  rw [bytes_append, h]
  rfl

theorem bytes_append_error {e : Error} (h : s.bytes data = .error e)
    (data' : Bytes) : s.bytes (data ++ data') = .error e := by
  rw [bytes_append, h]
  rfl

/-! ## sizes -/

/-- The limit of `_admit`. -/
def limit (s : Lexical) : Nat := if s.mode = some .literal then literalBytes else tokenBytes

/-- What was admitted of the token is within its limit. -/
def Sized (s : Lexical) : Prop := s.size ≤ s.limit

theorem admitBytes_of_lt {count : Nat} (h : s.limit < s.size + count) :
    s.admitBytes count = .error .tokenBudget := if_pos h

theorem admitBytes_of_le {count : Nat} (h : s.size + count ≤ s.limit) :
    s.admitBytes count = .ok { s with size := s.size + count } := if_neg (not_lt.mpr h)

theorem admitBytes_zero (h : s.Sized) : s.admitBytes 0 = .ok s := admitBytes_of_le h

theorem of_admitBytes {count : Nat} (h : s.admitBytes count = .ok s') :
    s.size + count ≤ s.limit ∧ s' = { s with size := s.size + count } := by
  by_cases hlt : s.limit < s.size + count
  · simp [admitBytes_of_lt hlt] at h
  · rw [admitBytes_of_le (not_lt.mp hlt)] at h
    exact ⟨not_lt.mp hlt, (Except.ok.inj h).symm⟩

/-! ## segments -/

theorem bytes_plain (hmode : s.mode = some .string) (hescaped : s.escaped = false)
    (hsized : s.Sized) {plain : Bytes} (hplain : ∀ c ∈ plain, isSpecial c = false) :
    s.bytes plain = do
      let s ← s.admitBytes plain.length
      return (plain, s) := by
  induction plain generalizing s with
  | nil => rw [length_nil, admitBytes_zero hsized]; rfl
  | cons c plain ih =>
    have hspecial := hplain c (by simp)
    simp only [isSpecial, Bool.or_eq_false_iff, decide_eq_false_iff_not] at hspecial
    by_cases hone : s.limit < s.size + 1
    · have hbyte : s.byte c = .error .tokenBudget := by
        simp only [byte, hmode, stringByte, admitBytes_of_lt hone]
        rfl
      rw [bytes_cons_error hbyte, admitBytes_of_lt (by rw [length_cons]; omega)]
      rfl
    · have hbyte : s.byte c = .ok ([c], { s with size := s.size + 1 }) := by
        simp only [byte, hmode, stringByte, admitBytes_of_le (not_lt.mp hone), hescaped, hspecial]
        rfl
      rw [bytes_cons_ok hbyte, ih (s := { s with size := s.size + 1 }) hmode hescaped
        (not_lt.mp hone) fun c' hc' => hplain c' (by simp [hc']), length_cons]
      by_cases hlt : s.limit < s.size + (plain.length + 1)
      · rw [admitBytes_of_lt hlt, admitBytes_of_lt (by simp only [limit] at hlt ⊢; omega)]
        rfl
      · rw [admitBytes_of_le (not_lt.mp hlt),
          admitBytes_of_le (by simp only [limit] at hlt ⊢; omega),
          Nat.add_comm plain.length, ← Nat.add_assoc]
        rfl

theorem bytes_part (hmode : s.mode = some .literal) (hsized : s.Sized) {part : Bytes}
    (hpart : ∀ c ∈ part, isDelimiter c = false) :
    s.bytes part = do
      let s ← s.admitBytes part.length
      return ([], { s with literal := s.literal ++ part }) := by
  induction part generalizing s with
  | nil =>
    rw [length_nil, admitBytes_zero hsized]
    simp [bytes, bind, Except.bind, pure, Except.pure]
  | cons c part ih =>
    have hc := hpart c (by simp)
    by_cases hone : s.limit < s.size + 1
    · have hbyte : s.byte c = .error .tokenBudget := by
        simp only [byte, hmode, hc, literalByte, admitBytes_of_lt hone]
        rfl
      rw [bytes_cons_error hbyte, admitBytes_of_lt (by rw [length_cons]; omega)]
      rfl
    · have hbyte : s.byte c =
          .ok ([], { s with size := s.size + 1, literal := s.literal ++ [c] }) := by
        simp only [byte, hmode, hc, literalByte, admitBytes_of_le (not_lt.mp hone)]
        rfl
      rw [bytes_cons_ok hbyte, ih (s := { s with
          size := s.size + 1, literal := s.literal ++ [c] }) hmode (not_lt.mp hone)
        fun c' hc' => hpart c' (by simp [hc']), length_cons]
      by_cases hlt : s.limit < s.size + (part.length + 1)
      · rw [admitBytes_of_lt hlt, admitBytes_of_lt (by simp only [limit] at hlt ⊢; omega)]
        rfl
      · rw [admitBytes_of_le (not_lt.mp hlt),
          admitBytes_of_le (by simp only [limit] at hlt ⊢; omega),
          Nat.add_comm part.length, ← Nat.add_assoc]
        simp [bind, Except.bind, pure, Except.pure]

theorem eq_of_separate {separators : Bytes} (h : s.separate separators = .ok s') :
    s' = { s with depth := s'.depth } := by
  induction separators generalizing s with
  | nil => rw [← Except.ok.inj h]
  | cons c separators ih =>
    rw [separate] at h
    split at h
    · simp at h
    · exact ih (s := s.nested c) h

theorem bytes_separators (hmode : s.mode = none) {separators : Bytes}
    (hseparators : ∀ c ∈ separators, isSeparator c) :
    s.bytes separators = do
      let s ← s.separate separators
      return (separators, s) := by
  induction separators generalizing s with
  | nil => rfl
  | cons c separators ih =>
    have hc := hseparators c (by simp)
    rw [separate]
    by_cases hdeep : maxDepth < (s.nested c).depth
    · have hbyte : s.byte c = .error .depthBudget := by
        simp only [byte, hmode, idleByte, hc, separate, hdeep, if_true]
        rfl
      rw [bytes_cons_error hbyte, if_pos hdeep]
      rfl
    · have hbyte : s.byte c = .ok ([c], s.nested c) := by
        simp only [byte, hmode, idleByte, hc, separate, hdeep, if_true, if_false]
        rfl
      have hmode' : (s.nested c).mode = none := hmode
      rw [bytes_cons_ok hbyte, if_neg hdeep,
        ih hmode' fun c' hc' => hseparators c' (by simp [hc'])]
      cases (s.nested c).separate separators <;> rfl

/-! ## feeds -/

theorem sized_finishLiteral (h : s.Sized) : s.finishLiteral.2.Sized := by
  have hle : s.size ≤ tokenBytes := by
    have : literalBytes ≤ tokenBytes := by decide
    simp only [Sized, limit] at h
    split at h <;> omega
  have hsize : s.finishLiteral.2.size = s.size := by
    rw [finishLiteral]
    split <;> rfl
  simp only [Sized, limit, mode_finishLiteral, hsize]
  simpa using hle

theorem split_of_dropWhile {p : Byte → Bool} {rest : Bytes} (h : data.dropWhile p = rest) :
    data = data.takeWhile p ++ rest := by rw [← h, takeWhile_append_dropWhile]

theorem all_of_dropWhile {p : Byte → Bool} (h : data.dropWhile p = []) :
    data.takeWhile p = data ∧ ∀ c ∈ data, p c := by
  have hall := dropWhile_eq_nil_iff.mp h
  exact ⟨takeWhile_eq_self_iff.mpr hall, hall⟩

theorem bytes_escaped (hmode : s.mode = some .string) (hescaped : s.escaped)
    (c : Byte) (rest : Bytes) :
    s.bytes (c :: rest) = (do
      let s ← s.admitBytes 1
      prepend [c] (({ s with escaped := false } : Lexical).bytes rest)) := by
  rw [bytes, byte, hmode]
  simp only [stringByte]
  cases hadmit : s.admitBytes 1 with
  | error e => rfl
  | ok s' =>
    obtain ⟨-, rfl⟩ := of_admitBytes hadmit
    simp only [hescaped]
    rfl

theorem bytes_special (hmode : s.mode = some .string) (hescaped : s.escaped = false)
    (hsized : s.Sized) {plain : Bytes} (hplain : ∀ c ∈ plain, isSpecial c = false) {found : Byte}
    (hfound : isSpecial found) (rest : Bytes) :
    s.bytes (plain ++ found :: rest) = (do
      let s ← s.admitBytes (plain.length + 1)
      let s := if found = 92 then { s with escaped := true } else { s with mode := none }
      prepend (plain ++ [found]) (s.bytes rest)) := by
  have hsegment := bytes_plain hmode hescaped hsized hplain
  by_cases hplainLength : s.limit < s.size + plain.length
  · rw [admitBytes_of_lt hplainLength] at hsegment
    rw [bytes_append_error hsegment, admitBytes_of_lt (by omega)]
    rfl
  · rw [admitBytes_of_le (not_lt.mp hplainLength)] at hsegment
    rw [bytes_append_ok hsegment]
    by_cases hlt : s.limit < s.size + (plain.length + 1)
    · have hbyte : byte { s with size := s.size + plain.length } found = .error .tokenBudget := by
        simp only [byte, hmode, stringByte]
        rw [admitBytes_of_lt (by simp only [limit, hmode] at hlt ⊢; omega)]
        rfl
      rw [bytes_cons_error hbyte, admitBytes_of_lt hlt]
      rfl
    · rw [admitBytes_of_le (not_lt.mp hlt)]
      have hbyte : byte { s with size := s.size + plain.length } found = .ok ([found],
          if found = 92 then { s with size := s.size + (plain.length + 1), escaped := true }
          else { s with size := s.size + (plain.length + 1), mode := none }) := by
        simp only [byte, hmode, stringByte]
        rw [admitBytes_of_le (by simp only [limit, hmode] at hlt ⊢; omega)]
        by_cases hbackslash : found = 92
        · simp [hescaped, hbackslash, bind, Except.bind, pure, Except.pure, Nat.add_assoc]
        · have hquote : found = 34 := by simpa [isSpecial, hbackslash] using hfound
          simp [hescaped, hquote, bind, Except.bind, pure, Except.pure, Nat.add_assoc]
      rw [bytes_cons_ok hbyte, prepend_prepend]
      rfl

theorem bytes_delimiter (hmode : s.mode = some .literal) {found : Byte}
    (hfound : isDelimiter found) (rest : Bytes) : s.bytes (found :: rest) =
      prepend s.finishLiteral.1 (s.finishLiteral.2.bytes (found :: rest)) := by
  rw [bytes, byte, hmode, bytes, byte, mode_finishLiteral]
  simp only [hfound, if_true]
  cases s.finishLiteral.2.idleByte found with
  | error e => rfl
  | ok r => exact (prepend_prepend _ _ _).symm

theorem bytes_token (hmode : s.mode = none) {first : Byte}
    (hfirst : isSeparator first = false) (rest : Bytes) :
    s.bytes (first :: rest) =
      if first = 34 then do
        let s ← { s with token := s.token + 1, size := 0, mode := some .string }.admitBytes 1
        prepend [first] (s.bytes rest)
      else
        bytes { s with token := s.token + 1, size := 0, mode := some .literal } (first :: rest) := by
  rw [bytes, byte, hmode]
  simp only [idleByte, hfirst, Bool.false_eq_true, if_false]
  split
  · cases admitBytes { s with token := s.token + 1, size := 0, mode := some .string } 1 <;> rfl
  next hquote =>
    have hdelimiter : isDelimiter first = false := by simp [isDelimiter, hfirst, hquote]
    rw [bytes, byte]
    simp only [hdelimiter, Bool.false_eq_true, if_false]

/-- **`feed` reads byte by byte.** -/
theorem feedLoop_eq (hsized : s.Sized) (data : Bytes) : s.feedLoop data = s.bytes data := by
  induction hn : 3 * data.length + s.rank data using Nat.strong_induction_on
    generalizing s data with
  | _ n ih =>
    cases data with
    | nil => rw [feedLoop, bytes]
    | cons c rest =>
      subst hn
      -- what is left is shorter, or its turn is later
      have hshorter {s' : Lexical} (hsized' : s'.Sized) {rest' : Bytes}
          (hlength : rest'.length ≤ rest.length) : s'.feedLoop rest' = s'.bytes rest' := by
        have := rank_le s' rest'
        exact ih _ (by rw [length_cons]; omega) hsized' rest' rfl
      rw [feedLoop]
      split
      next hmode =>
        by_cases hescaped : s.escaped
        · rw [if_pos hescaped, bytes_escaped hmode hescaped]
          cases hadmit : s.admitBytes 1 with
          | error e => rfl
          | ok s₁ =>
            obtain ⟨hle, rfl⟩ := of_admitBytes hadmit
            exact congrArg (prepend [c]) (hshorter (by exact hle) le_rfl)
        · have hescaped : s.escaped = false := by simpa using hescaped
          simp only [hescaped, Bool.false_eq_true, if_false]
          split
          next hfound =>
            obtain ⟨htake, hall⟩ := all_of_dropWhile hfound
            rw [htake, bytes_plain hmode hescaped hsized (by simpa using hall)]
          next found rest' hfound =>
            conv_rhs => rw [split_of_dropWhile hfound, bytes_special hmode hescaped hsized
              (fun c hc => by simpa using mem_takeWhile_imp hc)
              (by simpa using (of_dropWhile_eq hfound).1)]
            cases hadmit : s.admitBytes _ with
            | error e => rfl
            | ok s₁ =>
              obtain ⟨hle, rfl⟩ := of_admitBytes hadmit
              refine congrArg (prepend _) (hshorter ?_ (length_le_of_dropWhile hfound))
              split
              · exact hle
              · simpa [Sized, limit, hmode] using hle
      next hmode =>
        simp only
        split
        next hfound =>
          obtain ⟨htake, hall⟩ := all_of_dropWhile hfound
          rw [htake, bytes_part hmode hsized (by simpa using hall)]
        next found rest' hfound =>
          obtain ⟨hdelimiter, hlength⟩ := of_dropWhile_eq hfound
          have hdelimiter : isDelimiter found := by simpa using hdelimiter
          set part := (c :: rest).takeWhile fun c => ! isDelimiter c
          have hplain : ∀ x ∈ part, isDelimiter x = false := fun x hx => by
            simpa using mem_takeWhile_imp hx
          have hpart := bytes_part hmode hsized hplain
          conv_rhs => rw [split_of_dropWhile hfound, bytes_append, hpart]
          cases hadmit : s.admitBytes _ with
          | error e => rfl
          | ok s₁ =>
            have hsized₁ : Sized { s₁ with literal := s₁.literal ++ part } := by
              obtain ⟨hle, rfl⟩ := of_admitBytes hadmit
              exact hle
            have hmode₁ : s₁.mode = some .literal := by
              obtain ⟨-, rfl⟩ := of_admitBytes hadmit
              exact hmode
            have hbytes := bytes_delimiter (s := { s₁ with literal := s₁.literal ++ part }) hmode₁
              hdelimiter rest'
            simp only [bind, Except.bind, pure, Except.pure, prepend_nil]
            rw [hbytes]
            refine congrArg (prepend _) (ih _ ?_ (sized_finishLiteral hsized₁) _ rfl)
            have hrank (t : Lexical) : t.finishLiteral.2.rank (found :: rest') = 1 := by
              rw [rank, mode_finishLiteral]
            rw [hrank, length_cons, length_cons]
            rcases hlength with hlength | ⟨rfl, rfl⟩
            · omega
            · simp only [rank, hmode, head?_cons, Option.any_some, hdelimiter, if_true]
              omega
      next hmode =>
        simp only
        split
        next hfound =>
          obtain ⟨htake, hall⟩ := all_of_dropWhile hfound
          rw [htake, bytes_separators hmode hall]
        next first rest' hfound =>
          obtain ⟨hseparator, -⟩ := of_dropWhile_eq hfound
          have hlength := length_le_of_dropWhile hfound
          have hall : ∀ x ∈ (c :: rest).takeWhile isSeparator, isSeparator x :=
            fun x hx => mem_takeWhile_imp hx
          have hseparators := bytes_separators hmode hall
          conv_rhs => rw [split_of_dropWhile hfound, bytes_append, hseparators]
          cases hseparate : s.separate _ with
          | error e => rfl
          | ok s₁ =>
            have hmode₁ : s₁.mode = none := by rw [eq_of_separate hseparate, hmode]
            simp only [bind, Except.bind, pure, Except.pure]
            rw [bytes_token hmode₁ hseparator]
            split
            next hquote =>
              cases hadmit : admitBytes { s₁ with
                  token := s₁.token + 1, size := 0, mode := some .string } 1 with
              | error e => rfl
              | ok s₂ =>
                obtain ⟨hle, rfl⟩ := of_admitBytes hadmit
                simp only [bind, Except.bind, prepend_prepend]
                exact congrArg (prepend _) (hshorter (by exact hle) hlength)
            next hquote =>
              have hdelimiter : isDelimiter first = false := by
                simp [isDelimiter, hseparator, hquote]
              refine congrArg (prepend _) (ih _ ?_ (Nat.zero_le _) _ rfl)
              simp only [rank, hmode, head?_cons, Option.any_some, hdelimiter,
                Bool.false_eq_true, if_false, length_cons]
              omega

theorem feed_eq (hsized : s.Sized) (data : Bytes) (final : Bool) :
    s.feed data final = (do
      let (out, s) ← s.bytes data
      if final ∧ s.mode = some .literal then
        return (out ++ s.finishLiteral.1, s.finishLiteral.2)
      else return (out, s)) := by
  rw [feed, feedLoop_eq hsized]

/-! ## splits -/

theorem of_prepend {part : Bytes} {r : Except Error (Bytes × Lexical)}
    (h : prepend part r = .ok (out, s)) : ∃ out', r = .ok (out', s) ∧ out = part ++ out' := by
  rcases r with e | ⟨out', s'⟩
  · simp at h
  · rw [prepend_ok, Except.ok.injEq, Prod.mk.injEq] at h
    exact ⟨out', by rw [h.2], h.1.symm⟩

theorem sized_literalByte {c : Byte} (h : s.literalByte c = .ok (out, s')) : s'.Sized := by
  obtain ⟨s₁, hadmit, h⟩ := ok_of_bind h
  obtain ⟨hle, rfl⟩ := of_admitBytes hadmit
  rw [← (Prod.mk.inj (Except.ok.inj h)).2]
  exact hle

theorem sized_idleByte (hs : s.Sized) {c : Byte} (h : s.idleByte c = .ok (out, s')) : s'.Sized := by
  rw [idleByte] at h
  split at h
  · obtain ⟨s₁, hseparate, h⟩ := ok_of_bind h
    rw [← (Prod.mk.inj (Except.ok.inj h)).2, eq_of_separate hseparate]
    exact hs
  · simp only at h
    split at h
    · obtain ⟨s₁, hadmit, h⟩ := ok_of_bind h
      obtain ⟨hle, rfl⟩ := of_admitBytes hadmit
      rw [← (Prod.mk.inj (Except.ok.inj h)).2]
      exact hle
    · exact sized_literalByte h

theorem sized_byte (hs : s.Sized) {c : Byte} (h : s.byte c = .ok (out, s')) : s'.Sized := by
  rw [byte] at h
  split at h
  next hmode =>
    obtain ⟨s₁, hadmit, h⟩ := ok_of_bind h
    obtain ⟨hle, rfl⟩ := of_admitBytes hadmit
    rw [← (Prod.mk.inj (Except.ok.inj h)).2]
    simp only [Sized, limit, hmode] at hle ⊢
    split
    · exact hle
    · split
      · exact hle
      · split <;> simpa using hle
  next =>
    split at h
    · obtain ⟨out', h, -⟩ := of_prepend h
      exact sized_idleByte (sized_finishLiteral hs) h
    · exact sized_literalByte h
  next => exact sized_idleByte hs h

theorem sized_bytes (hs : s.Sized) (h : s.bytes data = .ok (out, s')) : s'.Sized := by
  induction data generalizing s out with
  | nil => rwa [← (Prod.mk.inj (Except.ok.inj h)).2]
  | cons c data ih =>
    obtain ⟨⟨out₁, s₁⟩, hbyte, h⟩ := ok_of_bind h
    obtain ⟨out₂, h, -⟩ := of_prepend h
    exact ih (sized_byte hs hbyte) h

theorem feed_append (hs : s.Sized) (data data' : Bytes) (final : Bool) :
    s.feed (data ++ data') final = (do
      let (out, s) ← s.feed data false
      prepend out (s.feed data' final)) := by
  rw [feed_eq hs, feed_eq hs, bytes_append]
  cases hbytes : s.bytes data with
  | error e => rfl
  | ok r =>
    obtain ⟨out, s'⟩ := r
    have hs' := sized_bytes hs hbytes
    simp only [bind, Except.bind, Bool.false_eq_true, false_and, if_false, pure, Except.pure,
      feed_eq hs']
    rcases s'.bytes data' with e | ⟨out', s''⟩
    · rfl
    · simp only [prepend_ok]
      split <;> simp

/-- **How a text is split does not matter.** -/
theorem run_eq (hs : s.Sized) {chunks : List Bytes} (hne : chunks ≠ []) :
    s.run chunks = s.feed chunks.flatten true := by
  induction chunks generalizing s with
  | nil => contradiction
  | cons data chunks ih =>
    cases chunks with
    | nil => simp [run]
    | cons data' chunks =>
      rw [run, flatten_cons, feed_append hs]
      · cases hfeed : s.feed data false with
        | error e => rfl
        | ok r =>
          obtain ⟨out, s'⟩ := r
          have hs' : s'.Sized := by
            rw [feed_eq hs] at hfeed
            obtain ⟨⟨out', s''⟩, hbytes, hfeed⟩ := ok_of_bind hfeed
            obtain ⟨-, rfl⟩ := Prod.mk.inj (Except.ok.inj hfeed)
            exact sized_bytes hs hbytes
          exact congrArg (prepend out) (ih hs' (by simp))
      · simp

end Lexical

end Codexon.JsonLexical
