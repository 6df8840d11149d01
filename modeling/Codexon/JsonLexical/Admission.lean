import Codexon.JsonLexical.Exact

/-!
# Codexon.JsonLexical.Admission

What `_material_admitted` admits, the filter reads without raising.
-/

namespace Codexon.JsonLexical

open List

open Lexical

/-- The filter raises nothing. -/
def Accepts (s : Lexical) (data : Bytes) : Prop := ∃ r, s.bytes data = .ok r

variable {depth : Nat} {s : Lexical} {rest : Bytes}

theorem accepts_append {s' : Lexical} {data out : Bytes} (h : s.bytes data = .ok (out, s'))
    (h' : Accepts s' rest) : Accepts s (data ++ rest) := by
  obtain ⟨⟨out', s''⟩, h'⟩ := h'
  exact ⟨(out ++ out', s''), by rw [bytes_append_ok h, h', prepend_ok]⟩

theorem accepts_cons {s' : Lexical} {c : Byte} {out : Bytes} (h : s.byte c = .ok (out, s'))
    (h' : Accepts s' rest) : Accepts s (c :: rest) := by
  obtain ⟨⟨out', s''⟩, h'⟩ := h'
  exact ⟨(out ++ out', s''), by rw [bytes_cons_ok h, h', prepend_ok]⟩

theorem Steps.accepts {depth' : Nat} {data : Bytes} (h : Steps depth data depth')
    (hs : Idle depth s) (hrest : ∀ s', Idle depth' s' → Accepts s' rest) :
    Accepts s (data ++ rest) := by
  obtain ⟨s', hs', hbytes⟩ := h s hs
  exact accepts_append hbytes (hrest s' hs')

/-! ## outside of strings -/

/-- In a literal, whose bytes in `rest` are within the limit. -/
structure Reading (depth : Nat) (rest : Bytes) (s : Lexical) : Prop where
  mode : s.mode = some .literal
  escaped : s.escaped = false
  depth : s.depth = depth
  size : s.size + (rest.takeWhile fun c => ! isDelimiter c).length ≤ literalBytes

/-- Outside of strings, after the byte `before`. -/
def Outside (depth : Nat) (before : Option Byte) (rest : Bytes) (s : Lexical) : Prop :=
  if before.all isDelimiter then Idle depth s else Reading depth rest s

variable {before : Option Byte}

theorem accepts_delimiter {c : Byte} (hs : Outside depth before (c :: rest) s) (hc : isDelimiter c)
    (h : ∀ s', Idle depth s' → Accepts s' (c :: rest)) : Accepts s (c :: rest) := by
  rw [Outside] at hs
  split at hs
  · exact h s hs
  · have hsized : s.Sized := by
      have := hs.size
      simp only [Sized, limit, hs.mode, if_true]
      omega
    obtain ⟨⟨out, s'⟩, hbytes⟩ := h _ (idle_finishLiteral hs.escaped hs.depth hsized)
    exact ⟨(s.finishLiteral.1 ++ out, s'), by rw [bytes_delimiter hs.mode hc, hbytes, prepend_ok]⟩

theorem takeWhile_of_not {c : Byte} (hc : isDelimiter c = false) (rest : Bytes) :
    ((c :: rest).takeWhile fun c => ! isDelimiter c).length =
      (rest.takeWhile fun c => ! isDelimiter c).length + 1 := by
  simp [hc]

theorem byte_of_not_delimiter {c : Byte}
    (hs : Outside depth before (c :: rest) s) (hc : isDelimiter c = false)
    (hshort : before.all isDelimiter →
      ((c :: rest).takeWhile fun c => ! isDelimiter c).length ≤ literalBytes) :
    ∃ s', Outside depth (some c) rest s' ∧ s.byte c = .ok ([], s') := by
  have houtside {s' : Lexical} (h : Reading depth rest s') : Outside depth (some c) rest s' := by
    simpa [Outside, hc] using h
  rw [Outside] at hs
  split at hs
  next hbefore =>
    have hlength := hshort hbefore
    rw [takeWhile_of_not hc] at hlength
    have hfirst := hc
    simp only [isDelimiter, Bool.or_eq_false_iff, decide_eq_false_iff_not] at hfirst
    refine ⟨{ s with
        token := s.token + 1, size := 0 + 1, mode := some .literal, literal := s.literal ++ [c] },
      houtside ⟨rfl, hs.escaped, hs.depth, ?_⟩, ?_⟩
    · simp only
      omega
    · simp only [byte, hs.mode, idleByte, hfirst, Bool.false_eq_true, if_false, literalByte]
      rw [admitBytes_of_le (by simp only [limit, if_true]; omega)]
      rfl
  next =>
    have hlength := hs.size
    rw [takeWhile_of_not hc] at hlength
    refine ⟨{ s with size := s.size + 1, literal := s.literal ++ [c] },
      houtside ⟨hs.mode, hs.escaped, hs.depth, ?_⟩, ?_⟩
    · simp only
      omega
    · simp only [byte, hs.mode, hc, Bool.false_eq_true, if_false, literalByte]
      rw [admitBytes_of_le (by simp only [limit, hs.mode, if_true]; omega)]
      simp [hs.mode, bind, Except.bind, pure, Except.pure]

theorem accepts_of_findMarker (hdepth : depth ≤ maxDepth) (hs : Outside depth before rest s)
    (hnext : ∀ k ∈ findMarker before rest, ∃ c tail, rest.drop k = c :: tail ∧ isDelimiter c ∧
      ∀ s', Idle depth s' → Accepts s' (c :: tail)) : Accepts s rest := by
  induction rest generalizing before s with
  | nil => exact ⟨([], s), rfl⟩
  | cons c rest ih =>
    by_cases hmarker : findMarker before (c :: rest) = some 0
    · obtain ⟨c', tail, htail, hc, h⟩ := hnext 0 hmarker
      obtain ⟨rfl, rfl⟩ : c = c' ∧ rest = tail := by simpa using htail
      exact accepts_delimiter hs hc h
    · rw [findMarker] at hmarker hnext
      split at hmarker
      · contradiction
      next hplain =>
        rw [if_neg hplain] at hnext
        split at hmarker
        · contradiction
        next hshort =>
          rw [if_neg hshort] at hnext
          have hnext' : ∀ k ∈ findMarker (some c) rest, ∃ c' tail, rest.drop k = c' :: tail ∧
              isDelimiter c' ∧ ∀ s', Idle depth s' → Accepts s' (c' :: tail) := by
            intro k hk
            have := hnext (k + 1) (by simpa using hk)
            simpa using this
          push Not at hplain hshort
          cases hc : isDelimiter c with
          | true =>
            refine accepts_delimiter hs hc fun s' hs' => ?_
            have hseparator : isSeparator c := by
              simpa [isDelimiter, hplain.1] using hc
            have hsteps : Steps depth [c] depth :=
              steps_flat hdepth (by simpa [hseparator] using hplain.2)
            refine hsteps.accepts hs' fun s'' hs'' => ?_
            have houtside : Outside depth (some c) rest s'' := by simpa [Outside, hc] using hs''
            exact ih houtside hnext'
          | false =>
            obtain ⟨s', hs', hbyte⟩ := byte_of_not_delimiter hs hc hshort
            exact accepts_cons hbyte (ih hs' hnext')

/-! ## strings -/

theorem backslashes_append (bs : Bytes) (c : Byte) :
    backslashes (bs ++ [c]) = if c = 92 then backslashes bs + 1 else 0 := by
  rw [backslashes, reverse_append]
  by_cases hc : c = 92 <;> simp [backslashes, hc]

theorem closing_spec {body : Bytes} {place e : Nat} (h : closing body place = some e) :
    body[e]? = some 34 ∧ backslashes (body.take e) % 2 = 0 ∧
      ∀ j, place ≤ j → j < e → body[j]? = some 34 → backslashes (body.take j) % 2 = 1 := by
  induction hn : body.length - place using Nat.strong_induction_on generalizing place with
  | _ n ih =>
    rw [closing] at h
    split at h
    · simp at h
    next k hfound =>
      obtain ⟨hlt, hquote, hbefore⟩ := findIdx?_eq_some_iff_getElem.mp hfound
      rw [length_drop] at hlt
      have hk : body[place + k]? = some 34 := by
        rw [List.getElem?_eq_getElem (by omega)]
        simpa using hquote
      have hplain {j : Nat} (hj : place ≤ j) (hjk : j < place + k) : body[j]? ≠ some 34 := by
        have := hbefore (j - place) (by omega)
        rw [List.getElem_drop] at this
        rw [List.getElem?_eq_getElem (by omega)]
        simpa [Nat.add_sub_of_le hj] using this
      split at h
      next heven =>
        obtain rfl := Option.some.inj h
        exact ⟨hk, heven, fun j hj hlt h => absurd h (hplain hj hlt)⟩
      next hodd =>
        obtain ⟨hend, heven, hbetween⟩ := ih _ (by omega) h rfl
        refine ⟨hend, heven, fun j hj hlt h => ?_⟩
        rcases Nat.lt_trichotomy j (place + k) with hjk | rfl | hjk
        · exact absurd h (hplain hj hjk)
        · omega
        · exact hbetween j hjk hlt h

theorem bytes_body {body : Bytes} {e : Nat} (hs : Inside depth 1 false s)
    (hsize : e + 2 ≤ tokenBytes)
    (hbetween : ∀ j < e, body[j]? = some 34 → backslashes (body.take j) % 2 = 1) (j : Nat)
    (hj : j ≤ e) (hlength : e ≤ body.length) :
    ∃ s', Inside depth (1 + j) (backslashes (body.take j) % 2 = 1) s' ∧
      s.bytes (body.take j) = .ok (body.take j, s') := by
  induction j with
  | zero => exact ⟨s, by simpa [backslashes] using hs, rfl⟩
  | succ j ih =>
    obtain ⟨s', hs', hbytes⟩ := ih (by omega)
    have hget := List.getElem?_eq_getElem (l := body) (i := j) (by omega)
    have htake : body.take (j + 1) = body.take j ++ [body[j]] := by
      rw [take_add_one, hget]
      rfl
    have hquote := hbetween j hj
    rw [hget, Option.some.injEq] at hquote
    rw [htake, backslashes_append, bytes_append_ok hbytes]
    generalize body[j] = c at hquote ⊢
    refine ⟨_, ?_, by
      rw [bytes, byte, hs'.mode]
      simp only [stringByte]
      rw [admitBytes_of_le (by rw [limit_of_string hs'.mode, hs'.size]; omega)]
      rfl⟩
    have hescaped := hs'.escaped
    by_cases hodd : backslashes (body.take j) % 2 = 1
    · have heven : (backslashes (body.take j) + 1) % 2 ≠ 1 := by omega
      simp only [hodd, decide_true] at hescaped
      simp only [hescaped, if_true]
      refine ⟨hs'.mode, ?_, hs'.literal, hs'.depth, by simp only [hs'.size]; omega⟩
      split <;> simp [heven]
    · have hescaped' : (backslashes (body.take j) + 1) % 2 = 1 := by omega
      have hne : c ≠ 34 := fun h => hodd (hquote h)
      simp only [hodd, decide_false] at hescaped
      simp only [hescaped, Bool.false_eq_true, if_false, if_neg hne]
      split
      · exact ⟨hs'.mode, by simp [hescaped'], hs'.literal, hs'.depth,
          by simp only [hs'.size]; omega⟩
      · exact ⟨hs'.mode, by simp, hs'.literal, hs'.depth,
          by simp only [hs'.size]; omega⟩

theorem steps_string {body : Bytes} {e : Nat} (h : closing body 0 = some e)
    (hsize : e + 2 ≤ tokenBytes) : Steps depth (34 :: body.take (e + 1)) depth := by
  intro s hs
  obtain ⟨hend, heven, hbetween⟩ := closing_spec h
  have hlt : e < body.length := (List.getElem?_eq_some_iff.mp hend).1
  obtain ⟨s₁, hs₁, hopen⟩ := byte_open hs
  obtain ⟨s₂, hs₂, hbytes⟩ := bytes_body hs₁ hsize (fun j hj => hbetween j (Nat.zero_le j) hj)
    e le_rfl hlt.le
  simp only [heven, Nat.zero_ne_one, decide_false] at hs₂
  obtain ⟨s₃, hs₃, hclose⟩ := byte_close hs₂ (by omega)
  refine ⟨s₃, hs₃, ?_⟩
  rw [take_add_one, hend, bytes_cons_ok hopen, Option.toList_some, bytes_append_ok hbytes,
    bytes_cons_ok hclose]
  rfl

/-! ## the walk -/

variable {κ : Type} [DecidableEq κ] {check : Nat → Except Error Unit}
  {loads : Bytes → Except Error κ}

theorem length_noteName {stack stack' : List (Opened κ)} {name after : Bytes}
    (h : noteName loads stack name after = .ok stack') : stack'.length = stack.length := by
  cases stack with
  | nil => rw [← Except.ok.inj h]
  | cons top below =>
    rw [noteName] at h
    split at h
    · rw [← Except.ok.inj h]
    · split at h
      · obtain ⟨key, -, h⟩ := ok_of_bind h
        split at h
        · simp at h
        · rw [← Except.ok.inj h]
          rfl
      · rw [← Except.ok.inj h]

theorem ok_of_checked {p : Prop} [Decidable p] {checked : Except Error Unit}
    {r : Except Error Bool} {b : Bool}
    (h : (if p then do checked; r else r) = .ok b) : r = .ok b := by
  split at h
  · obtain ⟨-, -, h⟩ := ok_of_bind h
    exact h
  · exact h

theorem of_materialLoop {stack : List (Opened κ)} {position nextCheck : Nat}
    (h : materialLoop check loads stack position nextCheck before rest = .ok true) {k : Nat}
    (hk : findMarker before rest = some k) :
    ∃ byte tail, rest.drop k = byte :: tail ∧ ∃ stack' position' nextCheck',
      (byte = 34 ∧ (∃ e, closing tail 0 = some e ∧ e + 2 ≤ tokenBytes ∧
          stack'.length = stack.length ∧
          materialLoop check loads stack' position' nextCheck' (some 34) (tail.drop (e + 1)) =
            .ok true) ∨
        isOpening byte ∧ stack'.length = stack.length + 1 ∧ stack.length < maxDepth ∧
          materialLoop check loads stack' position' nextCheck' (some byte) tail = .ok true ∨
        isClosing byte ∧ stack.length = stack'.length + 1 ∧
          materialLoop check loads stack' position' nextCheck' (some byte) tail = .ok true) := by
  rw [materialLoop, hk] at h
  simp only at h
  split at h
  · simp [pure, Except.pure] at h
  next byte tail hdrop =>
    refine ⟨byte, tail, hdrop, ?_⟩
    generalize (if nextCheck ≤ position + k then position + k + chunkBytes else nextCheck) =
      nextCheck' at h
    replace h := ok_of_checked h
    split at h
    next hquote =>
      split at h
      · simp [pure, Except.pure] at h
      next e he =>
        split at h
        · simp [bind, Except.bind, throw, throwThe, MonadExceptOf.throw] at h
        next hsize =>
          split at h
          · simp [pure, Except.pure] at h
          · obtain ⟨stack', hnote, h⟩ := ok_of_bind h
            exact ⟨stack', _, _, .inl ⟨hquote, e, he, not_lt.mp hsize, length_noteName hnote, h⟩⟩
    next =>
      split at h
      next hopening =>
        generalize (if byte = 123 ∧ stack.length < 2 then some [] else none) = seen at h
        split at h
        · simp [bind, Except.bind, throw, throwThe, MonadExceptOf.throw] at h
        next hdeep =>
          rw [length_cons] at hdeep
          exact ⟨_, _, _, .inr (.inl ⟨hopening, rfl, by omega, h⟩)⟩
      next =>
        split at h
        next hclosing =>
          split at h
          · simp [pure, Except.pure] at h
          next top below =>
            generalize (if byte = 125 then (123 : Byte) else 91) = opening at h
            split at h
            · simp [pure, Except.pure] at h
            · split at h
              · simp [pure, Except.pure] at h
              · exact ⟨below, _, _, .inr (.inr ⟨hclosing, rfl, h⟩)⟩
        next => simp [throw, throwThe, MonadExceptOf.throw] at h

theorem accepts_of_materialLoop {stack : List (Opened κ)} {position nextCheck : Nat}
    (hbefore : before.all isDelimiter) (hstack : stack.length ≤ maxDepth) (hs : Idle stack.length s)
    (h : materialLoop check loads stack position nextCheck before rest = .ok true) :
    Accepts s rest := by
  induction hn : rest.length using Nat.strong_induction_on
    generalizing s stack position nextCheck before rest with
  | _ n ih =>
    have houtside : Outside stack.length before rest s := by simpa [Outside, hbefore] using hs
    refine accepts_of_findMarker hstack houtside fun k hk => ?_
    obtain ⟨byte, tail, hdrop, stack', position', nextCheck', h⟩ := of_materialLoop h hk
    have hlength : tail.length < n := by
      have := congrArg List.length hdrop
      simp only [length_drop, length_cons] at this
      omega
    refine ⟨byte, tail, hdrop, ?_⟩
    rcases h with ⟨rfl, e, he, hsize, hstack', h⟩ | ⟨hopening, hstack', hlt, h⟩ |
      ⟨hclosing, hstack', h⟩
    · have hsplit : 34 :: tail = (34 :: tail.take (e + 1)) ++ tail.drop (e + 1) := by
        rw [cons_append, take_append_drop]
      refine ⟨by decide, fun s' hs' => ?_⟩
      rw [hsplit]
      refine (steps_string he hsize).accepts hs' fun s'' hs'' => ?_
      rw [← hstack'] at hs'' hstack
      refine ih _ ?_ (by decide) hstack hs'' h rfl
      rw [length_drop]
      omega
    · have hdelimiter : isDelimiter byte := by simp [isDelimiter, isSeparator, hopening]
      refine ⟨hdelimiter, fun s' hs' => ?_⟩
      refine (steps_opening hopening hlt).accepts hs' fun s'' hs'' => ?_
      rw [← hstack'] at hs''
      exact ih _ hlength (by simpa using hdelimiter) (by omega) hs'' h rfl
    · have hdelimiter : isDelimiter byte := by simp [isDelimiter, isSeparator, hclosing]
      refine ⟨hdelimiter, fun s' hs' => ?_⟩
      rw [hstack'] at hs' hstack
      refine (steps_closing hclosing (by omega)).accepts hs' fun s'' hs'' => ?_
      exact ih _ hlength (by simpa using hdelimiter) (by omega) hs'' h rfl

/-- **Admission**: what is admitted is read in one feed. -/
theorem feed_of_materialAdmitted {raw : Bytes} (h : materialAdmitted check loads raw = .ok true) :
    ∃ r, ({} : Lexical).feed raw true = .ok r := by
  rw [materialAdmitted] at h
  split at h
  · simp at h
  · have hidle : Idle 0 {} := ⟨rfl, rfl, rfl, rfl, Nat.zero_le _⟩
    obtain ⟨⟨out, s⟩, hbytes⟩ := accepts_of_materialLoop (by rfl) (Nat.zero_le _)
      (by simpa using hidle) h
    rw [feed_eq hidle.sized, hbytes]
    simp only [bind, Except.bind]
    split <;> exact ⟨_, rfl⟩

/-! ## the whole filter -/

/-- **The filter.** How a text is split does not matter; a text within the limits comes out with
`null` for the numbers that JSON lacks; and what is admitted is read. -/
theorem lexical_filter {κ : Type} [DecidableEq κ] (check : Nat → Except Error Unit)
    (loads : Bytes → Except Error κ) : (∀ chunks chunks' : List Bytes, chunks ≠ [] → chunks' ≠ [] →
      chunks.flatten = chunks'.flatten → ({} : Lexical).run chunks = ({} : Lexical).run chunks') ∧
    (∀ doc : Document, doc.value.Fits 0 → ∀ chunks : List Bytes, chunks ≠ [] →
      chunks.flatten = doc.text → (({} : Lexical).run chunks).map Prod.fst = .ok doc.replaced) ∧
    (∀ raw, materialAdmitted check loads raw = .ok true → ∀ chunks : List Bytes, chunks ≠ [] →
      chunks.flatten = raw → ∃ r, ({} : Lexical).run chunks = .ok r) := by
  have hsized : Sized {} := Nat.zero_le _
  refine ⟨fun chunks chunks' hne hne' heq => ?_, fun doc hfits chunks hne heq => ?_,
    fun raw h chunks hne heq => ?_⟩
  · rw [run_eq hsized hne, run_eq hsized hne', heq]
  · rw [run_eq hsized hne, heq]
    exact output_document doc hfits
  · rw [run_eq hsized hne, heq]
    exact feed_of_materialAdmitted h

def noSpaces : Spaces := ⟨[], by simp⟩

def nestedArrays : Nat → Value
  | 0 => .emptyArray noSpaces
  | n + 1 => .array (.one noSpaces (nestedArrays n) noSpaces)

theorem lexical_filter_literal :
    materialAdmitted (fun _ => .ok ()) (κ := Nat) (fun _ => .ok 0) (ascii "[NaN]") = .ok true ∧
      ({} : Lexical).run [ascii "[Na", ascii "N]"] = ({} : Lexical).run [ascii "[NaN]"] ∧
      (({} : Lexical).run [ascii "[Na", ascii "N]"]).map Prod.fst = .ok (ascii "[null]") ∧
      ∃ r, ({} : Lexical).run [ascii "[Na", ascii "N]"] = .ok r := by
  obtain ⟨hsplits, hexact, hadmitted⟩ :=
    lexical_filter (κ := Nat) (fun _ => .ok ()) (fun _ => .ok 0)
  have h : materialAdmitted (fun _ => .ok ()) (κ := Nat) (fun _ => .ok 0) (ascii "[NaN]") =
      .ok true := by decide +kernel
  exact ⟨h, hsplits _ _ (by simp) (by simp) (by decide),
    hexact ⟨noSpaces, .array (.one noSpaces (.literal (.nonfinite .nan)) noSpaces), noSpaces⟩
      ⟨by decide, show (ascii "NaN").length ≤ literalBytes by decide⟩ _ (by simp)
      (by decide +kernel),
    hadmitted _ h _ (by simp) (by decide)⟩

/-- Sixty-five arrays are valid JSON, and too deep. -/
theorem nested_arrays_raise :
    ({} : Lexical).run [Document.text ⟨noSpaces, nestedArrays 64, noSpaces⟩] =
      .error .depthBudget := by
  rw [Lexical.run, feed_eq (Nat.zero_le _)]
  decide +kernel

end Codexon.JsonLexical
