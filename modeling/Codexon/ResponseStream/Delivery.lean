import Codexon.ResponseStream.Framing

/-!
# Codexon.ResponseStream.Delivery

The framer follows the reading of its stream, a byte at a time (`At`), so what
`ResponseMetadata` delivers is known from the marked bytes alone.  Any selector
whose fields depend on the bytes it was fed, and `SelectedJSON` is one, calls
back the fields of the recorded payloads.
-/

namespace Codexon

open List

def recorder : Selector Bytes Bytes where
  new := []
  feed s data := s ++ data
  finish s := (s, s)
  truthy _ := true
  error _ := none

namespace EventFramer

/-! ## pieces and bytes -/

theorem piece_nil (s : EventFramer Bytes Bytes) : s.piece recorder [] = s := if_pos rfl

variable {s : EventFramer Bytes Bytes}

theorem piece_data (h : s.field = some .data) (c : Byte)
    (data : Bytes) :
    s.piece recorder (c :: data) =
      { s with
        lineNonempty := true
        hadData := true
        firstValue := false
        json := s.json ++ if s.firstValue ∧ c = 32 then data else c :: data } := by
  cases hfirst : s.firstValue <;> by_cases hc : c = 32 <;> simp [piece, h, hfirst, hc, recorder]

theorem piece_ignore (h : s.field = some .ignore) (c : Byte)
    (data : Bytes) : s.piece recorder (c :: data) = { s with lineNonempty := true } := by
  simp [piece, h]

theorem piece_cons (s : EventFramer Bytes Bytes) (c : Byte) (data : Bytes) :
    s.piece recorder (c :: data) = (s.piece recorder [c]).piece recorder data := by
  cases data with
  | nil => rw [piece_nil]
  | cons d data =>
    cases hfield : s.field with
    | some field =>
      cases field with
      | data =>
        rw [piece_data hfield, piece_data hfield, piece_data (by simpa using hfield)]
        by_cases hspace : s.firstValue ∧ c = 32 <;> simp [hspace]
      | ignore =>
        rw [piece_ignore hfield, piece_ignore hfield, piece_ignore (by simpa using hfield)]
    | none =>
      by_cases hc : c = 58
      · by_cases hbefore : s.before = ascii "data"
        · simp [piece, findField, hfield, hc, hbefore, recorder]
        · simp [piece, findField, hfield, hc, hbefore]
      · by_cases hlen : s.before.length < 5
        · simp [piece, hfield, findField, hc, hlen]
        · simp [piece, findField, hfield, hc, hlen]

@[simp] theorem skipLf_piece (s : EventFramer Bytes Bytes) (c : Byte) :
    (s.piece recorder [c]).skipLf = s.skipLf := by
  cases hfield : s.field with
  | some field =>
    cases field with
    | data => rw [piece_data hfield]
    | ignore => rw [piece_ignore hfield]
  | none =>
    by_cases hc : c = 58
    · by_cases hbefore : s.before = ascii "data" <;> simp [piece, findField, hfield, hc, hbefore]
    · by_cases hlen : s.before.length < 5 <;> simp [piece, findField, hfield, hc, hlen]

@[simp] theorem skipLf_newline (s : EventFramer Bytes Bytes) :
    (s.newline recorder).skipLf = s.skipLf := by
  unfold newline
  cases s.lineNonempty <;> by_cases hfield : s.field = some .data <;> simp [hfield]

theorem lines_nil (s : EventFramer Bytes Bytes) : s.lines recorder [] = s := by
  rw [lines, if_pos rfl]

theorem lines_eq {σ φ : Type} (sel : Selector σ φ) (s : EventFramer σ φ) (data : Bytes) :
    s.lines sel data =
      match data.dropWhile (!endsLine ·) with
      | [] => s.piece sel (data.takeWhile (!endsLine ·))
      | c :: rest =>
        let s := (s.piece sel (data.takeWhile (!endsLine ·))).newline sel
        if c = carriageReturn then
          match rest with
          | [] => { s with skipLf := true }
          | d :: more => if d = lineFeed then s.lines sel more else s.lines sel (d :: more)
        else s.lines sel rest := by
  by_cases hdata : data = []
  · rw [hdata, lines, if_pos rfl, dropWhile_nil, takeWhile_nil]
    exact (if_pos rfl).symm
  · rw [lines, if_neg hdata]
    split
    · next h => simp only [h]
    · next c rest h =>
      simp only [h]
      cases rest <;> rfl

theorem lines_byte (s : EventFramer Bytes Bytes) {c : Byte} (hc : endsLine c = false)
    (data : Bytes) : s.lines recorder (c :: data) = (s.piece recorder [c]).lines recorder data := by
  rw [lines_eq, lines_eq recorder _ data, dropWhile_cons_of_pos (by simp [hc]),
    takeWhile_cons_of_pos (by simp [hc]), piece_cons]

theorem lines_lineFeed (s : EventFramer Bytes Bytes) (data : Bytes) :
    s.lines recorder (lineFeed :: data) = (s.newline recorder).lines recorder data := by
  rw [lines_eq, dropWhile_cons_of_neg (by decide), takeWhile_cons_of_neg (by decide),
    piece_nil]
  exact if_neg (by decide)

theorem lines_carriageReturn (s : EventFramer Bytes Bytes) (data : Bytes) :
    s.lines recorder (carriageReturn :: data) =
      match data with
      | [] => { s.newline recorder with skipLf := true }
      | d :: more =>
        if d = lineFeed then (s.newline recorder).lines recorder more
        else (s.newline recorder).lines recorder (d :: more) := by
  rw [lines_eq, dropWhile_cons_of_neg (by decide), takeWhile_cons_of_neg (by decide),
    piece_nil]
  exact if_pos rfl

/-! ## one byte at a time -/

def plain (s : EventFramer Bytes Bytes) : EventFramer Bytes Bytes := { s with skipLf := false }

theorem plain_eq (h : s.skipLf = false) : s.plain = s := by
  obtain ⟨json, before, field, firstValue, lineNonempty, hadData, skipLf, called⟩ := s
  cases h
  rfl

theorem feed_nil (s : EventFramer Bytes Bytes) : s.feed recorder [] = s.plain := by
  simp [feed, lines_nil, plain]

theorem feed_skip (h : s.skipLf = true) (data : Bytes) :
    s.feed recorder (lineFeed :: data) = s.plain.lines recorder data := by
  simp [feed, h, plain]

theorem feed_plain {c : Byte} (h : ¬ (s.skipLf = true ∧ c = lineFeed))
    (data : Bytes) : s.feed recorder (c :: data) = s.plain.lines recorder (c :: data) := by
  simp [feed, h, plain]

theorem feed_cons (s : EventFramer Bytes Bytes) (c d : Byte) (data : Bytes) :
    s.feed recorder (c :: d :: data) = (s.feed recorder [c]).feed recorder (d :: data) := by
  have hskip (t : EventFramer Bytes Bytes) (h : t.skipLf = false) :
      t.feed recorder (d :: data) = t.lines recorder (d :: data) := by
    rw [feed_plain (by simp [h]), plain_eq h]
  by_cases h : s.skipLf = true ∧ c = lineFeed
  · obtain ⟨hs, rfl⟩ := h
    rw [feed_skip hs, feed_skip hs, lines_nil, hskip _ rfl]
  · rw [feed_plain h, feed_plain h]
    by_cases hend : endsLine c = false
    · rw [lines_byte _ hend, lines_byte _ hend, lines_nil, hskip _ (by simp [plain])]
    · by_cases hc : c = lineFeed
      · subst hc
        rw [lines_lineFeed, lines_lineFeed, lines_nil, hskip _ (by simp [plain])]
      · obtain rfl : c = carriageReturn := by simpa [endsLine, hc] using hend
        rw [lines_carriageReturn, lines_carriageReturn]
        by_cases hd : d = lineFeed
        · subst hd
          rw [feed_skip rfl]
          simp only [if_true]
          congr 1
          exact (plain_eq (by simp [plain])).symm
        · rw [feed_plain (by simp [hd])]
          simp only [hd, if_false]
          congr 1
          exact (plain_eq (by simp [plain])).symm

def mark (s : EventFramer Bytes Bytes) (m : Option Byte) : EventFramer Bytes Bytes :=
  s.feed recorder m.toList

theorem foldl_mark (data : Bytes) (hdata : data ≠ []) : ∀ s : EventFramer Bytes Bytes,
    (data.map some).foldl mark s = s.feed recorder data := by
  induction data with
  | nil => exact absurd rfl hdata
  | cons c data ih =>
    intro s
    cases data with
    | nil => rfl
    | cons d data =>
      rw [map_cons, foldl_cons, ih (cons_ne_nil d data), feed_cons]
      rfl

theorem foldl_feed (pieces : List Bytes) : ∀ s : EventFramer Bytes Bytes,
    pieces.foldl (feed recorder) s = (marks pieces).foldl mark s := by
  induction pieces with
  | nil => exact fun _ => rfl
  | cons piece pieces ih =>
    intro s
    have hmarks : marks (piece :: pieces) =
        (if piece = [] then [none] else piece.map some) ++ marks pieces := flatMap_cons
    rw [foldl_cons, ih, hmarks, foldl_append]
    congr 1
    split
    · next hpiece =>
      rw [hpiece]
      rfl
    · next hpiece => exact (foldl_mark piece hpiece s).symm

/-! ## the framer at a place of its stream -/

def Field (s : EventFramer Bytes Bytes) (line : Bytes) : Prop :=
  match s.field with
  | none => s.before = line ∧ line.length ≤ 5 ∧ 58 ∉ line ∧ s.firstValue = false
  | some .data => ∃ value, line = ascii "data:" ++ value ∧ (s.firstValue = true ↔ value = [])
  | some .ignore => ∀ rest, ¬ ascii "data:" <+: line ++ rest

/-- The framer has delivered these payloads, holds the open event's payload
and the unfinished line. -/
structure At (s : EventFramer Bytes Bytes) (t : List Bytes × Option Bytes) (line : Bytes) : Prop where
  called : s.called = t.1
  json : s.json = t.2.getD [] ++ (dataOf line).getD []
  hadData : s.hadData = (t.2.isSome || (dataOf line).isSome)
  lineNonempty : s.lineNonempty = true ↔ line ≠ []
  field : s.Field line

variable {line : Bytes}

theorem dataOf_eq_none (h : ¬ ascii "data:" <+: line) : dataOf line = none := if_neg
    h

theorem dataOf_data (value : Bytes) :
    dataOf (ascii "data:" ++ value) = some (if value.head? = some 32 then value.tail else value) := by
  rw [dataOf, if_pos (prefix_append _ _)]
  rfl

theorem not_data_of_colon (h : 58 ∉ line) : ¬ ascii "data:" <+: line := fun hpre =>
  h (hpre.subset (by decide))

theorem not_data_of_before {before : Bytes} (hcolon : 58 ∉ before) (h : before ≠ ascii "data")
    (rest : Bytes) : ¬ ascii "data:" <+: (before ++ [58]) ++ rest := by
  rintro ⟨value, hvalue⟩
  have hdata : (ascii "data:" ++ value).takeWhile (· ≠ 58) = ascii "data" := rfl
  rw [hvalue, append_assoc, takeWhile_append_of_pos fun c hc => by
    simpa using fun heq : c = 58 => hcolon (heq ▸ hc)] at hdata
  exact h (by simpa using hdata)

theorem At.piece_unknown {t : List Bytes × Option Bytes}

    (h : s.At t line) (hfield : s.field = none) (c : Byte) :
    (s.piece recorder [c]).At t (line ++ [c]) := by
  obtain ⟨hcalled, hjson, hdata, -, hknown⟩ := h
  simp only [Field, hfield] at hknown
  obtain ⟨rfl, hlen, hcolon, hfirst⟩ := hknown
  have hnone : dataOf s.before = none := dataOf_eq_none (not_data_of_colon hcolon)
  rw [hnone] at hjson hdata
  by_cases hc : c = 58
  · subst hc
    by_cases hbefore : s.before = ascii "data"
    · have hpiece : s.piece recorder [58] = { s with
          lineNonempty := true
          field := some .data
          firstValue := true
          hadData := true
          json := s.json ++ [] } := by
        simp [EventFramer.piece, findField, hfield, hbefore, recorder]
      have hempty : dataOf (ascii "data" ++ [58]) = some [] := by decide
      rw [hpiece, hbefore]
      exact ⟨hcalled, by simp [hjson, hempty], by simp [hempty], by simp, [], rfl, by simp⟩
    · have hpiece : s.piece recorder [58] = { s with
          lineNonempty := true
          field := some .ignore
          firstValue := true } := by
        simp [EventFramer.piece, findField, hfield, hbefore]
      have hno := not_data_of_before hcolon hbefore
      have hnone' := dataOf_eq_none (List.append_nil (s.before ++ [58]) ▸ hno [])
      rw [hpiece]
      exact ⟨hcalled, hnone' ▸ hjson, hnone' ▸ hdata, by simp, hno⟩
  · have hcolon' : 58 ∉ s.before ++ [c] := by simp [hcolon, Ne.symm hc]
    have hnone' := dataOf_eq_none (not_data_of_colon hcolon')
    by_cases hshort : s.before.length < 5
    · have hpiece : s.piece recorder [c] = { s with
          lineNonempty := true
          before := s.before ++ [c] } := by
        simp [EventFramer.piece, findField, hfield, hc, hshort]
      rw [hpiece]
      refine ⟨hcalled, hnone' ▸ hjson, hnone' ▸ hdata, by simp, ?_⟩
      simp only [Field, hfield]
      exact ⟨trivial, by simp; omega, hcolon', hfirst⟩
    · have hpiece : s.piece recorder [c] = { s with
          lineNonempty := true
          field := some .ignore } := by
        simp [EventFramer.piece, findField, hfield, hc, hshort]
      rw [hpiece]
      refine ⟨hcalled, hnone' ▸ hjson, hnone' ▸ hdata, by simp, fun rest hpre => ?_⟩
      -- the first five bytes are known, and no colon is among them
      have hfive : ascii "data:" <+: s.before := by
        rw [append_assoc] at hpre
        exact prefix_of_prefix_length_le hpre (prefix_append _ _) (by
          show 5 ≤ _
          omega)
      exact not_data_of_colon hcolon hfive

theorem At.piece {t : List Bytes × Option Bytes}
    (h : s.At t line) (c : Byte) : (s.piece recorder [c]).At t (line ++ [c]) := by
  cases hfield : s.field with
  | none => exact h.piece_unknown hfield c
  | some field =>
    obtain ⟨hcalled, hjson, hdata, -, hknown⟩ := h
    simp only [Field, hfield] at hknown
    cases field with
    | ignore =>
      rw [piece_ignore hfield]
      have hnone := dataOf_eq_none (List.append_nil line ▸ hknown [])
      have hno : ∀ rest, ¬ ascii "data:" <+: (line ++ [c]) ++ rest := fun rest =>
        append_assoc line [c] rest ▸ hknown _
      have hnone' := dataOf_eq_none (List.append_nil (line ++ [c]) ▸ hno [])
      rw [hnone] at hjson hdata
      refine ⟨hcalled, hnone' ▸ hjson, hnone' ▸ hdata, by simp, ?_⟩
      simpa only [Field, hfield] using hno
    | data =>
      obtain ⟨value, rfl, hfirst⟩ := hknown
      rw [piece_data hfield]
      rw [dataOf_data] at hjson hdata
      refine ⟨hcalled, ?_, ?_, by simp, ?_⟩
      · rw [append_assoc, dataOf_data]
        simp only [hjson, Option.getD_some, append_assoc, append_cancel_left_eq]
        cases value with
        | nil =>
          have hone : s.firstValue = true := hfirst.mpr rfl
          by_cases hc : c = 32 <;> simp [hone, hc]
        | cons d value =>
          have hlater : s.firstValue = false := by simpa using mt hfirst.mp (cons_ne_nil d value)
          by_cases hd : d = 32 <;> simp [hlater, hd]
      · rw [append_assoc, dataOf_data]
        simp
      · simp only [Field, hfield]
        exact ⟨value ++ [c], append_assoc .., by simp⟩

theorem At.newline {t : List Bytes × Option Bytes}
    (h : s.At t line) : (s.newline recorder).At (endLine line t) [] := by
  obtain ⟨hcalled, hjson, hdata, hnonempty, hknown⟩ := h
  have hempty : dataOf [] = none := by decide
  have hfield : s.field = some .data ↔ (dataOf line).isSome := by
    cases hfield : s.field with
    | none =>
      simp only [Field, hfield] at hknown
      simp [dataOf_eq_none (not_data_of_colon hknown.2.2.1)]
    | some field =>
      simp only [Field, hfield] at hknown
      cases field with
      | ignore => simp [dataOf_eq_none (List.append_nil line ▸ hknown [])]
      | data =>
        obtain ⟨value, rfl, -⟩ := hknown
        simp [dataOf_data]
  by_cases hline : line = []
  · -- a blank line ends the event
    subst hline
    have hblank : s.lineNonempty = false := by simpa using hnonempty
    rw [hempty] at hjson hdata
    have hout : (if s.hadData then [s.json] else []) = t.2.toList := by
      rw [hdata, hjson]
      cases t.2 <;> simp
    refine ⟨?_, ?_, ?_, by simp [EventFramer.newline], ?_⟩
    · simp [EventFramer.newline, hblank, recorder, endLine, hcalled, hout]
    · simp [EventFramer.newline, hblank, recorder, endLine, hempty]
    · simp [EventFramer.newline, hblank, endLine, hempty]
    · simp [EventFramer.newline, Field]
  · have hfull : s.lineNonempty = true := hnonempty.mpr hline
    cases hvalue : dataOf line with
    | none =>
      have hother : s.field ≠ some .data := by simp [hfield, hvalue]
      rw [hvalue] at hjson hdata
      refine ⟨?_, ?_, ?_, by simp [EventFramer.newline], ?_⟩
      · simp [EventFramer.newline, hfull, hother, endLine, hline, hcalled]
      · simp [EventFramer.newline, hfull, hother, endLine, hline, hvalue, hempty, hjson]
      · simp [EventFramer.newline, hfull, hother, endLine, hline, hvalue, hempty, hdata]
      · simp [EventFramer.newline, Field]
    | some value =>
      have hown : s.field = some .data := by simp [hfield, hvalue]
      rw [hvalue] at hjson hdata
      refine ⟨?_, ?_, ?_, by simp [EventFramer.newline], ?_⟩
      · simp [EventFramer.newline, hfull, hown, endLine, hline, hcalled]
      · simp [EventFramer.newline, hfull, hown, endLine, hline, hvalue, hempty, hjson, recorder]
      · simp [EventFramer.newline, hfull, hown, endLine, hline, hvalue, hempty, hdata]
      · simp [EventFramer.newline, Field]

/-! ## the framer follows the reading -/

theorem At.skip {t : List Bytes × Option Bytes}
    (h : s.At t line) (skip : Bool) : { s with skipLf := skip }.At t line :=
  ⟨h.called, h.json, h.hadData, h.lineNonempty, h.field⟩

/-- What the lines read so far delivered and left open. -/
def tally (lines : List (Bytes × Bool)) : List Bytes × Option Bytes :=
  (blanked lines.reverse).foldl (fun t line => endLine line t) ([], none)

theorem tally_cons (line : Bytes) (torn : Bool) (lines : List (Bytes × Bool)) :
    tally ((line, torn) :: lines) =
      if torn then endLine [] (endLine line (tally lines)) else endLine line (tally lines) := by
  unfold tally blanked
  rw [reverse_cons, flatMap_append, foldl_append]
  cases torn <;> rfl

/-- The framer is where the reading is. -/
structure Follows (s : EventFramer Bytes Bytes) (r : Reading) : Prop where
  place : s.At (tally r.lines) r.line
  skip : s.skipLf = true ↔ r.ending = .cr
  ended : r.ending ≠ .closed → r.line = [] ∧ ∃ line lines, r.lines = (line, false) :: lines

theorem follows_new : Follows { json := recorder.new } {} where
  place := ⟨rfl, rfl, rfl, by simp, by simp [Field]⟩
  skip := by simp
  ended h := absurd rfl h

theorem Follows.mark {r : Reading} (h : s.Follows r)
    (m : Option Byte) : (s.mark m).Follows (r.step m) := by
  have hplain : s.plain.At (tally r.lines) r.line := h.place.skip false
  have hnewline := hplain.newline
  cases m with
  | none =>
    have hmark : s.mark none = s.plain := feed_nil s
    rw [hmark]
    refine ⟨hplain, ?_, fun hne => h.ended fun hclosed => hne (by simp [Reading.step, hclosed])⟩
    cases hending : r.ending <;> simp [Reading.step, plain, hending]
  | some c =>
    by_cases hcr : c = lineFeed ∧ r.ending = .cr
    · -- the LF of a CRLF
      obtain ⟨rfl, hending⟩ := hcr
      have hmark : s.mark (some lineFeed) = s.plain :=
        (feed_skip (h.skip.mpr hending) []).trans (lines_nil _)
      rw [hmark]
      simp only [Reading.step, hending, and_self, if_true]
      exact ⟨hplain, by simp [plain], fun hne => absurd rfl hne⟩
    · have hmark : s.mark (some c) = s.plain.lines recorder [c] :=
        feed_plain (fun hskip => hcr ⟨hskip.2, h.skip.mp hskip.1⟩) []
      rw [hmark]
      simp only [Reading.step, if_neg hcr]
      by_cases hend : endsLine c
      · have hlines : s.plain.lines recorder [c] =
            { s.plain.newline recorder with skipLf := decide (c = carriageReturn) } := by
          by_cases hc : c = lineFeed
          · rw [hc, lines_lineFeed, lines_nil]
            exact (plain_eq (skipLf_newline _)).symm
          · obtain rfl : c = carriageReturn := by simpa [endsLine, hc] using hend
            rw [lines_carriageReturn]
            rfl
        rw [hlines]
        by_cases htorn : c = lineFeed ∧ r.ending = .torn
        · -- the LF of a CRLF, after an empty piece: a blank line to the framer
          obtain ⟨rfl, hending⟩ := htorn
          obtain ⟨hline, line, lines, hread⟩ := h.ended (by simp [hending])
          rw [hline, hread] at hnewline
          simp only [hending, and_self, if_true, hread]
          refine ⟨?_, by simp [lineFeed, carriageReturn], fun hne => absurd rfl hne⟩
          rw [tally_cons, if_pos rfl, hline]
          rw [tally_cons, if_neg Bool.false_ne_true] at hnewline
          exact hnewline.skip _
        · rw [if_neg htorn, if_pos hend]
          refine ⟨?_, ?_, fun _ => ⟨rfl, r.line, r.lines, rfl⟩⟩
          · rw [tally_cons, if_neg Bool.false_ne_true]
            exact hnewline.skip _
          · by_cases hc : c = carriageReturn <;> simp [hc]
      · have hend' : endsLine c = false := by simpa using hend
        have hne : c ≠ lineFeed := fun hc => hend (by simp [hc, endsLine])
        rw [lines_byte _ hend', lines_nil, if_neg (fun htorn => hne htorn.1), if_neg hend]
        exact ⟨hplain.piece c, by simp [plain], fun hne => absurd rfl hne⟩

theorem foldl_follows (stream : List (Option Byte)) : ∀ {s : EventFramer Bytes Bytes} {r : Reading},
    s.Follows r → (stream.foldl EventFramer.mark s).Follows (stream.foldl Reading.step r) := by
  induction stream with
  | nil => exact fun h => h
  | cons m stream ih => exact fun h => ih (h.mark m)

/-- **What a framer has delivered** after a stream: the payloads of its lines,
a marked one followed by a blank one. -/
theorem called_foldl (stream : List (Option Byte)) :
    (stream.foldl EventFramer.mark { json := recorder.new }).called =
      payloadsFrom none (blanked (Reading.of stream).lines.reverse) :=
  (foldl_follows stream follows_new).place.called

end EventFramer

/-! ## the choice -/

namespace ResponseMetadata

def deliver : Kind → List (Option Byte) → ResponseParser Bytes Bytes
  | .json, body => .json (body.flatMap Option.toList)
  | .sse, body => .sse (body.foldl EventFramer.mark { json := recorder.new })

/-- What `ResponseMetadata` is once it made this choice. -/
def view : Choice → ResponseMetadata Bytes Bytes
  | .pending before => { before }
  | .unknown => { error := some .unknownFormat }
  | .found kind body => { parser := some (deliver kind body) }

theorem flatMap_toList_marks (pieces : List Bytes) :
    (marks pieces).flatMap Option.toList = pieces.flatten := by
  induction pieces with
  | nil => rfl
  | cons piece pieces ih =>
    have hmarks : marks (piece :: pieces) =
        (if piece = [] then [none] else piece.map some) ++ marks pieces := flatMap_cons
    rw [hmarks, flatMap_append, ih, flatten_cons]
    split <;> simp [*, flatMap_map]

theorem feed_deliver (kind : Kind) (body : List (Option Byte)) (piece : Bytes) :
    (deliver kind body).feed recorder piece = deliver kind (body ++ marks [piece]) := by
  cases kind with
  | json =>
    have hpiece := flatMap_toList_marks [piece]
    rw [flatten_singleton] at hpiece
    rw [deliver, deliver, flatMap_append, hpiece]
    rfl
  | sse =>
    rw [deliver, deliver, foldl_append, ← EventFramer.foldl_feed]
    rfl

theorem start_sse {text : Bytes} (htext : text ∈ markers) (rest : Bytes) :
    ((ResponseParser.sse { json := recorder.new }).feed recorder text).feed recorder rest =
      deliver .sse ((text ++ rest).map some) := by
  have hne : text ≠ [] := by
    rintro rfl
    revert htext
    decide
  have hclosed : (Reading.of (text.map some)).ending = .closed := by
    revert text
    decide
  have hfed := EventFramer.foldl_mark text hne { json := recorder.new }
  have hfollows := EventFramer.foldl_follows (text.map some) EventFramer.follows_new
  rw [hfed] at hfollows
  have hskip : (EventFramer.feed recorder { json := recorder.new } text).skipLf = false := by
    have := hfollows.skip
    rw [show (List.foldl Reading.step {} (text.map some)).ending = .closed from hclosed] at this
    simpa using this
  simp only [ResponseParser.feed, deliver, map_append, foldl_append, hfed]
  by_cases hrest : rest = []
  · rw [hrest, EventFramer.feed_nil, EventFramer.plain_eq hskip]
    rfl
  · rw [EventFramer.foldl_mark rest hrest]

theorem sniff_eq (data : Bytes) : ∀ before : Bytes,
    ({ before } : ResponseMetadata Bytes Bytes).sniff recorder data =
      view (choose before (data.map some)) := by
  induction data with
  | nil => exact fun _ => rfl
  | cons c data ih =>
    intro before
    rw [map_cons, sniff, choose]
    by_cases hspace : (before = [] ∨ before = bom) ∧ whitespace c
    · rw [if_pos hspace, if_pos hspace]
      exact ih before
    · rw [if_neg hspace, if_neg hspace]
      dsimp only
      by_cases hbom : before ++ [c] = bom
      · rw [if_pos hbom, if_pos hbom, ← hbom]
        exact ih _
      · rw [if_neg hbom, if_neg hbom]
        by_cases hjson : probe (before ++ [c]) = ascii "\x7b"
        · rw [if_pos hjson, if_pos hjson]
          simp [view, deliver, ResponseParser.feed, recorder, flatMap_map]
        · rw [if_neg hjson, if_neg hjson]
          by_cases hsse : probe (before ++ [c]) ∈ markers
          · rw [if_pos hsse, if_pos hsse, start_sse hsse, map_append]
            rfl
          · rw [if_neg hsse, if_neg hsse]
            by_cases hmore : before ++ [c] <+: bom ∨ ∃ marker ∈ markers,
                probe (before ++ [c]) <+: marker
            · rw [if_pos hmore, if_pos hmore]
              exact ih _
            · rw [if_neg hmore, if_neg hmore]
              rfl

theorem choose_append (stream later : List (Option Byte)) : ∀ before : Bytes,
    choose before (stream ++ later) =
      match choose before stream with
      | .pending before => choose before later
      | .unknown => .unknown
      | .found kind body => .found kind (body ++ later) := by
  induction stream with
  | nil => exact fun _ => rfl
  | cons m stream ih =>
    intro before
    cases m with
    | none => exact ih before
    | some c =>
      rw [cons_append, choose, choose]
      dsimp only
      split
      · exact ih _
      split
      · exact ih _
      split
      · simp
      split
      · simp
      split
      · exact ih _
      · rfl

theorem feed_view (choice : Choice) (piece : Bytes) :
    (view choice).feed recorder piece =
      view (match choice with
        | .pending before => choose before (marks [piece])
        | .unknown => .unknown
        | .found kind body => .found kind (body ++ marks [piece])) := by
  cases choice with
  | pending before =>
    have hsniff := sniff_eq piece before
    by_cases hpiece : piece = []
    · subst hpiece
      exact hsniff
    · have hmarks : marks [piece] = piece.map some := by simp [marks, hpiece]
      rw [hmarks]
      exact hsniff
  | unknown => rfl
  | found kind body =>
    show ({ parser := some ((deliver kind body).feed recorder piece) } :
      ResponseMetadata Bytes Bytes) = _
    rw [feed_deliver]
    rfl

theorem foldl_feed (pieces : List Bytes) : ∀ choice : Choice,
    pieces.foldl (feed recorder) (view choice) =
      view (match choice with
        | .pending before => choose before (marks pieces)
        | .unknown => .unknown
        | .found kind body => .found kind (body ++ marks pieces)) := by
  induction pieces with
  | nil =>
    intro choice
    cases choice <;> simp [marks, choose]
  | cons piece pieces ih =>
    intro choice
    have hmarks : marks (piece :: pieces) = marks [piece] ++ marks pieces := by simp [marks]
    rw [foldl_cons, feed_view, ih, hmarks]
    cases choice with
    | pending before => simp only [choose_append]
    | unknown => rfl
    | found kind body => simp

/-- **What is observed** is decided by the bytes and the empty pieces. -/
theorem observe_eq (pieces : List Bytes) :
    observe recorder pieces = (view (choose [] (marks pieces))).finish recorder :=
  congrArg (finish recorder) (foldl_feed pieces (.pending []))

end ResponseMetadata

/-! ## the stream without its empty pieces -/

theorem filter_map_some (text : Bytes) : (text.map some).filter Option.isSome = text.map some :=
  filter_eq_self.mpr fun m hm => by
    obtain ⟨c, -, rfl⟩ := List.mem_map.mp hm
    rfl

theorem marks_bytes (pieces : List Bytes) :
    (marks pieces).filter Option.isSome = pieces.flatten.map some := by
  induction pieces with
  | nil => rfl
  | cons piece pieces ih =>
    have hmarks : marks (piece :: pieces) =
        (if piece = [] then [none] else piece.map some) ++ marks pieces := flatMap_cons
    rw [hmarks, filter_append, ih, flatten_cons, map_append]
    split
    · next hpiece => simp [hpiece]
    · rw [filter_map_some]

theorem choose_bytes (stream : List (Option Byte)) : ∀ before : Bytes,
    choose before (stream.filter Option.isSome) =
      match choose before stream with
      | .found kind body => .found kind (body.filter Option.isSome)
      | choice => choice := by
  induction stream with
  | nil => exact fun _ => rfl
  | cons m stream ih =>
    intro before
    cases m with
    | none => exact ih before
    | some c =>
      rw [filter_cons_of_pos rfl, choose, choose]
      dsimp only
      split
      · exact ih _
      split
      · exact ih _
      split
      · simp only [filter_append, filter_map_some]
      split
      · simp only [filter_append, filter_map_some]
      split
      · exact ih _
      · rfl

namespace Reading

/-- Two readings with the same lines. -/
structure Alike (r r' : Reading) : Prop where
  lines : r.lines.map Prod.fst = r'.lines.map Prod.fst
  line : r.line = r'.line
  closed : r.ending = .closed ↔ r'.ending = .closed
  whole : r'.ending ≠ .torn

theorem Alike.step {r r' : Reading} (h : r.Alike r') (c : Byte) :
    (r.step (some c)).Alike (r'.step (some c)) := by
  obtain ⟨hlines, hline, hclosed, hwhole⟩ := h
  by_cases hlater : c = lineFeed ∧ r.ending ≠ .closed
  · obtain ⟨rfl, hne⟩ := hlater
    have hcr : r'.ending = .cr := by
      cases hending : r'.ending with
      | closed => exact absurd (hclosed.mpr hending) hne
      | cr => rfl
      | torn => exact absurd hending hwhole
    cases hending : r.ending with
    | closed => exact absurd hending hne
    | cr => constructor <;> simp [Reading.step, hending, hcr, hlines, hline]
    | torn =>
      constructor <;> simp [Reading.step, hending, hcr, hline]
      cases hread : r.lines <;> simpa [hread] using hlines
  · have hnone (ending : Ending) (hne : ending ≠ .closed) : ¬ (c = lineFeed ∧ r.ending = ending) :=
      fun h => hlater ⟨h.1, h.2 ▸ hne⟩
    have hnone' (ending : Ending) (hne : ending ≠ .closed) : ¬ (c = lineFeed ∧ r'.ending = ending) :=
      fun h => hlater ⟨h.1, fun hr => hne (h.2 ▸ hclosed.mp hr)⟩
    rw [Reading.step, Reading.step, if_neg (hnone .cr (by decide)), if_neg (hnone .torn (by decide)),
      if_neg (hnone' .cr (by decide)), if_neg (hnone' .torn (by decide))]
    split
    · constructor <;> simp [hlines, hline]
      split <;> decide
    · constructor <;> simp [hlines, hline]

theorem alike_bytes (stream : List (Option Byte)) : ∀ {r r' : Reading}, r.Alike r' →
    (stream.foldl Reading.step r).Alike ((stream.filter Option.isSome).foldl Reading.step r') := by
  induction stream with
  | nil => exact fun h => h
  | cons m stream ih =>
    intro r r' h
    cases m with
    | none =>
      refine ih ⟨h.lines, h.line, ?_, h.whole⟩
      rw [← h.closed]
      cases hending : r.ending <;> simp [Reading.step, hending]
    | some c => exact ih (h.step c)

theorem lines_bytes (body : List (Option Byte)) :
    (of (body.filter Option.isSome)).lines.map Prod.fst = (of body).lines.map Prod.fst :=
  (alike_bytes body ⟨rfl, rfl, Iff.rfl, Ending.noConfusion⟩).lines.symm

end Reading

/-! ## payloads and callbacks -/

/-- What the bytes of a response say: its kind, and the payloads for the JSON
selector. -/
def told (data : Bytes) : Option (Kind × List Bytes) :=
  match choose [] (data.map some) with
  | .found .json body => some (.json, [body.flatMap Option.toList])
  | .found .sse body => some (.sse, payloadsFrom none ((Reading.of body).lines.reverse.map Prod.fst))
  | _ => none

/-- No event with data is torn: where an empty piece stands between the CR and
the LF that end a line of an event stream, the open event has no data, or no
more of it before its end. -/
def Untorn (pieces : List Bytes) : Prop :=
  match choose [] (marks pieces) with
  | .found .sse body => WholeFrom none (Reading.of body).lines.reverse
  | _ => True

instance (pieces : List Bytes) : Decidable (Untorn pieces) :=
  match h : choose [] (marks pieces) with
  | .found .sse body =>
    decidable_of_iff (WholeFrom none (Reading.of body).lines.reverse) (by rw [Untorn, h])
  | .found .json _ | .pending _ | .unknown => isTrue (by rw [Untorn, h]; trivial)

def Recorded (pieces : List Bytes) : Prop :=
  (ResponseMetadata.observe recorder pieces).kind = (told pieces.flatten).map Prod.fst ∧
    (ResponseMetadata.observe recorder pieces).called = ((told pieces.flatten).map Prod.snd).getD []

theorem recorded_iff (pieces : List Bytes) : Recorded pieces ↔ Untorn pieces := by
  have hbytes := choose_bytes (marks pieces) []
  rw [marks_bytes] at hbytes
  unfold Recorded Untorn told
  rw [ResponseMetadata.observe_eq, hbytes]
  cases choose [] (marks pieces) with
  | pending before => exact iff_of_true ⟨rfl, rfl⟩ trivial
  | unknown => exact iff_of_true ⟨rfl, rfl⟩ trivial
  | found kind body =>
    cases kind with
    | json =>
      have hbody : (body.filter Option.isSome).flatMap Option.toList =
          body.flatMap Option.toList := by
        induction body with
        | nil => rfl
        | cons m body ih => cases m <;> simp [ih]
      refine iff_of_true ⟨rfl, ?_⟩ trivial
      rw [Option.map_some, Option.getD_some, hbody]
      rfl
    | sse =>
      have hlines : (Reading.of (body.filter Option.isSome)).lines.reverse.map Prod.fst =
          (Reading.of body).lines.reverse.map Prod.fst := by
        rw [map_reverse, map_reverse, Reading.lines_bytes]
      have hcalled : ((ResponseMetadata.view (.found .sse body)).finish recorder).called =
          payloadsFrom none (blanked (Reading.of body).lines.reverse) :=
        (List.append_nil _).trans (EventFramer.called_foldl body)
      rw [hcalled, Option.map_some, Option.map_some, Option.getD_some, hlines]
      exact (and_iff_right rfl).trans (payloadsFrom_blanked _ none)

/-! ## any selector -/

/-- The selector's fields depend on the bytes it was fed: `R` relates its
state to them. -/
structure Selector.Reads {σ φ : Type} (sel : Selector σ φ) (R : σ → Bytes → Prop)
    (result : Bytes → φ) : Prop where
  new : R sel.new []
  feed : ∀ {s payload}, R s payload → ∀ data, R (sel.feed s data) (payload ++ data)
  finish : ∀ {s payload}, R s payload → (sel.finish s).2 = result payload

section

variable {σ φ : Type} {sel : Selector σ φ} {R : σ → Bytes → Prop} {result : Bytes → φ}

def calls (sel : Selector σ φ) (result : Bytes → φ) (payloads : List Bytes) : List φ :=
  (payloads.map result).filter sel.truthy

namespace EventFramer

@[reducible] def withSelector (t : EventFramer Bytes Bytes) (json : σ) (called : List φ) : EventFramer σ φ :=
  { t with json, called }

def Beside (sel : Selector σ φ) (R : σ → Bytes → Prop) (result : Bytes → φ)
    (s : EventFramer σ φ) (t : EventFramer Bytes Bytes) : Prop :=
  ∃ json, R json t.json ∧ s = t.withSelector json (calls sel result t.called)

theorem findField_withSelector (json : σ) (called : List φ) (data : Bytes) :
    ∀ t : EventFramer Bytes Bytes, (t.withSelector json called).findField data =
      ((t.findField data).1.withSelector json called, (t.findField data).2) := by
  induction data with
  | nil => exact fun _ => rfl
  | cons c data ih =>
    intro t
    unfold EventFramer.findField
    dsimp only [withSelector]
    by_cases hc : c = 58
    · simp only [if_pos hc]
    · by_cases hlen : t.before.length < 5
      · simp only [if_neg hc, if_pos hlen]
        exact ih { t with before := t.before ++ [c] }
      · simp only [if_neg hc, if_neg hlen]

theorem findField_json (data : Bytes) : ∀ t : EventFramer Bytes Bytes,
    (t.findField data).1.json = t.json ∧ (t.findField data).1.called = t.called := by
  induction data with
  | nil => exact fun _ => ⟨rfl, rfl⟩
  | cons c data ih =>
    intro t
    unfold EventFramer.findField
    split
    · exact ⟨rfl, rfl⟩
    split
    · exact ih _
    · exact ⟨rfl, rfl⟩

theorem Beside.findField {s : EventFramer σ φ} {t : EventFramer Bytes Bytes}
    (h : Beside sel R result s t) (data : Bytes) :
    Beside sel R result (s.findField data).1 (t.findField data).1 ∧
      (s.findField data).2 = (t.findField data).2 := by
  obtain ⟨json, hjson, rfl⟩ := h
  obtain ⟨hkept, hcalled⟩ := findField_json data t
  rw [findField_withSelector]
  exact ⟨⟨json, hkept.symm ▸ hjson, by rw [hcalled]⟩, rfl⟩

def feedData (sel : Selector σ φ) (u : EventFramer σ φ × Bytes) : EventFramer σ φ :=
  if u.1.field = some .data then
    { u.1 with
      hadData := true
      firstValue := u.1.firstValue && u.2.isEmpty
      json := sel.feed u.1.json
        (if u.1.firstValue ∧ u.2.head? = some 32 then u.2.tail else u.2) }
  else u.1

theorem piece_eq (sel : Selector σ φ) (s : EventFramer σ φ) {data : Bytes} (hdata : data ≠ []) :
    s.piece sel data = feedData sel
      (if s.field.isNone then { s with lineNonempty := true }.findField data
        else ({ s with lineNonempty := true }, data)) := by
  unfold EventFramer.piece
  rw [if_neg hdata]
  dsimp only
  generalize (if s.field.isNone then { s with lineNonempty := true }.findField data
    else ({ s with lineNonempty := true }, data)) = u
  obtain ⟨u, rest⟩ := u
  unfold feedData
  by_cases hfield : u.field = some .data
  · cases hfirst : u.firstValue <;> cases rest <;> simp [hfield]
  · simp [hfield]

section

variable (hsel : sel.Reads R result)

include hsel

theorem Beside.feedData {u : EventFramer σ φ × Bytes}
    {v : EventFramer Bytes Bytes × Bytes} (h : Beside sel R result u.1 v.1) (hrest : u.2 = v.2) :
    Beside sel R result (feedData sel u) (feedData recorder v) := by
  obtain ⟨s, rest⟩ := u
  obtain ⟨t, rest'⟩ := v
  obtain rfl : rest = rest' := hrest
  obtain ⟨json, hjson, rfl⟩ := h
  unfold EventFramer.feedData
  dsimp only [withSelector]
  split
  · exact ⟨_, hsel.feed hjson _, rfl⟩
  · exact ⟨json, hjson, rfl⟩

theorem Beside.piece {s : EventFramer σ φ} {t : EventFramer Bytes Bytes}
    (h : Beside sel R result s t) (data : Bytes) :
    Beside sel R result (s.piece sel data) (t.piece recorder data) := by
  by_cases hdata : data = []
  · rw [hdata, EventFramer.piece, EventFramer.piece, if_pos rfl, if_pos rfl]
    exact h
  · rw [piece_eq sel s hdata, piece_eq recorder t hdata]
    have hfield : s.field = t.field := by
      obtain ⟨json, -, rfl⟩ := h
      rfl
    have hnonempty : Beside sel R result { s with lineNonempty := true }
        { t with lineNonempty := true } := by
      obtain ⟨json, hjson, rfl⟩ := h
      exact ⟨json, hjson, rfl⟩
    by_cases hnone : t.field.isNone
    · rw [if_pos (show s.field.isNone from hfield ▸ hnone), if_pos hnone]
      obtain ⟨hfound, hrest⟩ := hnonempty.findField data
      exact hfound.feedData hsel hrest
    · rw [if_neg (show ¬ s.field.isNone from hfield ▸ hnone), if_neg hnone]
      exact Beside.feedData hsel (u := (_, data)) (v := (_, data)) hnonempty rfl

theorem Beside.newline {s : EventFramer σ φ}
    {t : EventFramer Bytes Bytes} (h : Beside sel R result s t) :
    Beside sel R result (s.newline sel) (t.newline recorder) := by
  obtain ⟨json, hjson, rfl⟩ := h
  have hfields := hsel.finish hjson
  unfold EventFramer.newline
  dsimp only [withSelector]
  cases t.lineNonempty with
  | false =>
    refine ⟨sel.new, hsel.new, ?_⟩
    have hcalls : calls sel result t.called ++
          (if t.hadData && sel.truthy (sel.finish json).2 then [(sel.finish json).2] else []) =
        calls sel result (t.called ++ if t.hadData && true then [t.json] else []) := by
      rw [hfields]
      cases t.hadData <;> simp [calls, filter_singleton]
    simp only [Bool.not_false, if_true, hcalls]
    rfl
  | true =>
    simp only [Bool.not_true, Bool.false_eq_true, if_false]
    split
    · exact ⟨_, hsel.feed hjson _, rfl⟩
    · exact ⟨json, hjson, rfl⟩

theorem Beside.lines {s : EventFramer σ φ} {t : EventFramer Bytes Bytes}
    (h : Beside sel R result s t) (data : Bytes) :
    Beside sel R result (s.lines sel data) (t.lines recorder data) := by
  induction hn : data.length using Nat.strong_induction_on generalizing s t data with
  | h n ih =>
    rw [lines_eq, lines_eq recorder]
    cases hrest : data.dropWhile (!endsLine ·) with
    | nil => exact h.piece hsel _
    | cons c rest =>
      have hlt : rest.length < n := hn ▸ length_of_dropWhile hrest
      have hended := (h.piece hsel (data.takeWhile (!endsLine ·))).newline hsel
      dsimp only
      by_cases hc : c = carriageReturn
      · rw [if_pos hc, if_pos hc]
        cases rest with
        | nil =>
          obtain ⟨json, hjson, heq⟩ := hended
          rw [heq]
          exact ⟨json, hjson, rfl⟩
        | cons d more =>
          dsimp only
          by_cases hd : d = lineFeed
          · rw [if_pos hd, if_pos hd]
            exact ih _ (Nat.lt_of_succ_lt hlt) hended more rfl
          · rw [if_neg hd, if_neg hd]
            exact ih _ hlt hended (d :: more) rfl
      · rw [if_neg hc, if_neg hc]
        exact ih _ hlt hended rest rfl

theorem Beside.feed {s : EventFramer σ φ} {t : EventFramer Bytes Bytes}
    (h : Beside sel R result s t) (data : Bytes) :
    Beside sel R result (s.feed sel data) (t.feed recorder data) := by
  obtain ⟨json, hjson, rfl⟩ := h
  exact Beside.lines hsel (s := { t.withSelector json (calls sel result t.called) with skipLf := false })
    (t := { t with skipLf := false }) ⟨json, hjson, rfl⟩ _

end

end EventFramer

namespace ResponseMetadata

def ParserBeside (sel : Selector σ φ) (R : σ → Bytes → Prop) (result : Bytes → φ) :
    ResponseParser σ φ → ResponseParser Bytes Bytes → Prop
  | .json s, .json payload => R s payload
  | .sse s, .sse t => EventFramer.Beside sel R result s t
  | _, _ => False

def Beside (sel : Selector σ φ) (R : σ → Bytes → Prop) (result : Bytes → φ)
    (r : ResponseMetadata σ φ) (t : ResponseMetadata Bytes Bytes) : Prop :=
  r.before = t.before ∧ r.error = t.error ∧ r.answered = [] ∧ t.answered = [] ∧
    match r.parser, t.parser with
    | none, none => True
    | some p, some q => ParserBeside sel R result p q
    | _, _ => False

section

variable (hsel : sel.Reads R result)

include hsel

theorem feed_parserBeside {p : ResponseParser σ φ}
    {q : ResponseParser Bytes Bytes} (h : ParserBeside sel R result p q) (data : Bytes) :
    ParserBeside sel R result (p.feed sel data) (q.feed recorder data) := by
  cases p <;> cases q <;> try exact h
  · exact hsel.feed h data
  · exact EventFramer.Beside.feed hsel h data

theorem sniff_beside (data : Bytes) : ∀ before : Bytes,
    Beside sel R result (({ before } : ResponseMetadata σ φ).sniff sel data)
      (({ before } : ResponseMetadata Bytes Bytes).sniff recorder data) := by
  induction data with
  | nil => exact fun _ => ⟨rfl, rfl, rfl, rfl, trivial⟩
  | cons c data ih =>
    intro before
    unfold sniff
    dsimp only
    split
    · exact ih before
    split
    · exact ih _
    split
    · exact ⟨rfl, rfl, rfl, rfl, feed_parserBeside hsel
        (feed_parserBeside (p := .json _) (q := .json _) hsel hsel.new _) _⟩
    split
    · exact ⟨rfl, rfl, rfl, rfl, feed_parserBeside hsel
        (feed_parserBeside (p := .sse _) (q := .sse _) hsel ⟨sel.new, hsel.new, rfl⟩ _) _⟩
    split
    · exact ih _
    · exact ⟨rfl, rfl, rfl, rfl, trivial⟩

theorem feed_beside {r : ResponseMetadata σ φ}
    {t : ResponseMetadata Bytes Bytes} (h : Beside sel R result r t) (data : Bytes) :
    Beside sel R result (r.feed sel data) (t.feed recorder data) := by
  obtain ⟨before, parser, error, answered⟩ := r
  obtain ⟨before', parser', error', answered'⟩ := t
  obtain ⟨rfl, rfl, rfl, rfl, hparser⟩ := h
  unfold feed
  cases error with
  | some error => exact ⟨rfl, rfl, rfl, rfl, hparser⟩
  | none =>
    cases parser <;> cases parser' <;> try exact hparser.elim
    · exact sniff_beside hsel data before
    · exact ⟨rfl, rfl, rfl, rfl, feed_parserBeside hsel hparser data⟩

theorem finish_beside {r : ResponseMetadata σ φ}
    {t : ResponseMetadata Bytes Bytes} (h : Beside sel R result r t) :
    (r.finish sel).kind = (t.finish recorder).kind ∧
      (r.finish sel).called = calls sel result (t.finish recorder).called := by
  obtain ⟨before, parser, error, answered⟩ := r
  obtain ⟨before', parser', error', answered'⟩ := t
  obtain ⟨rfl, rfl, rfl, rfl, hparser⟩ := h
  cases parser with
  | none =>
    cases parser' with
    | none => exact ⟨rfl, rfl⟩
    | some q => exact hparser.elim
  | some p =>
    cases parser' with
    | none => exact hparser.elim
    | some q =>
      cases p <;> cases q <;> try exact hparser.elim
      · next s payload =>
        refine ⟨rfl, ?_⟩
        show (if sel.truthy (sel.finish s).2 then [(sel.finish s).2] else []) =
          ([payload].map result).filter sel.truthy
        rw [hsel.finish hparser]
        cases htruthy : sel.truthy (result payload) <;> simp [htruthy]
      · obtain ⟨json, -, rfl⟩ := hparser
        refine ⟨rfl, ?_⟩
        show calls sel result _ ++ [] = calls sel result (_ ++ [])
        rw [List.append_nil, List.append_nil]
        rfl

/-- **Callbacks**: those of the recorded payloads. -/
theorem observe_beside (pieces : List Bytes) :
    (observe sel pieces).kind = (observe recorder pieces).kind ∧
      (observe sel pieces).called = calls sel result (observe recorder pieces).called := by
  refine finish_beside hsel ?_
  have hstart : Beside sel R result {} {} := ⟨rfl, rfl, rfl, rfl, trivial⟩
  generalize ({} : ResponseMetadata σ φ) = r at hstart ⊢
  generalize ({} : ResponseMetadata Bytes Bytes) = t at hstart ⊢
  induction pieces generalizing r t with
  | nil => exact hstart
  | cons piece pieces ih => exact ih _ _ (feed_beside hsel hstart piece)

end

end ResponseMetadata

end

/-! ## the JSON selector of the code -/

/-- The parser does not see how its text is cut. -/
def JsonCoro.ChunkInvariant {π : Type} (coro : JsonCoro π) : Prop :=
  ∀ s a b, a ≠ [] → b ≠ [] → coro.send s (a ++ b) =
    (coro.send s a).bind fun (s', events) =>
      (coro.send s' b).map fun (s'', events') => (s'', events ++ events')

namespace SelectedJSON

variable {π : Type} (coro : JsonCoro π)

def sent (payload : Bytes) : Option (π × List ParseEvent) :=
  if payload = [] then some (coro.start, []) else coro.send coro.start payload

/-- The fields of a text: none of a text that is too long or not JSON. -/
def fieldsOf (payload : Bytes) : List (PyStr × Json) :=
  if payload.length > MAX_OBSERVATION then []
  else match sent coro payload with
    | none => []
    | some (parser, events) =>
      match coro.close parser with
      | none => []
      | some later => (events ++ later).foldl collectField []

def Read (s : SelectedJSON π) (payload : Bytes) : Prop :=
  s.closed = false ∧
    match s.error with
    | none => s.size = payload.length ∧ payload.length ≤ MAX_OBSERVATION ∧
        ∃ events, sent coro payload = some (s.parser, events) ∧ s.fields = events.foldl collectField []
    | some _ => payload.length > MAX_OBSERVATION ∨ sent coro payload = none

theorem sent_append {coro : JsonCoro π} (h : coro.ChunkInvariant) {payload data : Bytes}
    (hdata : data ≠ []) : sent coro (payload ++ data) = (sent coro payload).bind fun (s, events) =>
        (coro.send s data).map fun (s', events') => (s', events ++ events') := by
  by_cases hpayload : payload = []
  · subst hpayload
    simp [sent, hdata]
  · rw [sent, sent, if_neg hpayload, if_neg (by simp [hpayload])]
    exact h _ _ _ hpayload hdata

theorem reads_selectedJSON {coro : JsonCoro π} (h : coro.ChunkInvariant) :
    (selectedJSON coro).Reads (Read coro) (fieldsOf coro) where
  new := ⟨rfl, rfl, Nat.zero_le _, [], rfl, rfl⟩
  feed := by
    intro s payload hs data
    obtain ⟨hclosed, hread⟩ := hs
    show Read coro (s.feed coro data) (payload ++ data)
    by_cases hdata : data = []
    · rw [hdata, List.append_nil, SelectedJSON.feed, if_pos (Or.inl rfl)]
      exact ⟨hclosed, hread⟩
    · cases herror : s.error with
      | some error =>
        simp only [herror] at hread
        have hkept : s.feed coro data = s := if_pos (by simp [herror])
        rw [hkept]
        refine ⟨hclosed, ?_⟩
        simp only [herror]
        rcases hread with hlong | hnone
        · exact Or.inl (by simp; omega)
        · exact Or.inr (by simp [sent_append h hdata, hnone])
      | none =>
        simp only [herror] at hread
        obtain ⟨hsize, hshort, events, hsent, hfields⟩ := hread
        rw [SelectedJSON.feed, if_neg (by simp [hdata, herror, hclosed])]
        dsimp only
        by_cases hlong : s.size + data.length > MAX_OBSERVATION
        · rw [if_pos hlong]
          exact ⟨hclosed, Or.inl (by simp; omega)⟩
        · rw [if_neg hlong]
          have happend : sent coro (payload ++ data) = _ := sent_append h hdata
          rw [hsent] at happend
          cases hsend : coro.send s.parser data with
          | none =>
            refine ⟨hclosed, Or.inr ?_⟩
            simpa [hsend] using happend
          | some next =>
            obtain ⟨parser, later⟩ := next
            refine ⟨hclosed, ?_⟩
            simp only [herror]
            refine ⟨by simp [hsize], by simp; omega, events ++ later, ?_, ?_⟩
            · simpa [hsend] using happend
            · rw [foldl_append, ← hfields]
  finish := by
    intro s payload hs
    obtain ⟨hclosed, hread⟩ := hs
    show (s.finish coro).2 = fieldsOf coro payload
    unfold SelectedJSON.finish fieldsOf
    rw [hclosed]
    cases herror : s.error with
    | some error =>
      simp only [herror] at hread
      have hempty : (if payload.length > MAX_OBSERVATION then [] else
          match sent coro payload with
          | none => []
          | some (parser, events) =>
            match coro.close parser with
            | none => []
            | some later => (events ++ later).foldl collectField []) = [] := by
        rcases hread with hlong | hnone
        · exact if_pos hlong
        · rw [hnone]
          exact ite_self _
      rw [hempty]
      cases coro.close s.parser <;> simp
    | none =>
      simp only [herror] at hread
      obtain ⟨-, hshort, events, hsent, hfields⟩ := hread
      rw [if_neg (Nat.not_lt.mpr hshort), hsent]
      cases hclose : coro.close s.parser with
      | none => simp [hclose]
      | some later => simp [hclose, hfields]

end SelectedJSON

/-! ## the stream is framed whatever its pieces -/

/-- A response read from these pieces: the JSON selector is given the payloads
that its bytes say, of the kind that they say, and the callbacks are those of
the payloads. -/
def Delivered {π : Type} (coro : JsonCoro π) (pieces : List Bytes) : Prop :=
  Recorded pieces ∧
    (ResponseMetadata.observe (selectedJSON coro) pieces).kind = (told pieces.flatten).map Prod.fst
    ∧
    (ResponseMetadata.observe (selectedJSON coro) pieces).called =
      calls (selectedJSON coro) (SelectedJSON.fieldsOf coro)
        (((told pieces.flatten).map Prod.snd).getD [])

/-- **Framing**: however the bytes of a response are cut, they are read as one
text, exactly when no empty piece tears an event. -/
theorem delivered_iff {π : Type} {coro : JsonCoro π} (h : coro.ChunkInvariant)
    (pieces : List Bytes) : Delivered coro pieces ↔ Untorn pieces := by
  obtain ⟨hkind, hcalled⟩ :=
    ResponseMetadata.observe_beside (SelectedJSON.reads_selectedJSON h) pieces
  rw [← recorded_iff]
  refine ⟨fun hdelivered => hdelivered.1, fun hrecorded => ⟨hrecorded, ?_, ?_⟩⟩
  · rw [hkind, hrecorded.1]
  · rw [hcalled, hrecorded.2]

def modelText : Bytes := ascii "\x7b\"model\":\n\"a\"\x7d\n"

def modelCoro : JsonCoro Bytes where
  start := []
  send s data :=
    if s ++ data <+: modelText then
      some (s ++ data, if s.length < 13 ∧ 13 ≤ (s ++ data).length then
        [⟨py "model", .string (py "a")⟩] else [])
    else none
  close s := if 14 ≤ s.length then some [] else none

theorem modelCoro_chunkInvariant : modelCoro.ChunkInvariant := by
  intro s a b _ _
  simp only [modelCoro, ← append_assoc]
  by_cases hb : s ++ a ++ b <+: modelText
  · have ha : s ++ a <+: modelText := (prefix_append _ _).trans hb
    simp only [if_pos ha, if_pos hb, Option.bind_some, Option.map_some, Option.some.injEq,
      Prod.mk.injEq, true_and, length_append]
    split <;> split <;> split <;> first | rfl | omega
  · rw [if_neg hb]
    by_cases ha : s ++ a <+: modelText <;> simp [ha, append_assoc s a b ▸ hb]

/-- The pieces cut lines and line endings, and one is empty. -/
theorem delivered_iff_model :
    (ResponseMetadata.observe (selectedJSON modelCoro)
      [ascii "data: \x7b\"mod", [], ascii "el\":\r", ascii "\ndata: \"a\"\x7d\r\n", ascii "\r\n"]).called =
      [[(py "model", .str (py "a"))]] := by
  rw [((delivered_iff modelCoro_chunkInvariant _).mpr (by decide +kernel)).2.2]
  decide +kernel

/-- **An empty piece between CR and LF** cuts the event in two: neither part is
the answer. -/
theorem torn_not_delivered : ¬ Delivered modelCoro
    [ascii "data: \x7b\"model\":\r", [], ascii "\ndata: \"a\"\x7d\r\n\r\n"] := by
  intro h
  have huntorn := (recorded_iff _).mp h.1
  revert huntorn
  decide +kernel

end Codexon
