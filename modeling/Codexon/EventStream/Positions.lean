import Codexon.Run
import Codexon.EventStream.Feeding
import Codexon.EventStream.Scanning

/-!
# Codexon.EventStream.Positions

Which lines the readers select.  A line is found by the native scanner, lies in
one part of a block, or is fed in pieces; each way has its own test, and which
way a line goes depends on where the blocks end.  `line_positions` says exactly
when every way of reading a file selects the lines the markers name.

`Open` is what the reader keeps of an unfinished line, computed from the bytes
of the line alone.
-/

namespace Codexon.EventLines

open List

section

variable (loads : Bytes → Option Json)

/-! ## the state of an unfinished line -/

def Projected (r : EventLines) (on : Bool) (line : Bytes) : Prop :=
  if on then
    match EventProjection.feed loads {} line with
    | .ok p => r.projection = some p ∧ r.error = none
    | .error e => r.projection = none ∧ r.error = some e
  else r.projection = none ∧ r.error = none

def Chosen (r : EventLines) (line : Bytes) : Prop :=
  let selected := marked markers (line.take 250)
  let headerOnly : Bool := r.lineStart = 0 && !selected
  r.selected = some (selected || headerOnly) ∧ r.headerOnly = headerOnly ∧
    Projected loads r (selected || headerOnly) line

def Open (r : EventLines) (line : Bytes) : Prop :=
  if line.length < 250 then
    r.selected = none ∧ r.lineHead = line ∧ r.projection = none ∧ r.error = none ∧
      r.headerOnly = false
  else Chosen loads r line

def kept (r : EventLines) : (Nat × Nat × Nat) × (Bytes × Bytes) × (Nat × Option Nat) ×
    List (Nat × Bytes) :=
  ((r.readOffset, r.committed, r.lineStart), (r.digest, r.committedDigest),
    (r.bytesRead, r.eventEnd), r.yielded)

theorem kept_feedProjection (r : EventLines) (part : Bytes) :
    (r.feedProjection loads part).kept = r.kept := by
  unfold feedProjection
  split
  · rfl
  · split <;> rfl

theorem kept_beginProjection (r : EventLines) : (r.beginProjection loads).kept = r.kept := by
  unfold beginProjection
  dsimp only
  split
  · exact kept_feedProjection loads _ _
  · exact kept_feedProjection loads _ _

theorem kept_choose (r : EventLines) : (r.choose loads).kept = r.kept := by
  unfold choose
  dsimp only
  split
  · exact kept_beginProjection loads _
  · rfl

theorem kept_feed (r : EventLines) (part : Bytes) (complete : Bool) :
    (r.feed loads part complete).kept = r.kept := by
  unfold feed
  dsimp only
  split
  · rw [kept_feedProjection loads]
    split
    · exact kept_choose loads _
    · rfl
  · exact kept_feedProjection loads _ _

variable {r : EventLines}

variable {loads} in
theorem feedProjection_none (h : r.projection = none) (part : Bytes) :
    r.feedProjection loads part = r := by
  simp only [feedProjection, h]

theorem choice_feedProjection (r : EventLines) (part : Bytes) :
    (r.feedProjection loads part).selected = r.selected ∧
      (r.feedProjection loads part).headerOnly = r.headerOnly := by
  unfold feedProjection
  split
  · exact ⟨rfl, rfl⟩
  · split <;> exact ⟨rfl, rfl⟩

variable {line : Bytes}

variable {loads} in
theorem Projected.feed {on : Bool} (h : Projected loads r on line)
    (part : Bytes) : Projected loads (r.feedProjection loads part) on (line ++ part) := by
  unfold Projected at h ⊢
  cases on with
  | false =>
    rw [if_neg Bool.false_ne_true] at h ⊢
    rw [feedProjection_none h.1]
    exact h
  | true =>
    rw [if_pos rfl] at h ⊢
    rw [EventProjection.feed_append loads EventProjection.sized_start]
    cases hp : EventProjection.feed loads {} line with
    | error e =>
      rw [hp] at h
      rw [feedProjection_none h.1]
      exact h
    | ok p =>
      rw [hp] at h
      change match p.feed loads part with
        | .ok p => _
        | .error e => _
      cases hq : p.feed loads part with
      | ok q => simp only [feedProjection, h.1, hq]; exact ⟨trivial, h.2⟩
      | error e => simp only [feedProjection, h.1, hq]; exact ⟨trivial, trivial⟩

theorem projected_begin (herror : r.error = none) :
    Projected loads (r.beginProjection loads) true r.lineHead ∧
      (r.beginProjection loads).selected = r.selected ∧
      (r.beginProjection loads).headerOnly = r.headerOnly := by
  have hfresh : Projected loads { r with projection := some {} } true [] := by
    unfold Projected
    rw [if_pos rfl, EventProjection.feed]
    exact ⟨rfl, herror⟩
  have hfed := hfresh.feed r.lineHead
  have hchoice := choice_feedProjection loads { r with projection := some {} } r.lineHead
  unfold beginProjection
  dsimp only
  split
  · exact ⟨hfed, hchoice⟩
  · exact ⟨hfed, hchoice⟩

theorem chosen_choose (hprojection : r.projection = none) (herror : r.error = none)
    (hhead : r.lineHead.length ≤ 250) : Chosen loads (r.choose loads) r.lineHead := by
  have hstart : (r.choose loads).lineStart = r.lineStart := congrArg (·.1.2.2) (kept_choose loads r)
  unfold Chosen
  rw [hstart, take_of_length_le hhead]
  unfold choose
  dsimp only
  split
  · next hon =>
    obtain ⟨hprojected, hselected, honly⟩ := projected_begin loads (r := { r with
        headerOnly := r.lineStart = 0 && !marked markers r.lineHead
        selected := some (marked markers r.lineHead ||
          (decide (r.lineStart = 0) && !marked markers r.lineHead)) }) herror
    exact ⟨hselected, honly, by simpa only [hon] using hprojected⟩
  · next hon =>
    refine ⟨rfl, rfl, ?_⟩
    rw [Bool.not_eq_true] at hon
    rw [hon]
    exact ⟨hprojection, herror⟩

variable {loads} in
theorem Chosen.feed (h : Chosen loads r line) (part : Bytes)
    (hhead : (line ++ part).take 250 = line.take 250) :
    Chosen loads (r.feedProjection loads part) (line ++ part) := by
  obtain ⟨hselected, honly, hprojected⟩ := h
  have hstart : (r.feedProjection loads part).lineStart = r.lineStart :=
    congrArg (·.1.2.2) (kept_feedProjection loads r part)
  obtain ⟨hselected', honly'⟩ := choice_feedProjection loads r part
  unfold Chosen
  rw [hhead, hstart]
  exact ⟨hselected'.trans hselected, honly'.trans honly, hprojected.feed part⟩

variable {loads} in
/-- **Feeding a piece of a line** takes the state of the bytes before it to the
state of the bytes with it; at the end of the line it is chosen in any case. -/
theorem Open.feed (h : Open loads r line) (part : Bytes)
    (complete : Bool) :
    if complete then Chosen loads (r.feed loads part complete) (line ++ part)
    else Open loads (r.feed loads part complete) (line ++ part) := by
  unfold Open at h
  split at h
  · next hshort =>
    obtain ⟨hselected, hhead, hprojection, herror, honly⟩ := h
    -- What is read first completes the head of the line.
    have htake : line ++ part.take (min (250 - line.length) part.length) =
        (line ++ part).take 250 := by
      rw [take_append, take_of_length_le (by omega : line.length ≤ 250)]
      congr 1
      rw [← take_take, take_length]
    have hdrop : (line ++ part).take 250 ++ part.drop (min (250 - line.length) part.length) =
        line ++ part := by
      rw [← htake, append_assoc, take_append_drop]
    unfold EventLines.feed
    rw [hselected]
    simp only [Option.isNone_none, if_true, hhead, htake]
    by_cases hchosen : ((line ++ part).take 250).length = 250 ∨ complete
    · rw [if_pos hchosen]
      have hlen : ((line ++ part).take 250).length ≤ 250 := length_take_le _ _
      have hc := chosen_choose loads
        (r := { r with lineHead := (line ++ part).take 250 }) hprojection herror hlen
      have hfed := hc.feed (part.drop (min (250 - line.length) part.length))
        (by rw [hdrop]; simp)
      rw [hdrop] at hfed
      cases complete with
      | true => exact hfed
      | false =>
        rw [if_neg Bool.false_ne_true]
        unfold Open
        have hlong : ¬ (line ++ part).length < 250 := by
          simp only [Bool.false_eq_true, or_false, length_take] at hchosen
          omega
        rw [if_neg hlong]
        exact hfed
    · rw [if_neg hchosen]
      obtain ⟨hlen, hcomplete⟩ := not_or.mp hchosen
      have hshort' : (line ++ part).length < 250 := by
        rw [length_take] at hlen
        omega
      rw [if_neg hcomplete, feedProjection_none (by exact hprojection)]
      unfold Open
      rw [if_pos hshort', take_of_length_le hshort'.le]
      exact ⟨rfl, rfl, hprojection, herror, honly⟩
  · next hlong =>
    have hfed := h.feed part (by rw [take_append_of_le_length (by omega)])
    have hfeed : r.feed loads part complete = r.feedProjection loads part := by
      unfold EventLines.feed
      rw [h.1]
      simp
    rw [hfeed]
    cases complete with
    | true => exact hfed
    | false =>
      rw [if_neg Bool.false_ne_true]
      unfold Open
      rw [if_neg (by rw [length_append]; omega)]
      exact hfed

variable (dumps : Json → Option Bytes)

/-! ## the tests of the three ways -/

/-- The line is a `session_meta` record. -/
def record (line : Bytes) : Bool := isHeader (loads (line ++ [LF]))

/-- The lines to select: a marker in the first 250 bytes, or a record at offset 0.
This is also the test of a line that lies in one part. -/
def wanted (x : Nat × Bytes) : Bool :=
  marked markers (x.2.take 250) || x.1 = 0 && record loads x.2

/-- The test of the native scanner, with the header it leaves out. -/
def nativeWanted (x : Nat × Bytes) : Bool :=
  marked nativeMarkers (x.2.take 250) || x.1 = 0 && record loads x.2

def projected (line : Bytes) : Except PyError Json := do
  (← EventProjection.feed loads {} line).finish loads

/-- The test of a line that is fed in pieces. -/
def splitWanted (x : Nat × Bytes) : Bool :=
  if marked markers (x.2.take 250) then
    match projected loads x.2 with
    | .ok value => (dumps value).isSome
    | .error _ => true
  else x.1 = 0 && match projected loads x.2 with
    | .ok value => isHeader (some value) && (dumps value).isSome
    | .error _ => false

variable {loads dumps}

variable (dumps) in
theorem Chosen.event (h : Chosen loads r line) (part : Bytes) :
    ((if r.headerOnly && !headerEvent (r.event loads false part) then none
      else r.event loads false part).bind (encodeEvent dumps)).isSome =
        splitWanted loads dumps (r.lineStart, line) := by
  obtain ⟨-, honly, hprojected⟩ := h
  unfold splitWanted projected
  rw [honly]
  unfold Projected at hprojected
  by_cases hmarked : marked markers (line.take 250)
  · rw [hmarked, Bool.true_or, if_pos rfl] at hprojected
    simp only [hmarked, Bool.not_true, Bool.and_false, Bool.false_and, Bool.false_eq_true,
      if_false, if_true]
    cases hp : EventProjection.feed loads {} line with
    | error e =>
      rw [hp] at hprojected
      simp [EventLines.event, hprojected.2, encodeEvent, bind, Except.bind]
    | ok p =>
      rw [hp] at hprojected
      simp only [EventLines.event, hprojected.1, hprojected.2, Option.isSome_none,
        Bool.false_eq_true, if_false, bind, Except.bind]
      cases hv : p.finish loads with
      | error e => simp [encodeEvent]
      | ok value => simp [encodeEvent]
  · rw [Bool.not_eq_true] at hmarked
    rw [hmarked, Bool.not_false, Bool.and_true, Bool.false_or] at hprojected
    simp only [hmarked, Bool.not_false, Bool.and_true, Bool.false_eq_true, if_false]
    by_cases hstart : r.lineStart = 0
    · simp only [hstart, decide_true, if_true] at hprojected
      simp only [hstart, decide_true, Bool.true_and]
      cases hp : EventProjection.feed loads {} line with
      | error e =>
        rw [hp] at hprojected
        simp [EventLines.event, hprojected.2, headerEvent, bind, Except.bind]
      | ok p =>
        rw [hp] at hprojected
        simp only [EventLines.event, hprojected.1, hprojected.2, Option.isSome_none,
          Bool.false_eq_true, if_false, bind, Except.bind]
        cases hv : p.finish loads with
        | error e => simp [headerEvent]
        | ok value =>
          cases hheader : isHeader (some value) <;> simp [headerEvent, encodeEvent, hheader]
    · simp only [hstart, decide_false, Bool.false_eq_true, if_false] at hprojected
      simp [hstart, EventLines.event, hprojected.1, hprojected.2]

/-! ## parts and blocks -/

variable (loads) in
/-- The reader stands after the lines `l`. -/
structure Reads (r : EventLines) (l : Lines) : Prop where
  offset : r.readOffset = l.start + l.current.length
  lineStart : r.lineStart = l.start
  committed : r.committed = l.start
  line : Open loads r l.current

def positions (r : EventLines) : List Nat := r.yielded.map (·.1)

theorem open_start (hselected : r.selected = none) (hhead : r.lineHead = [])
    (hprojection : r.projection = none) (herror : r.error = none) (honly : r.headerOnly = false) :
    Open loads r [] := by
  unfold Open
  rw [if_pos (by simp)]
  exact ⟨hselected, hhead, hprojection, herror, honly⟩

theorem Open.start (h : Open loads r []) :
    r.selected = none ∧ r.lineHead = [] ∧ r.projection = none ∧ r.error = none ∧
      r.headerOnly = false := by
  unfold Open at h
  rwa [if_pos (by simp)] at h

theorem Open.within (h : Open loads r line) (hline : line ≠ []) :
    (r.selected.isNone && r.lineHead.isEmpty) = false := by
  unfold Open at h
  split at h
  · rw [h.1, h.2.1]
    simpa using hline
  · rw [h.1]
    rfl

variable {l : Lines}

variable (loads dumps) in
theorem finishLine_reads (event : Option Event)
    (hoffset : r.readOffset = l.start + line.length + 1) (hstart : r.lineStart = l.start) :
    Reads loads (r.finishLine dumps event).1
        { closed := l.closed ++ [(l.start, line)], start := l.start + line.length + 1, current := [] } ∧
      (r.finishLine dumps event).1.positions = r.positions ++
        if (event.bind (encodeEvent dumps)).isSome then [l.start] else [] := by
  unfold finishLine
  dsimp only
  split
  · exact ⟨⟨by simpa using hoffset, hoffset, hoffset, open_start rfl rfl rfl rfl rfl⟩,
      by simp [positions]⟩
  · next event =>
    cases hencode : encodeEvent dumps event with
    | none =>
      exact ⟨⟨by simpa using hoffset, hoffset, hoffset, open_start rfl rfl rfl rfl rfl⟩,
        by simp [positions, hencode]⟩
    | some encoded =>
      exact ⟨⟨by simpa using hoffset, hoffset, hoffset, open_start rfl rfl rfl rfl rfl⟩,
        by simp [positions, hencode, hstart]⟩

variable (dumps) in
/-- **A piece of a line.** -/
theorem readPart_open (h : Reads loads r l) {part : Bytes} (hpart : LF ∉ part) :
    (r.readPart loads dumps part).2 = true ∧
      Reads loads (r.readPart loads dumps part).1 (l.feed part) ∧
      (r.readPart loads dumps part).1.positions = r.positions := by
  have hcomplete : decide (part.getLast? = some LF) = false := by
    rw [decide_eq_false_iff_not]
    exact fun hlast => hpart (mem_of_getLast? hlast)
  unfold readPart
  simp only [hcomplete, Bool.false_and, Bool.false_eq_true, if_false]
  have hkept := kept_feed loads { r with
    digest := r.digest ++ part, readOffset := r.readOffset + part.length } part false
  have hline := h.line
  have hopen : Open loads { r with
      digest := r.digest ++ part, readOffset := r.readOffset + part.length } l.current := hline
  have hfed := hopen.feed part false
  rw [if_neg Bool.false_ne_true] at hfed
  refine ⟨trivial, ?_, congrArg (·.2.2.2.map (·.1)) hkept⟩
  rw [l.feed_part hpart]
  refine ⟨(congrArg (·.1.1) hkept).trans ?_, (congrArg (·.1.2.2) hkept).trans h.lineStart,
    (congrArg (·.1.2.1) hkept).trans h.committed, hfed⟩
  change r.readOffset + part.length = l.start + (l.current ++ part).length
  rw [h.offset, length_append, Nat.add_assoc]

theorem getLast_line (line : Bytes) : decide ((line ++ [LF]).getLast? = some LF) = true := by
  simp

variable (dumps) in
/-- **The end of a line** that began in an earlier part. -/
theorem readPart_split (h : Reads loads r l) (hl : l.current ≠ [])
    {part : Bytes} (hpart : LF ∉ part) :
    Reads loads (r.readPart loads dumps (part ++ [LF])).1 (l.feed (part ++ [LF])) ∧
      (r.readPart loads dumps (part ++ [LF])).1.positions = r.positions ++
        if splitWanted loads dumps (l.start, l.current ++ part) then [l.start] else [] := by
  have hopen : Open loads { r with
      digest := r.digest ++ (part ++ [LF])
      readOffset := r.readOffset + (part ++ [LF]).length } l.current := h.line
  have hkept := kept_feed loads { r with
      digest := r.digest ++ (part ++ [LF])
      readOffset := r.readOffset + (part ++ [LF]).length } part true
  have hfed := hopen.feed part true
  rw [if_pos rfl] at hfed
  have hoffset := (congrArg (·.1.1) hkept).trans
    (show r.readOffset + (part ++ [LF]).length = l.start + (l.current ++ part).length + 1 by
      rw [h.offset, length_append, length_append, length_singleton]
      omega)
  have hstart := (congrArg (·.1.2.2) hkept).trans h.lineStart
  have hevent := Chosen.event dumps hfed (part ++ [LF])
  rw [show EventLines.lineStart _ = l.start from hstart] at hevent
  have hfinish := fun event =>
    finishLine_reads loads dumps event hoffset hstart
  have hpositions := congrArg (·.2.2.2.map (·.1)) hkept
  unfold readPart
  simp only [getLast_line, h.line.within hl, Bool.true_and, Bool.false_eq_true, if_false, if_true,
    dropLast_concat]
  rw [l.feed_line hpart, ← hevent]
  exact ⟨(hfinish _).1, (hfinish _).2.trans (congrArg (· ++ _) hpositions)⟩

variable (dumps) in
/-- **A line that lies in one part.** -/
theorem readPart_direct (h : Reads loads r l) (hl : l.current = [])
    (hline : LF ∉ line) :
    Reads loads (r.readPart loads dumps (line ++ [LF])).1 (l.feed (line ++ [LF])) ∧
      (r.readPart loads dumps (line ++ [LF])).1.positions = r.positions ++
        if wanted loads (l.start, line) then [l.start] else [] := by
  have hopen := h.line
  rw [hl] at hopen
  obtain ⟨hselected, hhead, hprojection, herror, honly⟩ := hopen.start
  have hoffset : r.readOffset + (line ++ [LF]).length = l.start + line.length + 1 := by
    rw [h.offset, hl, length_append, length_singleton, length_nil]
    omega
  have hevent : ((if r.headerOnly && !headerEvent (event loads { r with
      digest := r.digest ++ (line ++ [LF])
      readOffset := r.readOffset + (line ++ [LF]).length } true (line ++ [LF])) then none
      else event loads { r with
        digest := r.digest ++ (line ++ [LF])
        readOffset := r.readOffset + (line ++ [LF]).length } true (line ++ [LF])).bind
          (encodeEvent dumps)).isSome = wanted loads (l.start, line) := by
    rw [honly]
    simp only [event, herror, hprojection, h.lineStart, Bool.false_and, Bool.false_eq_true, if_false,
      Option.isSome_none, Bool.true_and, marked_line markers_plain, wanted, record]
    split
    · next hw => rw [hw]; rfl
    · next hw => rw [Bool.not_eq_true] at hw; rw [hw]; rfl
  have hfinish := fun event =>
    finishLine_reads loads dumps (r := { r with
      digest := r.digest ++ (line ++ [LF])
      readOffset := r.readOffset + (line ++ [LF]).length }) event hoffset h.lineStart
  unfold readPart
  simp only [getLast_line, hselected, hhead, Option.isNone_none, isEmpty_nil, Bool.true_and,
    if_true]
  rw [l.feed_line hline, hl, nil_append, ← hevent]
  simp only [hselected, hhead] at hfinish ⊢
  exact hfinish _

/-! ### the native scanner -/

theorem take_idxOf (block : Bytes) : LF ∉ block.take (block.idxOf LF) := by
  intro h
  have hmem := h
  rw [mem_take_iff_idxOf_lt (mem_of_mem_take h)] at hmem
  exact lt_irrefl _ hmem

variable {block : Bytes}

theorem take_idxOf_succ (h : LF ∈ block) :
    block.take (block.idxOf LF + 1) = block.take (block.idxOf LF) ++ [LF] := by
  have hlt := idxOf_lt_length_iff.mpr h
  rw [take_add_one, List.getElem?_eq_getElem hlt, List.getElem_idxOf hlt]
  rfl

theorem exists_line (h : LF ∈ block) : ∃ line rest, LF ∉ line ∧ block = line ++ [LF] ++ rest ∧
      block.take (block.idxOf LF + 1) = line ++ [LF] ∧ block.drop (block.idxOf LF + 1) = rest := by
  refine ⟨block.take (block.idxOf LF), block.drop (block.idxOf LF + 1), take_idxOf block, ?_,
    take_idxOf_succ h, rfl⟩
  rw [← take_idxOf_succ h, take_append_drop]

theorem exists_newline (h : (scanEventLines block).1 ≠ 0) : LF ∈ block := by
  by_contra hno
  rw [scanEventLines_eq, Lines.read, Lines.feed_part _ hno] at h
  exact h rfl

variable (loads) in
theorem nativeLines_positions (r : EventLines) (hblock : (scanEventLines block).1 ≠ 0) :
    (r.nativeLines loads block).map (r.readOffset + ·.1) =
      (((Lines.read 0 block).closed.map fun x => (r.readOffset + x.1, x.2)).filter
        (nativeWanted loads)).map (·.1) := by
  obtain ⟨line, rest, hline, hsplit, htake, -⟩ := exists_line (exists_newline hblock)
  obtain ⟨others, hfirst, hothers⟩ := Lines.read_first hline rest
  rw [← hsplit] at hfirst
  -- Away from the start of the file the scanner's markers alone decide.
  have hmarked (xs : List (Nat × Bytes)) (hxs : ∀ x ∈ xs, r.readOffset + x.1 ≠ 0) :
      ((xs.filter fun x => marked nativeMarkers (x.2.take 250)).map
        fun x => (x.1, x.1 + x.2.length + 1)).map (r.readOffset + ·.1) =
      ((xs.map fun x => (r.readOffset + x.1, x.2)).filter (nativeWanted loads)).map (·.1) := by
    rw [filter_map, List.map_map, List.map_map]
    congr 1
    refine filter_congr fun x hx => ?_
    have hzero : decide (r.readOffset + x.1 = 0) = false := by simpa using hxs x hx
    simp only [nativeWanted, Function.comp, hzero, Bool.false_and, Bool.or_false]
  unfold nativeLines
  rw [scanEventLines_eq]
  dsimp only
  by_cases hstart : r.readOffset = 0
  · have hrest := hmarked others fun x hx => by have := hothers x hx; omega
    rw [hfirst]
    by_cases hnative : marked nativeMarkers (line.take 250)
    · rw [if_neg (by simp [hnative])]
      rw [hstart] at hrest ⊢
      simpa [hnative, nativeWanted] using hrest
    · rw [Bool.not_eq_true] at hnative
      have hhead : (((others.filter fun x => marked nativeMarkers (x.2.take 250)).map
          fun x => (x.1, x.1 + x.2.length + 1)).head?.all (·.1 ≠ 0)) = true := by
        rw [Option.all_eq_true]
        intro y hy
        obtain ⟨x, hx, rfl⟩ := List.mem_map.mp (mem_of_head? hy)
        simpa using hothers x (mem_of_mem_filter hx)
      rw [filter_cons_of_neg (by simp [hnative]), if_pos ⟨hstart, hhead⟩, htake]
      rw [hstart] at hrest ⊢
      have hfirstWanted : nativeWanted loads (0, line) = isHeader (loads (line ++ [LF])) := by
        simp [nativeWanted, hnative, record]
      split
      · next hrecord =>
        simpa [hfirstWanted, hrecord] using hrest
      · next hrecord =>
        simpa [hfirstWanted, hrecord] using hrest
  · rw [if_neg (by simp [hstart])]
    exact hmarked _ fun x _ => by omega

/-- **The native scanner** reads the complete lines of a block. -/
theorem readNative_reads (h : Reads loads r l) (hl : l.current = [])
    (hblock : (scanEventLines block).1 ≠ 0) :
    Reads loads (r.readNative loads block) (l.feed (block.take (scanEventLines block).1)) ∧
      (r.readNative loads block).positions = r.positions ++
        ((l.new (block.take (scanEventLines block).1)).filter (nativeWanted loads)).map (·.1) := by
  have hopen := h.line
  rw [hl] at hopen
  obtain ⟨hselected, hhead, hprojection, herror, honly⟩ := hopen.start
  have hoffset : r.readOffset = l.start := by
    rw [h.offset, hl]
    rfl
  have hscan : (scanEventLines block).1 = (Lines.read 0 block).start := by rw [scanEventLines_eq]
  have htake : Lines.read 0 (block.take (scanEventLines block).1) =
      { Lines.read 0 block with current := [] } := by
    rw [hscan, Lines.read_take]
  refine ⟨?_, ?_⟩
  · have hfeed := l.feed_start hl (block.take (scanEventLines block).1)
    rw [htake] at hfeed
    rw [hfeed]
    have hnext : r.readOffset + (scanEventLines block).1 = l.start + (Lines.read 0 block).start := by
      rw [hoffset, hscan]
    exact ⟨hnext, hnext, hnext, open_start hselected hhead hprojection herror honly⟩
  · have hnew := Lines.new_start l hl (block.take (scanEventLines block).1)
    rw [htake] at hnew
    rw [hnew, ← hoffset, ← nativeLines_positions loads r hblock]
    simp [positions, readNative]

/-! ## every way of reading -/

variable (loads dumps) in
/-- The three ways select the line or not alike. -/
def Agree (x : Nat × Bytes) : Prop :=
  nativeWanted loads x = wanted loads x ∧ (x.2 ≠ [] → splitWanted loads dumps x = wanted loads x)

variable (loads) in
/-- The reader stands after the lines `l` and has selected the lines `xs` among
those it wants. -/
def ReadsTo (r : EventLines) (l : Lines) (before : List Nat) (xs : List (Nat × Bytes)) : Prop :=
  Reads loads r l ∧ r.positions = before ++ (xs.filter (wanted loads)).map (·.1)

theorem readPart_reads (h : Reads loads r l)
    {part : Bytes} (hpart : LF ∉ part ∨ ∃ line, LF ∉ line ∧ part = line ++ [LF])
    (hagree : ∀ x ∈ l.new part, Agree loads dumps x) :
    ReadsTo loads (r.readPart loads dumps part).1 (l.feed part) r.positions (l.new part) := by
  rcases hpart with hpart | ⟨line, hline, rfl⟩
  · obtain ⟨-, hreads, hpositions⟩ := readPart_open dumps h hpart
    exact ⟨hreads, by rw [hpositions, l.new_part hpart]; simp⟩
  · rw [l.new_line hline] at hagree ⊢
    have hone : ([(l.start, l.current ++ line)].filter (wanted loads)).map (·.1) =
        if wanted loads (l.start, l.current ++ line) then [l.start] else [] := by
      rw [filter_cons]
      split <;> rfl
    rw [ReadsTo, hone]
    by_cases hl : l.current = []
    · have hdirect := readPart_direct dumps h hl hline
      rwa [hl, nil_append]
    · have hsplit := readPart_split dumps h hl hline
      rwa [(hagree _ (mem_singleton_self _)).2 (by simp [hl])] at hsplit

variable (dumps) in
/-- **A block** is read to its end, or to the end of a line whose event cannot
be encoded. -/
theorem readBlock_reads (native : Nat → Bool) (h : Reads loads r l)
    (hlf : LF ∉ l.current) (hagree : ∀ x ∈ l.new block, Agree loads dumps x) :
    ∃ done rest, block = done ++ rest ∧
      ReadsTo loads (r.readBlock loads dumps native block).1 (l.feed done) r.positions (l.new done) ∧
      ((r.readBlock loads dumps native block).2 = true → rest = []) := by
  induction hn : block.length using Nat.strong_induction_on generalizing r l block with
  | h n ih =>
    -- After the bytes `first` the rest of the block is read in the same way.
    have hnext {r' : EventLines} {first rest : Bytes} (hsplit : block = first ++ rest)
        (hfirst : first ≠ []) (h' : ReadsTo loads r' (l.feed first) r.positions (l.new first)) :
        ∃ done rest', block = done ++ rest' ∧
          ReadsTo loads (r'.readBlock loads dumps native rest).1 (l.feed done) r.positions
            (l.new done) ∧
          ((r'.readBlock loads dumps native rest).2 = true → rest' = []) := by
      have hpos := length_pos_iff.mpr hfirst
      have hlen : rest.length < n := by
        rw [← hn, hsplit, length_append]
        omega
      have hagree' : ∀ x ∈ (l.feed first).new rest, Agree loads dumps x := fun x hx =>
        hagree x (by rw [hsplit, l.new_append]; exact mem_append_right _ hx)
      obtain ⟨done, rest', hrest, ⟨hreads, hpositions⟩, hflag⟩ :=
        ih _ hlen h'.1 (l.current_feed hlf first) hagree' rfl
      refine ⟨first ++ done, rest', by rw [hsplit, hrest, append_assoc], ⟨?_, ?_⟩, hflag⟩
      · rw [l.feed_append]
        exact hreads
      · rw [hpositions, h'.2, l.new_append]
        simp
    rw [readBlock]
    by_cases hblock : block = []
    · rw [dif_pos hblock]
      exact ⟨[], [], by simpa using hblock, ⟨h, by simp [Lines.new, Lines.feed]⟩, fun _ => rfl⟩
    · rw [dif_neg hblock]
      split
      · next hnative =>
        -- The reader is at the start of a line.
        have hl : l.current = [] := by
          by_contra hl
          have := h.line.within hl
          simp [hnative.2.1, hnative.2.2.1] at this
        obtain ⟨hreads, hpositions⟩ := readNative_reads h hl hnative.2.2.2
        refine hnext (take_append_drop _ block).symm ?_ ⟨hreads, ?_⟩
        · rw [Ne, take_eq_nil_iff, not_or]
          exact ⟨hnative.2.2.2, hblock⟩
        · rw [hpositions]
          congr 2
          refine filter_congr fun x hx => (hagree x ?_).1
          rw [← take_append_drop (scanEventLines block).1 block, l.new_append]
          exact mem_append_left _ hx
      · dsimp only
        generalize hfinish : (if LF ∈ block then block.idxOf LF + 1 else block.length) = finish
        have hpart : LF ∉ block.take finish ∨ ∃ line, LF ∉ line ∧ block.take finish = line ++ [LF] := by
          by_cases hmem : LF ∈ block
          · rw [if_pos hmem] at hfinish
            obtain ⟨line, rest, hline, -, htake, -⟩ := exists_line hmem
            exact .inr ⟨line, hline, hfinish ▸ htake⟩
          · exact .inl fun hno => hmem (mem_of_mem_take hno)
        have hfirst : block.take finish ≠ [] := by
          rw [Ne, take_eq_nil_iff, not_or]
          refine ⟨?_, hblock⟩
          have := length_pos_iff.mpr hblock
          split at hfinish <;> omega
        have hsplit := (take_append_drop finish block).symm
        have hread := readPart_reads h hpart fun x hx => hagree x (by
          rw [hsplit, l.new_append]; exact mem_append_left _ hx)
        split
        · next r' heq =>
          rw [heq] at hread
          exact hnext hsplit hfirst hread
        · next r' heq =>
          rw [heq] at hread
          exact ⟨_, _, hsplit, hread, fun hflag => absurd hflag (by simp)⟩

variable (loads) in
/-- What the reader has read of the file: every line it wants, and the offset
after the last complete line. -/
def ReadUpTo (file : Bytes) (offset : Nat) (r : EventLines) : Prop :=
  ∃ done rest, file.drop offset = done ++ rest ∧
    ReadsTo loads r (Lines.read offset done) [] (Lines.read offset done).closed

theorem readBlocks_reads {file : Bytes} {offset : Nat}
    (hagree : ∀ x ∈ (Lines.read offset (file.drop offset)).closed, Agree loads dumps x)
    (chunk : Nat) (native : Nat → Bool) (left : Nat) (h : ReadUpTo loads file offset r) :
    ReadUpTo loads file offset (r.readBlocks loads dumps file chunk native left) := by
  induction left using Nat.strong_induction_on generalizing r with
  | h left ih =>
    rw [readBlocks]
    split
    · exact h
    · next hblock =>
      obtain ⟨done, rest, hfile, hreads, hpositions⟩ := h
      have hrest : file.drop r.readOffset = rest := by
        rw [hreads.offset, Lines.position_read, ← drop_drop, hfile, drop_left]
      have hread : ReadUpTo loads file offset (readBlock loads dumps native
          { r with bytesRead := r.bytesRead + ((file.drop r.readOffset).take (min chunk left)).length }
          ((file.drop r.readOffset).take (min chunk left))).1 := by
        have hreads' : Reads loads { r with bytesRead := r.bytesRead +
            ((file.drop r.readOffset).take (min chunk left)).length } (Lines.read offset done) :=
          ⟨hreads.offset, hreads.lineStart, hreads.committed, hreads.line⟩
        obtain ⟨first, others, hsplit, hto, -⟩ := readBlock_reads dumps native hreads'
          (Lines.current_feed _ (by simp) done)
          fun x (hx : x ∈ Lines.new _ ((file.drop r.readOffset).take (min chunk left))) => hagree x (by
            rw [hfile, Lines.read, Lines.feed_append, Lines.closed_feed,
              ← take_append_drop (min chunk left) rest, Lines.new_append, ← hrest]
            exact mem_append_right _ (mem_append_left _ hx))
        refine ⟨done ++ first, others ++ rest.drop (min chunk left), ?_, ?_, ?_⟩
        · rw [hfile, ← hrest, append_assoc, ← append_assoc first, ← hsplit,
            take_append_drop]
        · rw [Lines.read, Lines.feed_append]
          exact hto.1
        · have hbefore : positions { r with bytesRead := r.bytesRead +
              ((file.drop r.readOffset).take (min chunk left)).length } = r.positions := rfl
          rw [hto.2, hbefore, hpositions, Lines.read_append, Lines.closed_feed]
          simp
      dsimp only
      split
      · next r' heq =>
        rw [heq] at hread
        exact ih _ (left_sub_lt hblock) hread
      · next r' heq =>
        rw [heq] at hread
        exact hread

variable (loads) in
theorem readUpTo_start (file : Bytes) (offset : Nat) (digest : Bytes) :
    ReadUpTo loads file offset (start offset digest) :=
  ⟨[], file.drop offset, rfl, ⟨rfl, rfl, rfl, open_start rfl rfl rfl rfl rfl⟩, rfl⟩

variable (loads) in
/-- What the readers promise, after any reading: `committed` is the offset after
the last complete line read, and of the complete lines read those the markers
name, and a record at offset 0, are selected. -/
def Faithful (file : Bytes) (offset : Nat) (r : EventLines) : Prop :=
  let l := Lines.read offset ((file.drop offset).take (r.readOffset - offset))
  r.committed = l.start ∧ r.positions = (l.closed.filter (wanted loads)).map (·.1)

theorem ReadUpTo.faithful {file : Bytes} {offset : Nat} (h : ReadUpTo loads file offset r) :
    Faithful loads file offset r := by
  obtain ⟨done, rest, hfile, hreads, hpositions⟩ := h
  have hoffset : r.readOffset - offset = done.length := by
    rw [hreads.offset, Lines.position_read]
    omega
  unfold Faithful
  rw [hoffset, hfile, take_left]
  exact ⟨hreads.committed, hpositions⟩

/-! ## lines on which the ways differ -/

theorem eq_of_filter_positions {xs : List (Nat × Bytes)} (hxs : xs.Pairwise (·.1 < ·.1))
    {p q : Nat × Bytes → Bool} (h : (xs.filter p).map (·.1) = (xs.filter q).map (·.1))
    {x : Nat × Bytes} (hx : x ∈ xs) : p x = q x := by
  have hnodup : (xs.map (·.1)).Nodup := pairwise_map.mpr (hxs.imp fun h => h.ne)
  have hmem {p q : Nat × Bytes → Bool}
      (h : (xs.filter p).map (·.1) = (xs.filter q).map (·.1)) (hp : p x) : q x := by
    have hposition : x.1 ∈ (xs.filter q).map (·.1) := by
      rw [← h]
      exact mem_map_of_mem (List.mem_filter.mpr ⟨hx, hp⟩)
    obtain ⟨y, hy, heq⟩ := List.mem_map.mp hposition
    obtain ⟨hy, hq⟩ := List.mem_filter.mp hy
    rwa [← inj_on_of_nodup_map hnodup hy hx heq]
  exact Bool.eq_iff_iff.mpr ⟨hmem h, hmem h.symm⟩

variable (dumps) in
/-- One byte a call: no line but the empty one lies in one part. -/
theorem read_byte {file : Bytes} {offset : Nat} {done rest : Bytes} {c : Byte}
    (hfile : file.drop offset = done ++ c :: rest)
    (hreads : Reads loads r (Lines.read offset done)) :
    Reads loads (r.read loads dumps file ⟨1, 1, fun _ => false⟩) (Lines.read offset (done ++ [c])) ∧
      (r.read loads dumps file ⟨1, 1, fun _ => false⟩).positions = r.positions ++
        (((Lines.read offset done).new [c]).filter fun x =>
          if x.2 = [] then wanted loads x else splitWanted loads dumps x).map (·.1) := by
  have hblock : (file.drop r.readOffset).take (min 1 1) = [c] := by
    rw [hreads.offset, Lines.position_read, ← drop_drop, hfile, drop_left]
    rfl
  have hreads' : Reads loads { r with bytesRead := r.bytesRead + 1 } (Lines.read offset done) :=
    ⟨hreads.offset, hreads.lineStart, hreads.committed, hreads.line⟩
  have hread : r.read loads dumps file ⟨1, 1, fun _ => false⟩ =
      (readPart loads dumps { r with bytesRead := r.bytesRead + 1 } [c]).1 := by
    have hone : (if LF ∈ [c] then [c].idxOf LF + 1 else [c].length) = 1 := by
      by_cases hc : c = LF <;> simp [hc, Ne.symm]
    rw [read, readBlocks]
    simp only [hblock, cons_ne_nil, dite_false, length_singleton, Nat.sub_self]
    rw [readBlock]
    simp only [cons_ne_nil, dite_false, Bool.false_eq_true, false_and, hone,
      take_of_length_le (show [c].length ≤ 1 by simp), drop_one, tail_cons]
    split
    · next r' heq =>
      split at heq
      · next r'' heq' =>
        rw [readBlock, dif_pos rfl, Prod.mk.injEq] at heq
        rw [readBlocks]
        simp [heq', heq.1]
      · next r'' heq' => simp at heq
    · next r' heq =>
      split at heq
      · next r'' heq' =>
        rw [readBlock, dif_pos rfl, Prod.mk.injEq] at heq
        simp at heq
      · next r'' heq' =>
        rw [Prod.mk.injEq] at heq
        simp [heq', heq.1]
  have hpush : (Lines.read offset done).feed [c] = Lines.read offset (done ++ [c]) :=
    (Lines.feed_append _ _ _).symm
  rw [hread, ← hpush]
  have hbefore : positions { r with bytesRead := r.bytesRead + 1 } = r.positions := rfl
  rw [← hbefore]
  by_cases hc : c = LF
  · rw [hc]
    have hone := (Lines.read offset done).new_line (by simp : LF ∉ ([] : Bytes))
    rw [nil_append] at hone
    rw [hone]
    by_cases hl : (Lines.read offset done).current = []
    · have hdirect := readPart_direct dumps hreads' hl (by simp : LF ∉ ([] : Bytes))
      refine ⟨hdirect.1, hdirect.2.trans ?_⟩
      rw [hl]
      congr 1
      simp only [List.append_nil, filter_cons, if_true, filter_nil]
      split <;> rfl
    · have hsplit := readPart_split dumps hreads' hl (by simp : LF ∉ ([] : Bytes))
      refine ⟨hsplit.1, hsplit.2.trans ?_⟩
      congr 1
      simp only [List.append_nil, filter_cons, hl, if_false, filter_nil]
      split <;> rfl
  · have hpart : LF ∉ [c] := by simpa using Ne.symm hc
    obtain ⟨-, hreads, hpositions⟩ := readPart_open dumps hreads' hpart
    exact ⟨hreads, by rw [hpositions, Lines.new_part _ hpart]; simp⟩

variable (loads dumps) in
theorem run_bytes (file : Bytes) (offset : Nat) (digest : Bytes) {done rest : Bytes}
    (hfile : file.drop offset = done ++ rest) :
    Reads loads (run (read loads dumps file) (start offset digest)
        (List.replicate done.length ⟨1, 1, fun _ => false⟩)) (Lines.read offset done) ∧
      (run (read loads dumps file) (start offset digest)
        (List.replicate done.length ⟨1, 1, fun _ => false⟩)).positions =
        ((Lines.read offset done).closed.filter fun x =>
          if x.2 = [] then wanted loads x else splitWanted loads dumps x).map (·.1) := by
  induction done using List.reverseRecOn generalizing rest with
  | nil => exact ⟨⟨rfl, rfl, rfl, open_start rfl rfl rfl rfl rfl⟩, rfl⟩
  | append_singleton done c ih =>
    rw [append_assoc] at hfile
    obtain ⟨hreads, hpositions⟩ := ih hfile
    rw [length_append, length_singleton, replicate_add, run_append]
    obtain ⟨hreads', hpositions'⟩ := read_byte dumps hfile hreads
    refine ⟨hreads', ?_⟩
    show positions (read loads dumps file _ _) = _
    rw [hpositions', hpositions, ← map_append, ← filter_append, ← Lines.closed_feed,
      Lines.read, ← Lines.feed_append]
    rfl

variable (loads dumps) in
theorem read_natively (file : Bytes) (offset : Nat) (digest : Bytes) :
    let n := (Lines.read 0 (file.drop offset)).start
    let r := read loads dumps file (start offset digest) ⟨n, n, fun _ => true⟩
    r.readOffset = offset + n ∧ r.positions =
      ((Lines.read offset (file.drop offset)).closed.filter (nativeWanted loads)).map (·.1) := by
  dsimp only
  generalize hdata : file.drop offset = data
  have htake := Lines.read_take data
  have hclosed : (Lines.read offset data).closed = Lines.new ⟨[], offset, []⟩ data := rfl
  have hblock : (file.drop (start offset digest).readOffset).take
      (min (Lines.read 0 data).start (Lines.read 0 data).start) =
        data.take (Lines.read 0 data).start := by
    rw [min_self]
    exact congrArg _ hdata
  have hscan : (scanEventLines (data.take (Lines.read 0 data).start)).1 =
      (Lines.read 0 data).start := by
    rw [scanEventLines_eq, htake]
  have hpos : (Lines.read 0 data).start + (Lines.read 0 data).current.length = data.length := by
    simpa using Lines.position_read 0 data
  have hlen : (data.take (Lines.read 0 data).start).length = (Lines.read 0 data).start := by
    rw [length_take]
    omega
  have hnew : (Lines.read offset data).closed =
      Lines.new ⟨[], offset, []⟩ (data.take (Lines.read 0 data).start) := by
    rw [hclosed, Lines.new_start _ rfl, Lines.new_start _ rfl, htake]
  by_cases hn : (Lines.read 0 data).start = 0
  · rw [hnew, hn, read, readBlocks]
    simp [start, positions, Lines.new, Lines.feed]
  · have hne : data.take (Lines.read 0 data).start ≠ [] := by
      rw [← length_pos_iff, hlen]
      omega
    have hreads : Reads loads { start offset digest with bytesRead :=
        (start offset digest).bytesRead + (Lines.read 0 data).start } ⟨[], offset, []⟩ :=
      ⟨rfl, rfl, rfl, open_start rfl rfl rfl rfl rfl⟩
    obtain ⟨hreads', hpositions⟩ := readNative_reads hreads rfl
      (show (scanEventLines (data.take (Lines.read 0 data).start)).1 ≠ 0 by rw [hscan]; exact hn)
    have hread : read loads dumps file (start offset digest)
        ⟨(Lines.read 0 data).start, (Lines.read 0 data).start, fun _ => true⟩ =
        readNative loads { start offset digest with bytesRead :=
          (start offset digest).bytesRead + (Lines.read 0 data).start }
          (data.take (Lines.read 0 data).start) := by
      rw [read, readBlocks]
      simp only [hblock, hne, dite_false, hlen]
      rw [readBlock, dif_neg hne, dif_pos ⟨rfl, rfl, rfl, by rw [hscan]; exact hn⟩, readBlock,
        dif_pos (by rw [hscan, drop_take, Nat.sub_self, take_zero])]
      dsimp only
      rw [readBlocks]
      simp
    rw [hread]
    refine ⟨?_, ?_⟩
    · show offset + (scanEventLines (data.take (Lines.read 0 data).start)).1 = _
      rw [hscan]
    · rw [hpositions, hscan, take_take, min_self, ← hnew]
      rfl

/-- **The lines every way of reading takes alike**: a marker that only the Python
scanner knows is not the one that decides; the event of a line that is fed in
pieces can be encoded; and the first line is a record to both parsers or to
neither. -/
structure Plain (loads : Bytes → Option Json) (dumps : Json → Option Bytes) (x : Nat × Bytes) :
    Prop where
  native : marked markers (x.2.take 250) →
    marked nativeMarkers (x.2.take 250) ∨ x.1 = 0 ∧ record loads x.2
  encodes : x.2 ≠ [] → marked markers (x.2.take 250) →
    ∀ value, projected loads x.2 = .ok value → (dumps value).isSome
  header : x.2 ≠ [] → x.1 = 0 → ¬ marked markers (x.2.take 250) →
    (record loads x.2 ↔ ∃ value, projected loads x.2 = .ok value ∧ isHeader (some value) ∧
      (dumps value).isSome)

variable (loads dumps) in
theorem plain_iff (x : Nat × Bytes) : Plain loads dumps x ↔ Agree loads dumps x := by
  have hmarkers : marked nativeMarkers (x.2.take 250) → marked markers (x.2.take 250) := by
    unfold marked markers
    rw [any_append, Bool.or_eq_true]
    exact .inl
  have hnative : nativeWanted loads x = wanted loads x ↔ (marked markers (x.2.take 250) →
      marked nativeMarkers (x.2.take 250) ∨ x.1 = 0 ∧ record loads x.2) := by
    rw [Bool.eq_iff_iff]
    simp only [nativeWanted, wanted, Bool.or_eq_true, Bool.and_eq_true, decide_eq_true_eq]
    constructor
    · exact fun h hm => h.mpr (.inl hm)
    · exact fun h => ⟨fun hw => hw.imp_left hmarkers, fun hw => hw.elim h .inr⟩
  have hsplit : splitWanted loads dumps x = wanted loads x ↔
      (marked markers (x.2.take 250) →
        ∀ value, projected loads x.2 = .ok value → (dumps value).isSome) ∧
      (x.1 = 0 → ¬ marked markers (x.2.take 250) →
        (record loads x.2 ↔ ∃ value, projected loads x.2 = .ok value ∧ isHeader (some value) ∧
          (dumps value).isSome)) := by
    unfold splitWanted wanted
    cases hm : marked markers (x.2.take 250) with
    | true =>
      cases hp : projected loads x.2 with
      | error e => simp
      | ok value => simp
    | false =>
      by_cases hx : x.1 = 0
      · cases hp : projected loads x.2 with
        | error e => cases record loads x.2 <;> simp [hx]
        | ok value =>
          cases record loads x.2 <;> cases hheader : isHeader (some value) <;>
            cases hdumps : (dumps value).isSome <;> simp [hx, hheader, hdumps]
      · simp [hx]
  unfold Agree
  rw [hnative, hsplit]
  constructor
  · exact fun h => ⟨h.native, fun hne => ⟨h.encodes hne, h.header hne⟩⟩
  · exact fun h => ⟨h.1, fun hne => (h.2 hne).1, fun hne => (h.2 hne).2⟩

variable (loads dumps) in
/-- **Line selection**: every run of reads, with any limits, block sizes and
choices of the scanner, selects the lines the markers name exactly when the
complete lines of the file are plain. -/
theorem line_positions (file : Bytes) (offset : Nat) (digest : Bytes) : (∀ calls : List Call,
      Faithful loads file offset (run (read loads dumps file) (start offset digest) calls)) ↔
    ∀ x ∈ (Lines.read offset (file.drop offset)).closed, Plain loads dumps x := by
  constructor
  · intro h x hx
    rw [plain_iff]
    have hincreasing := Lines.read_increasing offset (file.drop offset)
    refine ⟨?_, fun hne => ?_⟩
    · obtain ⟨hoffset, hpositions⟩ := read_natively loads dumps file offset digest
      have hfaithful := (h [⟨(Lines.read 0 (file.drop offset)).start,
        (Lines.read 0 (file.drop offset)).start, fun _ => true⟩]).2
      rw [run_cons, run_nil, hoffset, Nat.add_sub_cancel_left, hpositions] at hfaithful
      have hlines : (Lines.read offset
          ((file.drop offset).take (Lines.read 0 (file.drop offset)).start)).closed =
            (Lines.read offset (file.drop offset)).closed := by
        have hnew (bytes : Bytes) : (Lines.read offset bytes).closed =
            Lines.new ⟨[], offset, []⟩ bytes := rfl
        rw [hnew, hnew, Lines.new_start _ rfl, Lines.new_start _ rfl, Lines.read_take]
      rw [hlines] at hfaithful
      exact eq_of_filter_positions hincreasing hfaithful hx
    · obtain ⟨hreads, hpositions⟩ := run_bytes loads dumps file offset digest
        (List.append_nil (file.drop offset)).symm
      have hfaithful := (h (List.replicate (file.drop offset).length ⟨1, 1, fun _ => false⟩)).2
      rw [hpositions, hreads.offset, Lines.position_read, Nat.add_sub_cancel_left,
        take_length] at hfaithful
      simpa [hne] using eq_of_filter_positions hincreasing hfaithful hx
  · intro h calls
    refine ReadUpTo.faithful (run_inv (fun r call hr => ?_) (readUpTo_start loads file offset digest)
      calls)
    exact readBlocks_reads (fun x hx => (plain_iff loads dumps x).mp (h x hx)) _ _ _ hr

/-- The native scanner does not know `session_meta`: a second header line is not
selected, which the Python scanner selects. -/
theorem line_positions_header :
    ¬ ∀ (loads : Bytes → Option Json) (dumps : Json → Option Bytes) (file : Bytes) (offset : Nat)
      (digest : Bytes) (calls : List Call),
      Faithful loads file offset (run (read loads dumps file) (start offset digest) calls) := by
  intro h
  let line : Bytes := ascii "\x7b\"type\":\"session_meta\"\x7d" ++ [LF]
  let loads : Bytes → Option Json := fun text =>
    if text = line then some (.obj [(py "type", .str (py "session_meta"))]) else none
  let dumps : Json → Option Bytes := fun _ => some []
  have hlines : (Lines.read 0 (line ++ line)).closed =
      [(0, line.dropLast), (24, line.dropLast)] ∧ (Lines.read 0 (line ++ line)).start = 48 := by
    decide +kernel
  obtain ⟨hoffset, hpositions⟩ := read_natively loads dumps (line ++ line) 0 []
  rw [drop_zero] at hoffset hpositions
  have hfaithful := (h loads dumps (line ++ line) 0 []
    [⟨(Lines.read 0 (line ++ line)).start, (Lines.read 0 (line ++ line)).start, fun _ => true⟩]).2
  rw [run_cons, run_nil, hoffset, hpositions, drop_zero, Nat.zero_add, Nat.sub_zero,
    Lines.read_take, hlines.1] at hfaithful
  revert hfaithful
  decide +kernel

end

end Codexon.EventLines
