import Codexon.EventStream
import Mathlib.Data.List.Infix

/-!
# Codexon.EventStream.Scanning

`EventLines` and the native scanner.  The generator of `read` is run to its
end; what it has yielded is part of the reader.  A hash is known by the bytes
it was updated with, and the file is read in the order of its bytes, so a
block is what follows `readOffset`.  Reading the header alone
(`first_record=True`) is not part of the model.
-/

namespace Codexon

open List

/-- The line feed. -/
def LF : Byte := 10

def marked (markers : List Bytes) (text : Bytes) : Bool := markers.any (· <:+: text)

def nativeMarkers : List Bytes :=
  [ascii "\"turn_context\"", ascii "\"token_usage_record\"", ascii "\"event_msg\"",
    ascii "\"compacted\""]

def scanLine (data : Bytes) (found : Nat × List (Nat × Nat)) (newline : Nat) :
    Nat × List (Nat × Nat) :=
  let (consumed, selected) := found
  let finish := newline + 1
  let start := (data.take (min finish (consumed + 250))).drop consumed
  (finish, if marked nativeMarkers start then selected ++ [(consumed, finish)] else selected)

def scanEventLines (data : Bytes) : Nat × List (Nat × Nat) :=
  ((List.range data.length).filter (data[·]? = some LF)).foldl (scanLine data) (0, [])

/-- An `EventLines`. -/
structure EventLines where
  readOffset : Nat
  committed : Nat
  lineStart : Nat
  digest : Bytes
  committedDigest : Bytes
  lineHead : Bytes := []
  selected : Option Bool := none
  projection : Option EventProjection := none
  error : Option PyError := none
  headerOnly : Bool := false
  bytesRead : Nat := 0
  eventEnd : Option Nat := none
  yielded : List (Nat × Bytes) := []

/-- An event before it is yielded. -/
inductive Event where
  | raw (line : Bytes)
  | parsed (value : Json)
  | failed

namespace EventLines

/-- `EventLines(offset, digest)`. -/
def start (offset : Nat) (digest : Bytes) : EventLines :=
  { readOffset := offset, committed := offset, lineStart := offset, digest, committedDigest := digest }

def markers : List Bytes := nativeMarkers ++ [ascii "\"session_meta\""]

/-- `isinstance(header, dict) and header.get('type') == 'session_meta'`. -/
def isHeader : Option Json → Bool
  | some (.obj members) => Json.lookup members "type" = some (.str (py "session_meta"))
  | _ => false

section

variable (loads : Bytes → Option Json)

def feedProjection (r : EventLines) (part : Bytes) : EventLines :=
  match r.projection with
  | none => r
  | some p =>
    match p.feed loads part with
    | .ok p => { r with projection := some p }
    | .error e => { r with error := some e, projection := none }

def beginProjection (r : EventLines) : EventLines :=
  let r := { r with projection := some {} }.feedProjection loads r.lineHead
  if r.error.isSome then r else { r with lineHead := [] }

def choose (r : EventLines) : EventLines :=
  let selected := marked markers r.lineHead
  let headerOnly : Bool := r.lineStart = 0 && !selected
  let r := { r with headerOnly, selected := some (selected || headerOnly) }
  if selected || headerOnly then r.beginProjection loads else { r with lineHead := [] }

/-- `feed`, with what `read` does when it raises. -/
def feed (r : EventLines) (part : Bytes) (complete : Bool) : EventLines :=
  if r.selected.isNone then
    let count := min (250 - r.lineHead.length) part.length
    let r := { r with lineHead := r.lineHead ++ part.take count }
    let r := if r.lineHead.length = 250 ∨ complete then r.choose loads else r
    r.feedProjection loads (part.drop count)
  else r.feedProjection loads part

def event (r : EventLines) (direct : Bool) (part : Bytes) : Option Event :=
  if r.error.isSome then some .failed
  else match r.projection with
    | some p =>
      match p.finish loads with
      | .ok value => some (.parsed value)
      | .error _ => some .failed
    | none =>
      if direct && (marked markers (part.take 250) || r.lineStart = 0 && isHeader (loads part)) then
        some (.raw part)
      else none

def headerEvent : Option Event → Bool
  | some (.parsed value) => isHeader (some value)
  | _ => false

variable (dumps : Json → Option Bytes)

def encodeEvent : Event → Option Bytes
  | .raw line => some line
  | .parsed value => dumps value
  | .failed => some (ascii "\x7b")

/-- The end of a line: start the next one and yield the event; `false` where the
encoder raises. -/
def finishLine (r : EventLines) (event : Option Event) : EventLines × Bool :=
  let position := r.lineStart
  let r := { r with
    committed := r.readOffset, committedDigest := r.digest, lineStart := r.readOffset
    lineHead := [], selected := none, projection := none, error := none, headerOnly := false }
  match event with
  | none => (r, true)
  | some event =>
    match encodeEvent dumps event with
    | some encoded => ({ r with
        eventEnd := some r.committed, yielded := r.yielded ++ [(position, encoded)] }, true)
    | none => (r, false)

/-- A part of a block up to the end of its first line; `false` where it raises. -/
def readPart (r : EventLines) (part : Bytes) : EventLines × Bool :=
  let complete : Bool := part.getLast? = some LF
  let direct := complete && r.selected.isNone && r.lineHead.isEmpty
  let r := { r with digest := r.digest ++ part, readOffset := r.readOffset + part.length }
  let r := if direct then r else r.feed loads (if complete then part.dropLast else part) complete
  if complete then
    let event := r.event loads direct part
    r.finishLine dumps (if r.headerOnly && !headerEvent event then none else event)
  else (r, true)

def nativeLines (r : EventLines) (block : Bytes) : List (Nat × Nat) :=
  let selected := (scanEventLines block).2
  if r.readOffset = 0 ∧ selected.head?.all (·.1 ≠ 0) then
    let finish := block.idxOf LF + 1
    if isHeader (loads (block.take finish)) then (0, finish) :: selected else selected
  else selected

def readNative (r : EventLines) (block : Bytes) : EventLines :=
  let consumed := (scanEventLines block).1
  let selected := r.nativeLines loads block
  let start := r.readOffset
  let digest := r.digest ++ block.take consumed
  { r with
    digest, readOffset := start + consumed
    committed := start + consumed, lineStart := start + consumed, committedDigest := digest
    eventEnd := (selected.getLast?.map (start + ·.2)).or r.eventEnd
    yielded := r.yielded ++
      selected.map fun line => (start + line.1, (block.take line.2).drop line.1) }

theorem length_drop_lt {block : Bytes} {n : Nat} (hblock : block ≠ []) (hn : n ≠ 0) :
    (block.drop n).length < block.length := by
  have := length_pos_iff.mpr hblock
  rw [length_drop]
  omega

/-- The parts of a block.  `native` says at which offsets the native scanner is
asked; `false` where reading raises. -/
def readBlock (native : Nat → Bool) (r : EventLines) (block : Bytes) : EventLines × Bool :=
  if _hblock : block = [] then (r, true)
  else if _hn : native r.readOffset ∧ r.selected.isNone ∧ r.lineHead = [] ∧
      (scanEventLines block).1 ≠ 0 then
    readBlock native (r.readNative loads block) (block.drop (scanEventLines block).1)
  else
    let finish := if LF ∈ block then block.idxOf LF + 1 else block.length
    match r.readPart loads dumps (block.take finish) with
    | (r, true) => readBlock native r (block.drop finish)
    | (r, false) => (r, false)
termination_by block.length
decreasing_by
  · exact length_drop_lt ‹_› _hn.2.2.2
  · refine length_drop_lt ‹_› ?_
    split
    · omega
    · exact (length_pos_iff.mpr ‹_›).ne'

/-- A call of `read`: its limit, the size of its blocks (`CHUNK`), and where it
uses the native scanner. -/
structure Call where
  limit : Nat
  chunk : Nat
  native : Nat → Bool

theorem left_sub_lt {rest : Bytes} {chunk left : Nat} (h : rest.take (min chunk left) ≠ []) :
    left - (rest.take (min chunk left)).length < left := by
  have hpos := length_pos_iff.mpr h
  rw [length_take] at hpos ⊢
  omega

/-- The blocks of a call with `left` bytes to go. -/
def readBlocks (file : Bytes) (chunk : Nat) (native : Nat → Bool) (left : Nat) (r : EventLines) :
    EventLines :=
  let block := (file.drop r.readOffset).take (min chunk left)
  if _hblock : block = [] then r
  else
    let r := { r with bytesRead := r.bytesRead + block.length }
    match r.readBlock loads dumps native block with
    | (r, true) => readBlocks file chunk native (left - block.length) r
    | (r, false) => r
termination_by left
decreasing_by exact left_sub_lt _hblock

def read (file : Bytes) (r : EventLines) (call : Call) : EventLines :=
  readBlocks loads dumps file call.chunk call.native call.limit r

end

end EventLines

/-!
## scanning

The division of bytes into lines, and what the native scanner finds in a block:
its complete lines, and those with a marker of the scanner near their start.
-/

/-! ## lines -/

/-- The complete lines of some bytes with their positions, and what follows. -/
structure Lines where
  closed : List (Nat × Bytes)
  start : Nat
  current : Bytes

namespace Lines

def push (l : Lines) (c : Byte) : Lines :=
  if c = LF then
    { closed := l.closed ++ [(l.start, l.current)]
      start := l.start + l.current.length + 1
      current := [] }
  else { l with current := l.current ++ [c] }

def feed (l : Lines) (bytes : Bytes) : Lines := bytes.foldl push l

def read (offset : Nat) (bytes : Bytes) : Lines := feed ⟨[], offset, []⟩ bytes

theorem feed_append (l : Lines) (a b : Bytes) : l.feed (a ++ b) = (l.feed a).feed b :=
  foldl_append

theorem feed_part (l : Lines) {part : Bytes} (hpart : LF ∉ part) :
    l.feed part = { l with current := l.current ++ part } := by
  induction part generalizing l with
  | nil => simp [feed]
  | cons c part ih =>
    have hc : c ≠ LF := fun h => hpart (by simp [h])
    have := ih (l.push c) fun h => hpart (mem_cons_of_mem c h)
    rw [feed, foldl_cons]
    refine this.trans ?_
    simp [push, hc]

theorem feed_line (l : Lines) {line : Bytes} (hline : LF ∉ line) :
    l.feed (line ++ [LF]) =
      { closed := l.closed ++ [(l.start, l.current ++ line)]
        start := l.start + (l.current ++ line).length + 1
        current := [] } := by
  rw [feed_append, feed_part l hline]
  simp [feed, push]

def new (l : Lines) (bytes : Bytes) : List (Nat × Bytes) := (feed { l with closed := [] } bytes).closed

theorem feed_closed (l : Lines) (bytes : Bytes) :
    l.feed bytes = { feed { l with closed := [] } bytes with closed := l.closed ++ l.new bytes } := by
  have hpush (l : Lines) (c : Byte) : l.push c =
      { push { l with closed := [] } c with closed := l.closed ++ (push { l with closed := [] } c).closed } := by
    unfold push
    split <;> simp
  induction bytes generalizing l with
  | nil => simp [feed, new]
  | cons c bytes ih =>
    have hr := ih (push { l with closed := [] } c)
    have hnew : ({ l.push c with closed := [] } : Lines) =
        { push { l with closed := [] } c with closed := [] } := by
      rw [hpush]
    show (l.push c).feed bytes = { (push { l with closed := [] } c).feed bytes with
      closed := l.closed ++ ((push { l with closed := [] } c).feed bytes).closed }
    rw [ih, hr, new, new, hnew, congrArg closed (hpush l c), append_assoc]

theorem closed_feed (l : Lines) (bytes : Bytes) : (l.feed bytes).closed = l.closed ++ l.new bytes :=
  congrArg closed (feed_closed l bytes)

theorem position_feed (l : Lines) (bytes : Bytes) :
    (l.feed bytes).start + (l.feed bytes).current.length =
      l.start + l.current.length + bytes.length := by
  induction bytes generalizing l with
  | nil => rfl
  | cons c bytes ih =>
    rw [feed, foldl_cons, ← feed, ih]
    unfold push
    split <;> simp <;> omega

theorem position_read (offset : Nat) (bytes : Bytes) :
    (read offset bytes).start + (read offset bytes).current.length = offset + bytes.length :=
  position_feed ⟨[], offset, []⟩ bytes

theorem read_append (offset : Nat) (a b : Bytes) : read offset (a ++ b) = (read offset a).feed b :=
  feed_append _ _ _

theorem read_concat (offset : Nat) (bytes : Bytes) (c : Byte) :
    read offset (bytes ++ [c]) = (read offset bytes).push c := by
  rw [read_append]
  rfl

theorem current_feed (l : Lines) (hl : LF ∉ l.current) (bytes : Bytes) :
    LF ∉ (l.feed bytes).current := by
  induction bytes generalizing l with
  | nil => exact hl
  | cons c bytes ih =>
    rw [feed, foldl_cons]
    refine ih _ ?_
    unfold push
    split
    · simp
    · next hc => simp [hl, Ne.symm hc]

theorem closed_increasing (l : Lines) (bytes : Bytes)
    (hl : l.closed.Pairwise (·.1 < ·.1) ∧ ∀ x ∈ l.closed, x.1 < l.start) :
    (l.feed bytes).closed.Pairwise (·.1 < ·.1) ∧
      ∀ x ∈ (l.feed bytes).closed, x.1 < (l.feed bytes).start := by
  induction bytes generalizing l with
  | nil => exact hl
  | cons c bytes ih =>
    rw [feed, foldl_cons]
    refine ih _ ?_
    unfold push
    split
    · refine ⟨pairwise_append.mpr ⟨hl.1, pairwise_singleton _ _, ?_⟩, ?_⟩
      · intro x hx y hy
        rw [mem_singleton.mp hy]
        exact hl.2 x hx
      · intro x hx
        rcases mem_append.mp hx with hx | hx
        · have := hl.2 x hx
          simp only
          omega
        · rw [mem_singleton.mp hx]
          simp only
          omega
    · exact hl

theorem read_increasing (offset : Nat) (bytes : Bytes) :
    (read offset bytes).closed.Pairwise (·.1 < ·.1) :=
  (closed_increasing _ bytes ⟨List.Pairwise.nil, by simp⟩).1

def shift (l : Lines) (offset : Nat) : Lines :=
  { closed := l.closed.map fun x => (offset + x.1, x.2)
    start := offset + l.start
    current := l.current }

theorem feed_shift (l : Lines) (offset : Nat) (bytes : Bytes) :
    (l.shift offset).feed bytes = (l.feed bytes).shift offset := by
  have hpush (l : Lines) (c : Byte) : (l.shift offset).push c = (l.push c).shift offset := by
    unfold push shift
    split <;> simp [Nat.add_assoc]
  induction bytes generalizing l with
  | nil => rfl
  | cons c bytes ih =>
    rw [feed, foldl_cons, hpush, ← feed, ih]
    rfl

theorem new_append (l : Lines) (a b : Bytes) : l.new (a ++ b) = l.new a ++ (l.feed a).new b := by
  rw [new, feed_append, closed_feed, new, new, feed_closed l a]
  rfl

theorem new_part (l : Lines) {part : Bytes} (hpart : LF ∉ part) : l.new part = [] := by
  rw [new, feed_part _ hpart]

theorem new_line (l : Lines) {line : Bytes} (hline : LF ∉ line) :
    l.new (line ++ [LF]) = [(l.start, l.current ++ line)] := by
  rw [new, feed_line _ hline]
  rfl

theorem feed_start (l : Lines) (hl : l.current = []) (bytes : Bytes) :
    l.feed bytes = { (read 0 bytes).shift l.start with closed := l.closed ++ l.new bytes } := by
  have hshift := feed_shift ⟨[], 0, []⟩ l.start bytes
  rw [feed_closed, hl]
  exact congrArg (fun m : Lines => { m with closed := l.closed ++ l.new bytes }) hshift

theorem new_start (l : Lines) (hl : l.current = []) (bytes : Bytes) :
    l.new bytes = (read 0 bytes).closed.map fun x => (l.start + x.1, x.2) := by
  have := congrArg closed (feed_shift ⟨[], 0, []⟩ l.start bytes)
  rw [new, hl]
  exact this

theorem read_current (bytes : Bytes) : bytes.drop (read 0 bytes).start = (read 0 bytes).current :=
    by
  induction bytes using List.reverseRecOn with
  | nil => rfl
  | append_singleton bytes c ih =>
    have hpos : (read 0 bytes).start + (read 0 bytes).current.length = bytes.length := by
      simpa using position_read 0 bytes
    rw [read_concat, push]
    split
    · simp only
      rw [drop_eq_nil_of_le (by rw [length_append, length_singleton]; omega)]
    · simp only
      rw [drop_append_of_le_length (by omega), ih]

theorem read_first {line : Bytes} (hline : LF ∉ line) (rest : Bytes) :
    ∃ others, (read 0 (line ++ [LF] ++ rest)).closed = (0, line) :: others ∧
      ∀ x ∈ others, x.1 ≠ 0 := by
  refine ⟨(feed ⟨[], 0, []⟩ (line ++ [LF])).new rest, ?_, fun x hx => ?_⟩
  · rw [read, feed_append, closed_feed, feed_line _ hline]
    simp
  · rw [feed_line _ hline, new_start _ rfl] at hx
    obtain ⟨y, -, rfl⟩ := List.mem_map.mp hx
    simp only
    omega

theorem read_take (bytes : Bytes) : read 0 (bytes.take (read 0 bytes).start) =
    { read 0 bytes with current := [] } := by
  have hcurrent : LF ∉ (read 0 bytes).current := current_feed _ (by simp) bytes
  have hwhole : (read 0 (bytes.take (read 0 bytes).start)).feed (read 0 bytes).current =
      read 0 bytes := by
    conv_rhs => rw [← take_append_drop (read 0 bytes).start bytes, read_current]
    rw [read, ← feed_append]
    rfl
  rw [feed_part _ hcurrent] at hwhole
  have hstart := congrArg start hwhole
  have hclosed := congrArg closed hwhole
  have hempty : (read 0 (bytes.take (read 0 bytes).start)).current = [] := by
    simpa using congrArg current hwhole
  simp only at hstart hclosed
  generalize read 0 (bytes.take (read 0 bytes).start) = l at *
  obtain ⟨closed, start, current⟩ := l
  simp only at hstart hclosed hempty
  rw [hstart, hclosed, hempty]

end Lines

/-! ## markers -/

theorem marked_line {markers : List Bytes} (hmarkers : ∀ m ∈ markers, LF ∉ m ∧ m ≠ [])
    (line : Bytes) : marked markers ((line ++ [LF]).take 250) = marked markers (line.take 250) := by
  have htake : (line ++ [LF]).take 250 = line.take 250 ∨
      (line ++ [LF]).take 250 = line.take 250 ++ [LF] := by
    by_cases h : line.length < 250
    · right
      rw [take_of_length_le (by simp; omega), take_of_length_le (by omega)]
    · left
      rw [take_append_of_le_length (by omega)]
  rcases htake with h | h
  · rw [h]
  · rw [h]
    unfold marked
    rw [Bool.eq_iff_iff, any_eq_true, any_eq_true]
    refine exists_congr fun m => and_congr_right fun hm => ?_
    obtain ⟨hlf, hne⟩ := hmarkers m hm
    simp only [decide_eq_true_eq]
    rw [infix_concat_iff]
    refine or_iff_right fun hsuffix => ?_
    -- A marker at the end would end with the line feed.
    obtain ⟨t, ht⟩ := hsuffix
    have hlast := congrArg List.getLast? ht
    rw [getLast?_append_of_ne_nil _ hne, getLast?_concat] at hlast
    exact hlf (mem_of_getLast? hlast)

theorem nativeMarkers_plain : ∀ m ∈ nativeMarkers, LF ∉ m ∧ m ≠ [] := by decide

theorem markers_plain : ∀ m ∈ EventLines.markers, LF ∉ m ∧ m ≠ [] := by decide

/-! ## the native scanner -/

theorem scanLine_append {data rest : Bytes} {newline : Nat} (h : newline < data.length)
    (found : Nat × List (Nat × Nat)) :
    scanLine (data ++ rest) found newline = scanLine data found newline := by
  unfold scanLine
  dsimp only
  rw [take_append_of_le_length (by omega)]

/-- **The native scanner finds the complete lines** and selects those with a
marker of its own. -/
theorem scanEventLines_eq (data : Bytes) : scanEventLines data = ((Lines.read 0 data).start,
      ((Lines.read 0 data).closed.filter fun x => marked nativeMarkers (x.2.take 250)).map
        fun x => (x.1, x.1 + x.2.length + 1)) := by
  induction data using List.reverseRecOn with
  | nil => rfl
  | append_singleton data c ih =>
    have hpos : (Lines.read 0 data).start + (Lines.read 0 data).current.length = data.length := by
      simpa using Lines.position_read 0 data
    -- The line ends of the shorter text, and perhaps one more.
    have hends : (List.range (data ++ [c]).length).filter ((data ++ [c])[·]? = some LF) =
        (List.range data.length).filter (data[·]? = some LF) ++
          if c = LF then [data.length] else [] := by
      rw [length_append, length_singleton, range_succ, filter_append]
      congr 1
      · refine filter_congr fun i hi => ?_
        rw [List.getElem?_append_left (List.mem_range.mp hi)]
      · by_cases hc : c = LF <;> simp [hc]
    have hscan : scanEventLines (data ++ [c]) =
        (if c = LF then [data.length] else []).foldl (scanLine (data ++ [c]))
          (scanEventLines data) := by
      unfold scanEventLines
      rw [hends, foldl_append]
      congr 1
      refine foldl_ext _ _ _ fun found i hi => ?_
      exact scanLine_append (List.mem_range.mp (mem_of_mem_filter hi)) found
    rw [hscan, Lines.read_concat, ih]
    by_cases hc : c = LF
    · have hhead : ((data ++ [c]).take (min (data.length + 1)
          ((Lines.read 0 data).start + 250))).drop (Lines.read 0 data).start =
            ((Lines.read 0 data).current ++ [LF]).take 250 := by
        rw [drop_take, ← Lines.read_current, hc, ← drop_append_of_le_length (by omega)]
        by_cases h : data.length + 1 ≤ (Lines.read 0 data).start + 250
        · rw [min_eq_left h, take_of_length_le (by simp), take_of_length_le (by simp; omega)]
        · rw [min_eq_right (by omega)]
          congr 1
          omega
      simp only [hc, if_true, foldl_cons, foldl_nil, scanLine, Lines.push]
      rw [hc] at hhead
      rw [hhead, marked_line nativeMarkers_plain, filter_append, map_append]
      refine Prod.ext (by simp only; omega) ?_
      by_cases hm : marked nativeMarkers ((Lines.read 0 data).current.take 250)
      · simp [hm, ← hpos]
      · simp [hm]
    · simp [hc, Lines.push]

end Codexon
