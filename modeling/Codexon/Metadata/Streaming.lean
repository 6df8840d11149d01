import Codexon.Metadata.Selection

/-!
# Codexon.Metadata.Streaming

The streaming validator reads a message in pieces, and gives what the native module gives.
-/

namespace Codexon.Metadata

open List

/-! ## pieces -/

theorem flatten_slices {α : Type} (xs : List α) : (slices xs).flatten = xs := by
  induction xs using slices.induct with
  | case1 => simp [slices]
  | case2 xs h ih => rw [slices, if_neg h, flatten_cons, ih, take_append_drop]

theorem ne_nil_of_slices {α : Type} {xs piece : List α} (h : piece ∈ slices xs) : piece ≠ [] := by
  induction xs using slices.induct with
  | case1 => simp [slices] at h
  | case2 xs hne ih =>
    rw [slices, if_neg hne, mem_cons] at h
    obtain rfl | h := h
    · simp [hne, chunk]
    · exact ih h

theorem encode_flatten (pieces : List (List Char)) :
    encode pieces.flatten = (pieces.map encode).flatten := by
  induction pieces with
  | nil => rfl
  | cons piece pieces ih => simp [encode, ← ih]

theorem flatten_pieces (message : Message) : message.pieces.flatten = message.data := by
  cases message with
  | bytes data => exact flatten_slices data
  | str text =>
    change ((slices text).map encode).flatten = encode text
    rw [← encode_flatten, flatten_slices]

theorem ne_nil_of_pieces {message : Message} {piece : Data} (h : piece ∈ message.pieces) :
    piece ≠ [] := by
  cases message with
  | bytes data => exact ne_nil_of_slices h
  | str text =>
    obtain ⟨slice, hslice, rfl⟩ := List.mem_map.mp h
    have hne := ne_nil_of_slices hslice
    match slice, hne with
    | c :: rest, _ => simp [encode, String.utf8EncodeChar_ne_nil]

theorem size_eq (message : Message) : message.size = message.data.length := by
  cases message with
  | bytes data => rfl
  | str text =>
    change ((slices text).map fun piece => (encode piece).length).sum = (encode text).length
    conv_rhs => rw [← flatten_slices text, encode_flatten, length_flatten, List.map_map]
    rfl

/-! ## the parser -/

section Streaming

variable {σ : Type}

def Sax.run (sax : Sax σ) (parser : σ) : List Data → List Event × Bool
  | [] => sax.close parser
  | piece :: rest =>
    match sax.send parser piece with
    | (es, some parser) => (es ++ (sax.run parser rest).1, (sax.run parser rest).2)
    | (es, none) => (es, false)

/-- The parser reports the events of the value of a text, in whatever pieces it comes. -/
def Standard (text : Data → Option Doc) (sax : Sax σ) : Prop :=
  ∀ pieces doc, (∀ piece ∈ pieces, piece ≠ []) → text pieces.flatten = some doc →
    sax.run sax.start pieces = (events [] doc, true)

variable {sax : Sax σ}

/-- Whatever events come, only fields are set, so that no value is in the way. -/
theorem collect_total (es : List Event) : ∃ items, collect [] es = some items := by
  rw [collect_eq]
  have hmem : ∀ f ∈ (es.filterMap pickEvent).map Prod.fst, f ∈ fields := by
    intro f hf
    obtain ⟨p, hp, rfl⟩ := List.mem_map.mp hf
    obtain ⟨e, -, he⟩ := mem_filterMap.mp hp
    unfold pickEvent at he
    by_cases hpre : e.pre ∈ fields
    · rw [if_pos hpre] at he
      have hname : p.1 = e.pre := by
        split at he
        · split at he
          · simp_all [← Option.some.inj he]
          · simp at he
        · split at he
          · simp at he
          · simp_all [← Option.some.inj he]
        · simp at he
      rw [hname]
      exact hpre
    · simp [hpre] at he
  obtain ⟨items, hitems, -⟩ := Nested.look_inserts apart_fields (isPath_of_paths hmem)
  exact ⟨items, hitems⟩

/-- A reader that is open, and whose fields come from events. -/
structure Open (s : SelectedJSON σ) : Prop where
  closed : s.closed = false
  fields : ∃ es, collect [] es = some s.fields

variable {s : SelectedJSON σ}

theorem Open.collects (h : Open s) (es : List Event) :
    ∃ items, collect s.fields es = some items ∧ ∃ es', collect [] es' = some items := by
  obtain ⟨before, hbefore⟩ := h.fields
  obtain ⟨items, hitems⟩ := collect_total (before ++ es)
  have hjoined := hitems
  rw [collect_append, hbefore] at hjoined
  exact ⟨items, hjoined, before ++ es, hitems⟩

theorem feed_open (sax : Sax σ) (h : Open s) {piece : Data}
    (hpiece : piece ≠ []) : ∃ s', feed sax s piece = some s' ∧ Open s' ∧
      (s'.error = none → s.error = none ∧ s'.size = s.size + piece.length ∧
        s'.size ≤ maxObservation) := by
  unfold feed
  by_cases herror : s.error = none
  · rw [if_neg (by simp [hpiece, herror, h.closed])]
    by_cases hlimit : maxObservation < s.size + piece.length
    · simp only [if_pos hlimit]
      exact ⟨_, rfl, ⟨h.closed, h.fields⟩, by simp⟩
    · simp only [if_neg hlimit]
      obtain ⟨items, hitems, hfrom⟩ := h.collects (sax.send s.parser piece).1
      rw [hitems]
      cases (sax.send s.parser piece).2 with
      | none => exact ⟨_, rfl, ⟨h.closed, hfrom⟩, by simp⟩
      | some parser => exact ⟨_, rfl, ⟨h.closed, hfrom⟩, fun _ => ⟨herror, rfl, not_lt.mp hlimit⟩⟩
  · rw [if_pos (by simp [herror])]
    exact ⟨s, rfl, h, fun hnone => absurd hnone herror⟩

theorem feeds_open (sax : Sax σ) {pieces : List Data} (hpieces : ∀ piece ∈ pieces, piece ≠ [])
    (h : Open s) : ∃ s', pieces.foldlM (feed sax) s = some s' ∧ Open s' ∧
      (s'.error = none → s.error = none ∧ (s.size ≤ maxObservation →
        s.size + pieces.flatten.length ≤ maxObservation)) := by
  induction pieces generalizing s with
  | nil => exact ⟨s, rfl, h, fun hnone => ⟨hnone, fun hle => by simpa using hle⟩⟩
  | cons piece pieces ih =>
    obtain ⟨s1, hfeed, hopen, hsize⟩ := feed_open sax h (hpieces piece (by simp))
    obtain ⟨s', hfeeds, hopen', hsizes⟩ := ih (fun p hp => hpieces p (by simp [hp])) hopen
    refine ⟨s', by rw [foldlM_cons, hfeed]; exact hfeeds, hopen', fun hnone => ?_⟩
    obtain ⟨hfirst, hrest⟩ := hsizes hnone
    obtain ⟨herror, hcount, hle⟩ := hsize hfirst
    refine ⟨herror, fun _ => ?_⟩
    have htotal := hrest hle
    rw [hcount] at htotal
    rw [flatten_cons, length_append]
    omega

theorem finish_open (sax : Sax σ) (h : Open s) :
    ∃ items, finish sax s = some items ∧ (s.error ≠ none → items = []) := by
  unfold finish
  rw [if_neg (by simp [h.closed])]
  obtain ⟨items, hitems, -⟩ := h.collects (sax.close s.parser).1
  simp only [hitems, Option.map_some]
  exact ⟨_, rfl, fun herror => if_neg fun hboth => herror hboth.1⟩

theorem feeds_run {pieces : List Data} (hpieces : ∀ piece ∈ pieces, piece ≠ []) {es : List Event}
    (hclosed : s.closed = false) (herror : s.error = none)
    (hrun : sax.run s.parser pieces = (es, true))
    (hsize : s.size + pieces.flatten.length ≤ maxObservation) {items : Items}
    (hitems : collect s.fields es = some items) :
    (pieces.foldlM (feed sax) s).bind (finish sax) = some items := by
  induction pieces generalizing s es with
  | nil =>
    simp only [Sax.run] at hrun
    change finish sax s = _
    unfold finish
    rw [if_neg (by simp [hclosed]), hrun]
    simp [hitems, herror]
  | cons piece pieces ih =>
    rw [flatten_cons, length_append] at hsize
    have hlimit : ¬ maxObservation < s.size + piece.length := by omega
    rw [Sax.run] at hrun
    cases hsend : sax.send s.parser piece with
    | mk sent after =>
      rw [hsend] at hrun
      cases after with
      | none => simp at hrun
      | some parser =>
        simp only [Prod.mk.injEq] at hrun
        obtain ⟨rfl, hcomplete⟩ := hrun
        rw [collect_append] at hitems
        obtain ⟨middle, hmiddle, hrest⟩ := Option.bind_eq_some_iff.mp hitems
        have hfeed : feed sax s piece = some { s with
            size := s.size + piece.length, fields := middle, parser := parser } := by
          unfold feed
          rw [if_neg (by simp [hpieces piece (by simp), herror, hclosed])]
          simp only [if_neg hlimit, hsend, hmiddle, Option.map_some]
        rw [foldlM_cons, hfeed]
        exact ih (fun p hp => hpieces p (by simp [hp])) hclosed herror
          (Prod.ext rfl hcomplete) (by simp only; omega) hrest

theorem pythonMetadata_eq {text : Data → Option Doc} (hsax : Standard text sax) {message : Message}
    {doc : Doc} (hdoc : text message.data = some doc) {items : Items}
    (hitems : collect [] (events [] doc) = some items) : pythonMetadata sax message =
      some (if message.size ≤ maxObservation then items else []) := by
  have hpieces : ∀ piece ∈ message.pieces, piece ≠ [] := fun piece => ne_nil_of_pieces
  have hflatten := flatten_pieces message
  by_cases hsize : message.size ≤ maxObservation
  · rw [if_pos hsize]
    rw [size_eq, ← hflatten] at hsize
    rw [← hflatten] at hdoc
    exact feeds_run hpieces rfl rfl (hsax _ doc hpieces hdoc) (by simpa using hsize) hitems
  · rw [if_neg hsize]
    have hopen : Open ({ parser := sax.start } : SelectedJSON σ) := ⟨rfl, [], rfl⟩
    obtain ⟨s', hfeeds, hopen', hsizes⟩ := feeds_open sax hpieces hopen
    obtain ⟨items', hfinish, hempty⟩ := finish_open sax hopen'
    have herror : s'.error ≠ none := by
      intro hnone
      have hle := (hsizes hnone).2 (by simp)
      rw [hflatten, ← size_eq] at hle
      exact hsize (by simpa using hle)
    change (message.pieces.foldlM (feed sax) _).bind (finish sax) = _
    rw [hfeeds, Option.bind_some, hfinish, hempty herror]

/-- What a dictionary of metadata has: the last admissible scalar of each allowed field. -/
structure Holds (doc : Doc) (items : Items) : Prop where
  values : ∀ path v, Nested.look items path = some (some v) ↔
    ∃ f ∈ fields, split f = path ∧ lastAdmissible doc f = some v
  dicts : ∀ path, Nested.look items path = some none →
    path = [] ∨ ∃ q v, path <+: q ∧ Nested.look items q = some (some v)

theorem Selects.holds {doc : Doc} {items : Items} (h : Selects doc items) : Holds doc items where
  values := h.leaf
  dicts path hpath := by
    rw [h path] at hpath
    obtain hnil | ⟨q, v, hpre, hlast⟩ := Nested.under_eq_dict hpath
    · exact .inl hnil
    · exact .inr ⟨q, v, hpre, by rw [h q, Nested.under_eq_leaf, hlast]⟩

/-- The native module and the streaming validator select the same metadata. -/
theorem metadata_selection {text serde : Data → Option Doc}
    (hserde : ∀ data doc, serde data = some doc → text data = some doc) (hsax : Standard text sax)
    (message : Message) {items : Items} (h : nativeMetadata serde message.data = .ok items) :
    ∃ doc, text message.data = some doc ∧
      (∃ sel, collect [] (events [] doc) = some sel ∧ Nested.Same (.dict items) (.dict sel) ∧
        Holds doc items ∧ Holds doc sel ∧
        (message.size ≤ maxObservation → pythonMetadata sax message = some sel)) ∧
      ∃ result expected, messageMetadata sax (some (nativeMetadata serde)) message = some result ∧
        pythonMetadata sax message = some expected ∧
        Nested.Same (.dict result) (.dict expected) := by
  have hselect : ∃ doc, serde message.data = some doc ∧
      output (selection [] {} doc) = some items := by
    unfold nativeMetadata select at h
    by_cases hutf8 : isUtf8 message.data
    · rw [if_pos hutf8] at h
      cases hdoc : serde message.data with
      | none => simp [hdoc] at h
      | some doc =>
        refine ⟨doc, rfl, ?_⟩
        cases hout : output (selection [] {} doc) with
        | none => simp [hdoc, hout] at h
        | some found =>
          obtain rfl : found = items := by simpa [hdoc, hout] using h
          rfl
    · simp [hutf8] at h
  obtain ⟨doc, hdoc, hout⟩ := hselect
  have htext := hserde _ doc hdoc
  obtain ⟨found, hfound, hitems⟩ := output_selects doc
  obtain rfl : found = items := Option.some.inj (hfound.symm.trans hout)
  obtain ⟨sel, hcollect, hsel⟩ := collect_selects doc
  have hpython := pythonMetadata_eq hsax htext hcollect
  refine ⟨doc, htext, ⟨sel, hcollect, hitems.same hsel, hitems.holds, hsel.holds, fun hsize => ?_⟩,
    if message.size ≤ maxObservation then found else [], _, ?_, hpython, ?_⟩
  · rw [hpython, if_pos hsize]
  · unfold messageMetadata
    by_cases hsize : message.size ≤ maxObservation
    · simp only [if_neg (not_lt.mpr hsize), h, if_pos hsize]
    · simp only [if_pos (not_le.mp hsize), if_neg hsize]
  · by_cases hsize : message.size ≤ maxObservation
    · rw [if_pos hsize, if_pos hsize]
      exact hitems.same hsel
    · rw [if_neg hsize, if_neg hsize]
      exact Nested.same_of_look _ _ fun _ => rfl

end Streaming

/-! ## a message -/

/-- A parser that reports everything at the end of the text. -/
def buffered (text : Data → Option Doc) : Sax Data where
  start := []
  send seen piece := ([], some (seen ++ piece))
  close seen :=
    match text seen with
    | some doc => (events [] doc, true)
    | none => ([], false)

theorem buffered_run (text : Data → Option Doc) (seen : Data) (pieces : List Data) :
    (buffered text).run seen pieces = (buffered text).close (seen ++ pieces.flatten) := by
  induction pieces generalizing seen with
  | nil => simp [Sax.run]
  | cons piece pieces ih =>
    have hsend : (buffered text).send seen piece = ([], some (seen ++ piece)) := rfl
    rw [Sax.run, hsend]
    simp only [ih, nil_append, flatten_cons, append_assoc]

theorem buffered_standard (text : Data → Option Doc) : Standard text (buffered text) := by
  intro pieces doc _ hdoc
  rw [buffered_run]
  simp [buffered, hdoc]

/-- A message that names a model twice, and one with a dotted key. -/
def sample : Data :=
  encode ("\x7b\"response\":\x7b\"id\":\"r\"\x7d,\"response.model\":\"m\"," ++
    "\"model\":\"a\",\"model\":7\x7d").toList

def sampleDoc : Doc := .object [("response", .object [("id", .string "r")]),
  ("response.model", .string "m"), ("model", .string "a"), ("model", .number "7")]

/-- The reading of `sample`; nothing else is read. -/
def sampleText (data : Data) : Option Doc := if data = sample then some sampleDoc else none

def sampleItems : Items :=
  [(py "model", .leaf (.text "a")),
    (py "response", .dict [(py "id", .leaf (.text "r")), (py "model", .leaf (.text "m"))])]

theorem native_sample : nativeMetadata sampleText sample = .ok sampleItems := by
  have hutf8 : isUtf8 sample = true := by decide +kernel
  have hkept : sorted (selection [] {} sampleDoc) = [(py "model", .text "a"),
      (py "response.id", .text "r"), (py "response.model", .text "m")] := by decide +kernel
  unfold nativeMetadata select
  rw [if_pos hutf8, sampleText, if_pos rfl, Option.map_some]
  simp only [output, hkept]
  rfl

theorem metadata_selection_sample : nativeMetadata sampleText sample = .ok sampleItems ∧
      ∃ result expected, messageMetadata (buffered sampleText) (some (nativeMetadata sampleText))
          (.bytes sample) = some result ∧
        pythonMetadata (buffered sampleText) (.bytes sample) = some expected ∧
        Nested.Same (.dict result) (.dict expected) := by
  obtain ⟨_, _, _, hresult⟩ := metadata_selection (fun _ _ h => h) (buffered_standard sampleText)
    (.bytes sample) native_sample
  exact ⟨native_sample, hresult⟩

end Codexon.Metadata
