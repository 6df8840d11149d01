import Codexon.ObservationImport.Slices

/-!
# Codexon.ObservationImport.Runs

The import over every order of writes, steps, failures and restarts.  A pair of a token
and a cursor is good where the token is that of a snapshot whose rows up to the cursor
are imported (`Good`); the pair in the ledger and the pair of the open import are.
-/

namespace Codexon.ObservationImport

open EventStore

variable {α β ε : Type} [DecidableEq α] [DecidableEq ε]

/-- The token is that of a snapshot from which the index came by counted writes, and the
rows of the snapshot up to the cursor are imported. -/
def Good (R : Reading α β ε) (homes : Finset α) (imported : List (Observation α β)) (s : Store α)
    (token : Token ε) (cursor : Int) : Prop :=
  ∃ s₀, Grows R.one (maximum s₀) s₀ s ∧ current R s₀ = some token ∧
    (0 < cursor → cursor ≤ maximum s₀) ∧
    ∀ row, Visible R.one s₀ row → 0 < row.seq → row.seq ≤ cursor → Has R homes imported row

variable {R : Reading α β ε}

theorem has_of_good (hdraw : Function.Injective R.draw) {homes : Finset α}
    {imported : List (Observation α β)} {s s' : Store α} {token token' : Token ε} {cursor : Int}
    (hgood : Good R homes imported s token cursor)
    (hgrows : ∀ place, Grows R.one place s s') (htoken' : current R s' = some token')
    (h : samePrefix s' (some token) token' = true) {row : SourceRow α}
    (hrow : Visible R.one s' row) (hpositive : 0 < row.seq) (hle : row.seq ≤ cursor) :
    Has R homes imported row := by
  obtain ⟨s₀, hfrom, htoken, hcursor, hread⟩ := hgood
  have hold := old_of_samePrefix hdraw htoken htoken' (grows_trans hfrom (hgrows _)) h
  have hplace := hcursor (by omega)
  exact hread row (hold row hrow (by omega)) hpositive hle

omit [DecidableEq ε] in
theorem good_mono {homes : Finset α}
    {imported imported' : List (Observation α β)} {s s' : Store α} {token : Token ε}
    {cursor cursor' : Int} (hgood : Good R homes imported s token cursor)
    (himported : imported ⊆ imported') (hgrows : ∀ place, Grows R.one place s s')
    (hcursor : cursor' ≤ cursor ∨ cursor' ≤ 0) : Good R homes imported' s' token cursor' := by
  obtain ⟨s₀, hfrom, htoken, hmax, hread⟩ := hgood
  refine ⟨s₀, grows_trans hfrom (hgrows _), htoken, fun h => ?_, fun row hrow hpositive hle => ?_⟩
  · have := hmax (by omega)
    omega
  · exact has_mono (hread row hrow hpositive (by omega)) himported

/-- What every reachable system satisfies. -/
structure Kept (R : Reading α β ε) (x : System α β ε) : Prop where
  progress : ∀ saved ∈ x.progress, Good R saved.scope x.imported x.store saved.token saved.cursor
  reader : ∀ reader ∈ x.reader, ∀ token ∈ reader.token,
    Good R reader.homes x.imported x.store token reader.cursor
  version : ∀ reader ∈ x.reader, ∀ version ∈ reader.version, version ≤ x.version ∧
    (version = x.version → reader.token = current R x.store)

variable {x : System α β ε}

theorem kept_write (hx : Kept R x)
    {statement : Statement α} (hcounted : Counted x.store statement) :
    Kept R (write x statement) where
  progress saved hsaved := good_mono (hx.progress saved hsaved) (List.Subset.refl _)
    (fun _ => grows_step hcounted) (.inl (le_refl _))
  reader reader hreader token htoken := good_mono (hx.reader reader hreader token htoken)
    (List.Subset.refl _) (fun _ => grows_step hcounted) (.inl (le_refl _))
  version reader hreader version hversion := by
    have hle := (hx.version reader hreader version hversion).1
    simp only [write]
    exact ⟨by omega, fun heq => by omega⟩

theorem kept_writes (hx : Kept R x)
    {statements : List (Statement α)} (hcounted : Along Store.step Counted x.store statements) :
    Kept R (statements.foldl write x) := by
  induction statements generalizing x with
  | nil => exact hx
  | cons statement statements ih => exact ih (kept_write hx hcounted.1) hcounted.2

omit [DecidableEq ε] in
theorem kept_init (hx : Kept R x) (homes : Finset α) :
    Kept R { x with reader := some (init x.progress homes) } where
  progress := hx.progress
  reader := by
    intro reader hreader token htoken
    obtain rfl := Option.some.inj hreader
    unfold init at htoken ⊢
    split at htoken
    · contradiction
    · next saved hsaved =>
      split at htoken
      · next hscope =>
        obtain rfl := Option.some.inj htoken
        rw [if_pos hscope, ← hscope.1]
        exact hx.progress saved hsaved
      · contradiction
  version := by
    intro reader hreader version hversion
    obtain rfl := Option.some.inj hreader
    unfold init at hversion
    split at hversion
    · contradiction
    · split at hversion <;> contradiction

/-! ## steps -/

section

variable {R : Reading α β ε} {x : System α β ε} {reader : Reader α ε}

omit [DecidableEq ε] in
theorem current_of_kept (hx : Kept R x) (hreader : reader ∈ x.reader) (changed : Bool) :
    (reader.layout changed).current R x.store x.version = current R x.store := by
  unfold Reader.current
  split
  · next h =>
    have hsame : reader.layout changed = reader := by
      unfold Reader.layout
      split
      · next hchanged => simp [Reader.layout, hchanged] at h
      · rfl
    rw [hsame] at h ⊢
    exact (hx.version reader hreader x.version h.1).2 rfl
  · rfl

/-- **The rows up to the resumed cursor** are imported. -/
theorem has_of_resumed (hdraw : Function.Injective R.draw) (hx : Kept R x)
    (hreader : reader ∈ x.reader) {changed : Bool} {token : Token ε}
    (htoken : current R x.store = some token) {row : SourceRow α}
    (hrow : Visible R.one x.store row) (hpositive : 0 < row.seq)
    (hle : row.seq ≤ (reader.layout changed).resumed x.store token) :
    Has R reader.homes x.imported row := by
  unfold Reader.resumed at hle
  split at hle
  · next hsame =>
    cases changed with
    | true => simp [Reader.layout, samePrefix] at hsame
    | false =>
      cases hold : reader.token with
      | none => simp [Reader.layout, samePrefix, hold] at hsame
      | some old =>
        have hgood := hx.reader reader hreader old hold
        simp only [Reader.layout, Bool.false_eq_true, if_false, hold] at hsame hle
        exact has_of_good hdraw hgood (fun place => grows_refl _ place _) htoken hsame hrow
          hpositive hle
  · omega

theorem resumed_le (hx : Kept R x) (hreader : reader ∈ x.reader) {changed : Bool}
    {token : Token ε} (htoken : current R x.store = some token)
    (hpositive : 0 < (reader.layout changed).resumed x.store token) :
    (reader.layout changed).resumed x.store token ≤ maximum x.store := by
  unfold Reader.resumed at hpositive ⊢
  split at hpositive
  · next hsame =>
    rw [if_pos hsame]
    cases changed with
    | true => simp [Reader.layout, samePrefix] at hsame
    | false =>
      cases hold : reader.token with
      | none => simp [Reader.layout, samePrefix, hold] at hsame
      | some old =>
        obtain ⟨s₀, -, htoken₀, hmax, -⟩ := hx.reader reader hreader old hold
        simp only [Reader.layout, Bool.false_eq_true, if_false, hold] at hsame hpositive ⊢
        have hle := maximum_le_of_samePrefix hsame
        rw [(current_eq_some htoken₀).2.2, (current_eq_some htoken).2.2] at hle
        exact (hmax hpositive).trans hle
  · omega

omit [DecidableEq α] in
theorem left_cases (s : Store α) (reader : Reader α ε) (changed reset : Bool)
    (token : Option (Token ε)) :
    reader.left s changed reset token ≤ reader.cursor ∨ reader.left s changed reset token ≤ 0 := by
  unfold Reader.left Reader.resumed Reader.layout
  grind

omit [DecidableEq ε] in
theorem kept_failed (hx : Kept R x) (hreader : reader ∈ x.reader) {cursor : Int}
    (hcursor : cursor ≤ reader.cursor ∨ cursor ≤ 0) :
    Kept R { x with reader := some (reader.failed cursor) } where
  progress := hx.progress
  reader := by
    intro reader' hreader' token htoken
    obtain rfl := Option.some.inj hreader'
    exact good_mono (hx.reader reader hreader token htoken) (List.Subset.refl _)
      (fun place => grows_refl _ place _) hcursor
  version := by
    intro reader' hreader' version hversion
    obtain rfl := Option.some.inj hreader'
    exact hx.version reader hreader version hversion

/-- **What a step commits**: the rows of its snapshot up to the cursor are imported. -/
theorem has_of_slice (hdraw : Function.Injective R.draw) (hx : Kept R x)
    (hreader : reader ∈ x.reader) {changed : Bool} {late : Nat → Bool} {token : Token ε}
    {slice : Slice α β ε} (htoken : current R x.store = some token)
    (hslice : (reader.layout changed).slice R x.store token late = some slice)
    {row : SourceRow α} (hrow : Visible R.one x.store row) (hpositive : 0 < row.seq)
    (hle : row.seq ≤ slice.cursor) : Has R reader.homes (x.imported ++ slice.batch) row := by
  obtain ⟨-, -, -, hread⟩ := slice_reads (current_eq_some htoken).2.2 hslice
  have hhomes : (reader.layout changed).homes = reader.homes := by
    unfold Reader.layout
    split <;> rfl
  by_cases hstart : row.seq ≤ (reader.layout changed).resumed x.store token
  · exact has_mono (has_of_resumed hdraw hx hreader htoken hrow hpositive hstart)
      (List.subset_append_left _ _)
  · rw [← hhomes]
    exact has_mono (hread row hrow (by omega) hle) (List.subset_append_right _ _)

/-- **One step** of an import that is not finished. -/
theorem kept_readerStep (hdraw : Function.Injective R.draw) (hx : Kept R x)
    (hreader : reader ∈ x.reader) (changed : Bool) (late : Nat → Bool) (fails reset : Bool) :
    Kept R (reader.step R x changed late fails reset).2 := by
  simp only [Reader.step]
  split
  · exact kept_failed hx hreader (left_cases ..)
  · cases hcurrent : (reader.layout changed).current R x.store x.version with
    | none =>
      exact {
        progress := hx.progress
        reader := by
          intro reader' hreader' token htoken
          obtain rfl := Option.some.inj hreader'
          exact hx.reader reader hreader token htoken
        version := by
          intro reader' hreader' version hversion
          obtain rfl := Option.some.inj hreader'
          exact hx.version reader hreader version hversion }
    | some token =>
      have htoken : current R x.store = some token := by
        rw [← current_of_kept hx hreader changed, hcurrent]
      simp only
      cases hslice : (reader.layout changed).slice R x.store token late with
      | none => exact kept_failed hx hreader (left_cases ..)
      | some slice =>
        obtain ⟨hsame, -, hcursor, -⟩ := slice_reads (current_eq_some htoken).2.2 hslice
        have hgood : Good R reader.homes (x.imported ++ slice.batch) x.store slice.token
            slice.cursor := by
          refine ⟨x.store, grows_refl _ _ _, hsame ▸ htoken, fun hpositive => ?_,
            fun row hrow => has_of_slice hdraw hx hreader htoken hslice hrow⟩
          rcases hcursor with hcursor | hcursor
          · rw [hcursor] at hpositive ⊢
            exact resumed_le hx hreader htoken hpositive
          · exact hcursor
        exact {
          progress := by
            intro saved hsaved
            obtain rfl := Option.some.inj hsaved
            exact hgood
          reader := by
            intro reader' hreader' token' htoken'
            obtain rfl := Option.some.inj hreader'
            obtain rfl := Option.some.inj htoken'
            exact hgood
          version := by
            intro reader' hreader' version hversion
            obtain rfl := Option.some.inj hreader'
            obtain rfl := Option.some.inj hversion
            exact ⟨le_refl _, fun _ => by rw [htoken, hsame]⟩ }

end

/-! ## runs -/

def Covered (x : System α β ε) : Event α → Prop
  | .write statement => Counted x.store statement
  | .step _ _ _ _ writes => Along Store.step Counted x.store writes
  | _ => True

omit [DecidableEq ε] in
theorem store_readerStep [DecidableEq ε] (R : Reading α β ε) (x : System α β ε)
    (reader : Reader α ε) (changed : Bool) (late : Nat → Bool) (fails reset : Bool) :
    (reader.step R x changed late fails reset).2.store = x.store := by
  simp only [Reader.step]
  split
  · rfl
  · split
    · rfl
    · split <;> rfl

theorem kept_step (hdraw : Function.Injective R.draw)
    {event : Event α} (hx : Kept R x) (hcovered : Covered x event) : Kept R (step R x event) := by
  cases event with
  | write statement => exact kept_write hx hcovered
  | begin_ homes => exact kept_init hx homes
  | close => exact ⟨hx.progress, by simp [step, perform], by simp [step, perform]⟩
  | step changed late fails reset writes =>
    simp only [step, perform]
    cases hreader : x.reader with
    | none => exact hx
    | some reader =>
      simp only
      split
      · exact hx
      · refine kept_writes (kept_readerStep hdraw hx hreader changed late fails reset) ?_
        rw [store_readerStep]
        exact hcovered

theorem kept_run (hdraw : Function.Injective R.draw) {s : Store α}
    {events : List (Event α)} (hcovered : Along (step R) Covered { store := s } events) :
    Kept R (run (step R) { store := s } events) :=
  run_inv_along (I := Kept R) (fun _ _ hx hcovered => kept_step hdraw hx hcovered)
    ⟨by simp, by simp, by simp⟩ hcovered

/-- A step that returns `True` has imported every row of its snapshot. -/
def CompletesWhole (R : Reading α β ε) (x : System α β ε) : Prop :=
  ∀ reader ∈ x.reader, ∀ changed late fails reset,
    (reader.step R x changed late fails reset).1 = .yes →
    ∀ row, Visible R.one x.store row → 0 < row.seq →
      Has R reader.homes (reader.step R x changed late fails reset).2.imported row

/-- The saved pair: a later snapshot that accepts the token has its rows up to the cursor
imported. -/
def SavedVouches (R : Reading α β ε) (x : System α β ε) : Prop :=
  ∀ saved ∈ x.progress, ∀ writes, Along Store.step Counted x.store writes →
    ∀ token, current R (run Store.step x.store writes) = some token →
      samePrefix (run Store.step x.store writes) (some saved.token) token = true →
      ∀ row, Visible R.one (run Store.step x.store writes) row → 0 < row.seq →
        row.seq ≤ saved.cursor → Has R saved.scope x.imported row

/-- **The import skips nothing.** -/
theorem import_skips_nothing (R : Reading α β ε) (hdraw : Function.Injective R.draw) (s : Store α)
    (events : List (Event α)) (hcovered : Along (step R) Covered { store := s } events) :
    CompletesWhole R (run (step R) { store := s } events) ∧
      SavedVouches R (run (step R) { store := s } events) := by
  have hx := kept_run hdraw hcovered
  constructor
  · intro reader hreader changed late fails reset hyes row hrow hpositive
    have hcurrent := current_of_kept hx hreader changed
    simp only [Reader.step] at hyes ⊢
    split at hyes
    · contradiction
    · next hfails =>
      rw [if_neg hfails]
      rw [hcurrent] at hyes ⊢
      cases htoken : current R (run (step R) { store := s } events).store with
      | none => simp [htoken] at hyes
      | some token =>
        simp only [htoken] at hyes ⊢
        cases hslice : (reader.layout changed).slice R
            (run (step R) { store := s } events).store token late with
        | none => simp [hslice] at hyes
        | some slice =>
          simp only [hslice] at hyes ⊢
          obtain ⟨-, hcomplete, -, -⟩ := slice_reads (current_eq_some htoken).2.2 hslice
          have hall := hcomplete (by
            by_contra hnot
            simp [hnot] at hyes)
          obtain ⟨r, hr, -, hjoined⟩ := id hrow
          have hle := seq_le_maximum hr
          rw [← seq_of_joined hjoined] at hle
          exact has_of_slice hdraw hx hreader htoken hslice hrow hpositive (hle.trans hall)
  · intro saved hsaved writes hwrites token htoken hsame row hrow hpositive hle
    exact has_of_good hdraw (hx.progress saved hsaved) (fun _ => grows_run hwrites) htoken hsame
      hrow hpositive hle

def plain : Reading Nat Nat Nat where
  one := 1
  rateLimits := some
  size := fun _ => 0
  draw := id

def written : List (Event Nat) :=
  [.write (.insertSession false true ⟨1, some 7, some 1, some 0⟩),
    .write (.insertRecord false true ⟨1, none, none, some 1, some 5, some 9, 1⟩),
    .begin_ {7}, .step false (fun _ => false) false false []]

theorem import_skips_nothing_written :
    (run (step plain) { store := {} } written).imported = [(some 7, some 5, 9)] ∧
      CompletesWhole plain (run (step plain) { store := {} } written) ∧
      SavedVouches plain (run (step plain) { store := {} } written) :=
  ⟨by decide +kernel, import_skips_nothing plain (fun _ _ h => h) {} written
    ⟨fun _ => ⟨0, rfl, le_refl _⟩, fun _ => by decide +kernel, trivial, trivial, trivial⟩⟩

def zeroth : List (Event Nat) :=
  [.write (.insertSession false true ⟨1, some 7, some 1, some 0⟩),
    .write (.insertRecord false false ⟨0, none, none, some 1, some 5, some 9, 1⟩), .begin_ {7}]

/-- A record that gets rate limits after it was read, and one without an owner. -/
def offset : List (Event Nat) :=
  [.write (.insertSession false true ⟨1, some 7, some 1, some 0⟩),
    .write (.insertRecord false true ⟨1, none, none, some 1, some 5, none, 1⟩),
    .begin_ {7}, .step false (fun _ => false) false false [], .close,
    .write (.updateRecord 1 ⟨1, none, none, some 1, some 5, some 9, 1⟩),
    .write (.insertRecord false true ⟨2, none, none, some 4, some 5, none, 0⟩), .begin_ {7}]

/-- A record whose `seq` is not positive is not read; and a record without an owner, which no
counter counts, offsets the correction of an earlier one. -/
theorem rows_skipped :
    (Along (step plain) Covered { store := {} } zeroth ∧
      (perform plain (run (step plain) { store := {} } zeroth)
        (.step false (fun _ => false) false false [])).1 = .yes ∧
      (perform plain (run (step plain) { store := {} } zeroth)
        (.step false (fun _ => false) false false [])).2.imported = [] ∧
      Visible 1 (run (step plain) { store := {} } zeroth).store ⟨0, some 7, some 5, some 9⟩) ∧
    (perform plain (run (step plain) { store := {} } offset)
        (.step false (fun _ => false) false false [])).1 = .yes ∧
      (perform plain (run (step plain) { store := {} } offset)
        (.step false (fun _ => false) false false [])).2.imported = [] ∧
      Visible 1 (run (step plain) { store := {} } offset).store ⟨1, some 7, some 5, some 9⟩ :=
  ⟨⟨⟨fun _ => ⟨0, rfl, le_refl _⟩, fun _ => by decide +kernel, trivial, trivial⟩,
      by decide +kernel, by decide +kernel,
      ⟨⟨0, none, none, some 1, some 5, some 9, 1⟩, by decide +kernel, rfl, by decide +kernel⟩⟩,
    by decide +kernel, by decide +kernel,
    ⟨⟨1, none, none, some 1, some 5, some 9, 1⟩, by decide +kernel, rfl, by decide +kernel⟩⟩

end Codexon.ObservationImport
