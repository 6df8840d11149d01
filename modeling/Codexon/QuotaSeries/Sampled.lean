import Codexon.QuotaSeries.Buckets
import Codexon.QuotaSeries.Completed

/-!
# Codexon.QuotaSeries.Sampled

Both implementations prepare the same series, and its samples keep the ends, the resets, the breaks
and the extrema.
-/

namespace Codexon.QuotaSeries

open List

/-! ## the chosen rows -/

theorem mem_foldl_union {γ : Type} (f : γ → Finset Nat) (xs : List γ) (selected : Finset Nat)
    (i : Nat) : i ∈ xs.foldl (fun selected x => selected ∪ f x) selected ↔
      i ∈ selected ∨ ∃ x ∈ xs, i ∈ f x := by
  induction xs generalizing selected with
  | nil => simp
  | cons x xs ih => simp [ih, or_assoc]

theorem mem_breakSides (budget : Nat) (gapIndices : List Nat) (selected : Finset Nat) (i : Nat) :
    i ∈ breakSides budget gapIndices selected ↔
      i ∈ selected ∨ gapIndices.length ≤ budget ∧ ∃ g ∈ gapIndices, i = g - 1 ∨ i = g := by
  unfold breakSides
  split_ifs with hle
  · rw [mem_foldl_union]
    simp [hle]
  · simp [hle]

theorem mem_picks (bucket : Bucket) (i : Nat) :
    i ∈ bucket.picks ↔ i = bucket.first ∨ i = bucket.last ∨
      ∃ field low high, bucket.extrema field = some (low, high) ∧ (i = low ∨ i = high) := by
  have hall : ∀ field, field ∈ Field.all := fun field => by cases field <;> decide
  have hpair : ∀ pair, i ∈ pairRows pair ↔
      ∃ low high, pair = some (low, high) ∧ (i = low ∨ i = high) := by
    rintro (_ | ⟨low, high⟩)
    · simp [pairRows]
    · simp only [pairRows, Finset.mem_insert, Finset.mem_singleton]
      grind
  rw [Bucket.picks, mem_foldl_union]
  simp [hall, hpair, or_assoc]

/-- A row is chosen: a reset, a side of a break, or what a bucket keeps. -/
def Chosen (reset : Nat → Prop) (gapIndices : List Nat) (budget : Nat)
    (buckets : Nat → Option Bucket) (i : Nat) : Prop :=
  reset i ∨ (gapIndices.length ≤ budget ∧ ∃ g ∈ gapIndices, i = g - 1 ∨ i = g) ∨
    ∃ b bucket, buckets b = some bucket ∧ i ∈ bucket.picks

theorem mem_selected {γ : Type} {reset : γ → Bool} {a : γ} {xs : List γ} {k : Nat}
    {selected selected' : Finset Nat} {i : Nat}
    (h : i ∈ selected' ↔ i ∈ (if reset a then insert k selected else selected) ∨
      ∃ j b, xs[j]? = some b ∧ reset b = true ∧ i = k + 1 + j) :
    i ∈ selected' ↔
      i ∈ selected ∨ ∃ j b, (a :: xs)[j]? = some b ∧ reset b = true ∧ i = k + j := by
  rw [h]
  constructor
  · rintro (hi | ⟨j, b, hj, hreset, rfl⟩)
    · by_cases ha : reset a = true
      · rw [if_pos ha] at hi
        rcases Finset.mem_insert.mp hi with rfl | hi
        · exact .inr ⟨0, a, rfl, ha, rfl⟩
        · exact .inl hi
      · rw [if_neg ha] at hi
        exact .inl hi
    · exact .inr ⟨j + 1, b, hj, hreset, by omega⟩
  · rintro (hi | ⟨j, b, hj, hreset, rfl⟩)
    · refine .inl ?_
      split_ifs
      · exact Finset.mem_insert_of_mem hi
      · exact hi
    · cases j with
      | zero =>
        rw [← Option.some.inj hj] at hreset
        refine .inl ?_
        rw [if_pos hreset]
        exact Finset.mem_insert_self k selected
      | succ j => exact .inr ⟨j, b, hj, hreset, by omega⟩

section Loops

variable {budget : Nat} {active : ℚ} {value : Nat → Field → Option ℚ} {place : Nat → Nat}

theorem bucketsPython_spec (xs : List (Row × ℚ)) {k : Nat} (selected : Finset Nat)
    {buckets : Dict Nat Bucket}
    (hplace : ∀ j a, xs[j]? = some a → place (k + j) = bucketOf budget active a.2)
    (h : ∀ b, buckets.get? b = spread place value k b) :
    ∃ selected' buckets', bucketsPython budget active value (xs.zipIdx k) selected buckets =
        .ok (selected', buckets') ∧ (∀ b, buckets'.get? b = spread place value (k + xs.length) b) ∧
      ∀ i, i ∈ selected' ↔
        i ∈ selected ∨ ∃ j a, xs[j]? = some a ∧ a.1.reset = true ∧ i = k + j := by
  induction xs generalizing k selected buckets with
  | nil => exact ⟨selected, buckets, rfl, h, by simp⟩
  | cons a xs ih =>
    have hbucket : bucketOf budget active a.2 = place k := (hplace 0 a rfl).symm
    have htouch : Field.all.foldlM (fun state => state.visitPython value k)
        { (spread place value k (place k)).getD { first := k, last := k } with last := k } =
        .ok (Bucket.touched value k (spread place value k (place k))) :=
      foldlM_touch (fun _ _ => visitPython_eq) (place k)
    have hafter : ∀ j b, xs[j]? = some b →
        place (k + 1 + j) = bucketOf budget active b.2 := fun j b hj => by
      rw [← hplace (j + 1) b hj]
      congr 1
      omega
    have hset : ∀ b, (buckets.set (place k)
        (Bucket.touched value k (spread place value k (place k)))).get? b =
          spread place value (k + 1) b := fun b => by
      rw [Dict.get?_set, spread, h]
      by_cases hb : b = place k <;> simp [hb]
    obtain ⟨selected', buckets', hrest, hbuckets, hselected⟩ := ih
      (if a.1.reset then insert k selected else selected) hafter hset
    refine ⟨selected', buckets', ?_, ?_, fun i => mem_selected (hselected i)⟩
    · rw [zipIdx_cons, bucketsPython]
      simp only [hbucket, h, htouch, bind, Except.bind]
      exact hrest
    · rw [length_cons, Nat.add_comm xs.length, ← Nat.add_assoc]
      exact hbuckets

theorem bucketsNative_spec (xs : List (Parsed × ℚ)) {k : Nat} (selected : Finset Nat)
    {buckets : List (Option Bucket)} (hlt : ∀ i, place i < budget)
    (hplace : ∀ j a, xs[j]? = some a → place (k + j) = bucketOf budget active a.2)
    (hlength : buckets.length = budget)
    (h : ∀ b < budget, buckets[b]? = some (spread place value k b)) :
    ∃ selected' buckets', bucketsNative budget active value (xs.zipIdx k) selected buckets =
        .ok (selected', buckets') ∧ buckets'.length = budget ∧
      (∀ b < budget, buckets'[b]? = some (spread place value (k + xs.length) b)) ∧
      ∀ i, i ∈ selected' ↔
        i ∈ selected ∨ ∃ j a, xs[j]? = some a ∧ a.1.reset = true ∧ i = k + j := by
  induction xs generalizing k selected buckets with
  | nil => exact ⟨selected, buckets, rfl, hlength, h, by simp⟩
  | cons a xs ih =>
    have hbucket : min (a.2 / max active 1 * budget).floor.toNat (budget - 1) = place k := by
      rw [max_comm, min_comm]
      exact (hplace 0 a rfl).symm
    have htouch : Field.all.foldlM (fun state => state.visitNative value k)
        { (spread place value k (place k)).getD { first := k, last := k } with last := k } =
        .ok (Bucket.touched value k (spread place value k (place k))) :=
      foldlM_touch (fun _ _ => visitNative_eq) (place k)
    have hindexed : indexed buckets (place k) = .ok (spread place value k (place k)) := by
      simp [indexed, h _ (hlt k)]
    have hafter : ∀ j b, xs[j]? = some b →
        place (k + 1 + j) = bucketOf budget active b.2 := fun j b hj => by
      rw [← hplace (j + 1) b hj]
      congr 1
      omega
    have hset : ∀ b < budget, (buckets.set (place k)
        (some (Bucket.touched value k (spread place value k (place k)))))[b]? =
          some (spread place value (k + 1) b) := fun b hb => by
      rw [List.getElem?_set, spread, h b hb]
      by_cases heq : b = place k
      · simp [heq, hlength, hlt k]
      · simp [heq, Ne.symm heq]
    obtain ⟨selected', buckets', hrest, hlength', hbuckets, hselected⟩ := ih
      (if a.1.reset then insert k selected else selected) hafter
      (by rw [List.length_set, hlength]) hset
    refine ⟨selected', buckets', ?_, hlength', ?_, fun i => mem_selected (hselected i)⟩
    · rw [zipIdx_cons, bucketsNative]
      simp only [hbucket, hindexed, htouch, bind, Except.bind]
      exact hrest
    · rw [length_cons, Nat.add_comm xs.length, ← Nat.add_assoc]
      exact hbuckets

theorem spread_lt (hlt : ∀ i, place i < budget) {k b : Nat} {bucket : Bucket}
    (h : spread place value k b = some bucket) : b < budget := by
  rw [← ((spread_spec place value k b).2 bucket h).first.2]
  exact hlt _

end Loops

section Samples

variable {rows : List Row} {completed : List (Option ℚ)} {c : Columns} {budget : Nat}

def placeOf (c : Columns) (budget i : Nat) : Nat :=
  bucketOf budget c.active (c.activeTimes.getD i 0)

def bucketsOf (rows : List Row) (completed : List (Option ℚ)) (c : Columns) (budget : Nat) :
    Nat → Option Bucket :=
  spread (placeOf c budget) (valuePython (rows.zip completed)) rows.length

def ResetAt (rows : List Row) (i : Nat) : Prop := ∃ row, rows[i]? = some row ∧ row.reset = true

theorem placeOf_lt (hbudget : 0 < budget) (i : Nat) : placeOf c budget i < budget := by
  have hle : placeOf c budget i ≤ budget - 1 := min_le_left _ _
  omega

theorem mem_chosen {reset : Nat → Prop} {gapIndices : List Nat} {buckets : Nat → Option Bucket}
    {γ : Type} {f : γ → Finset Nat} {xs : List γ} {selected : Finset Nat} {i : Nat}
    (hselected : i ∈ selected ↔ reset i)
    (hpicks : (∃ x ∈ xs, i ∈ f x) ↔ ∃ b bucket, buckets b = some bucket ∧ i ∈ bucket.picks) :
    i ∈ xs.foldl (fun selected x => selected ∪ f x) (breakSides budget gapIndices selected) ↔
      Chosen reset gapIndices budget buckets i := by
  rw [mem_foldl_union, mem_breakSides, hselected, hpicks, or_assoc]
  rfl

theorem reset_zip {γ : Type} {xs : List γ} (reset : γ → Bool) {times : List ℚ}
    (hlength : times.length = xs.length) (i : Nat) :
    (∃ j a, (xs.zip times)[j]? = some a ∧ reset a.1 = true ∧ i = 0 + j) ↔
      ∃ x, xs[i]? = some x ∧ reset x = true := by
  constructor
  · rintro ⟨j, a, hj, hreset, rfl⟩
    rw [Nat.zero_add]
    exact ⟨a.1, (List.getElem?_zip_eq_some.mp hj).1, hreset⟩
  · rintro ⟨x, hx, hreset⟩
    obtain ⟨hi, -⟩ := List.getElem?_eq_some_iff.mp hx
    have htime : times[i]? = some times[i] := List.getElem?_eq_getElem (by omega)
    exact ⟨i, (x, times[i]), List.getElem?_zip_eq_some.mpr ⟨hx, htime⟩, hreset,
      (Nat.zero_add i).symm⟩

theorem placeOf_zip {γ : Type} {xs : List γ} (j : Nat) (a : γ × ℚ)
    (hj : (xs.zip c.activeTimes)[j]? = some a) :
    placeOf c budget (0 + j) = bucketOf budget c.active a.2 := by
  have htime := (List.getElem?_zip_eq_some.mp hj).2
  rw [Nat.zero_add, placeOf, getD_eq_getElem?_getD, htime, Option.getD_some]

theorem samplePython_spec (hcompleted : completed.length = rows.length)
    (htimes : c.activeTimes.length = rows.length) (hmany : ¬rows.length ≤ budget * 2) :
    ∃ selected : Finset Nat,
      samplePython (rows.zip completed) c budget = .ok (selected.sort (· ≤ ·)) ∧ ∀ i, i ∈ selected ↔
        Chosen (ResetAt rows) c.gapIndices budget (bucketsOf rows completed c budget) i := by
  have hfst : (rows.zip completed).map Prod.fst = rows := map_fst_zip hcompleted.ge
  have hlength : (rows.zip completed).length = rows.length := by simp [hcompleted]
  have hempty : ∀ b, ({} : Dict Nat Bucket).get? b =
      spread (placeOf c budget) (valuePython (rows.zip completed)) 0 b := fun b => rfl
  obtain ⟨selected, buckets, hrun, hbuckets, hselected⟩ := bucketsPython_spec
    (rows.zip c.activeTimes) ∅ placeOf_zip hempty
  refine ⟨buckets.entries.foldl (fun selected entry => selected ∪ entry.2.picks)
    (breakSides budget c.gapIndices selected), ?_, fun i => mem_chosen ?_ ?_⟩
  · unfold samplePython
    rw [hlength, if_neg hmany, hfst, hrun]
    rfl
  · rw [hselected, ResetAt, ← reset_zip Row.reset htimes]
    simp
  · have hget : ∀ b bucket, bucketsOf rows completed c budget b = some bucket ↔
        (b, bucket) ∈ buckets.entries := by
      intro b bucket
      have hzip : 0 + (rows.zip c.activeTimes).length = rows.length := by simp [htimes]
      rw [← Dict.get?_eq_some, hbuckets, hzip]
      rfl
    simp [hget]

theorem sampleNative_spec {prepared : List Parsed} (hcompleted : completed.length = rows.length)
    (hprepared : prepared.length = rows.length)
    (hreset : ∀ i, (∃ row, prepared[i]? = some row ∧ row.reset = true) ↔ ResetAt rows i)
    (hvalue : valueAt (prepared.zip completed) = valuePython (rows.zip completed))
    (hbudget : 0 < budget) (htimes : c.activeTimes.length = rows.length)
    (hmany : ¬rows.length ≤ budget * 2) : ∃ selected : Finset Nat,
      sampleNative (prepared.zip completed) c budget = .ok (selected.sort (· ≤ ·)) ∧
      ∀ i, i ∈ selected ↔
        Chosen (ResetAt rows) c.gapIndices budget (bucketsOf rows completed c budget) i := by
  have hfst : (prepared.zip completed).map Prod.fst = prepared :=
    map_fst_zip (by omega)
  have hlength : (prepared.zip completed).length = rows.length := by simp [hcompleted, hprepared]
  have hempty : ∀ b < budget, (List.replicate budget (none : Option Bucket))[b]? =
      some (spread (placeOf c budget) (valueAt (prepared.zip completed)) 0 b) := fun b hb => by
    simp [hb, spread]
  obtain ⟨selected, buckets, hrun, hlen, hbuckets, hselected⟩ := bucketsNative_spec
    (prepared.zip c.activeTimes) ∅ (placeOf_lt (c := c) hbudget) placeOf_zip (by simp) hempty
  refine ⟨(buckets.filterMap id).foldl (fun selected bucket => selected ∪ bucket.picks)
    (breakSides budget c.gapIndices selected), ?_, fun i => mem_chosen ?_ ?_⟩
  · unfold sampleNative
    rw [hlength, if_neg hmany, hfst, hrun]
    rfl
  · rw [hselected, ← hreset, ← reset_zip Parsed.reset (htimes.trans hprepared.symm)]
    simp
  · have hzip : 0 + (prepared.zip c.activeTimes).length = rows.length := by
      simp [htimes, hprepared]
    rw [hzip, hvalue] at hbuckets
    constructor
    · rintro ⟨bucket, hbucket, hi⟩
      obtain ⟨o, ho, rfl⟩ := mem_filterMap.mp hbucket
      obtain ⟨b, hb⟩ := List.getElem?_of_mem ho
      have hlt : b < budget := by
        rw [← hlen]
        exact (List.getElem?_eq_some_iff.mp hb).1
      exact ⟨b, bucket, Option.some.inj ((hbuckets b hlt).symm.trans hb), hi⟩
    · rintro ⟨b, bucket, hb, hi⟩
      have hlt := spread_lt (placeOf_lt hbudget) hb
      have hmem := mem_of_getElem? ((hbuckets b hlt).trans (congrArg some hb))
      exact ⟨bucket, mem_filterMap.mpr ⟨_, hmem, rfl⟩, hi⟩

end Samples

/-! ## what a sample keeps -/

/-- The breaks, in order. -/
structure Breaks (rows : List Row) (gapIndices : List Nat) : Prop where
  increasing : gapIndices.Pairwise (· < ·)
  mem : ∀ i, i ∈ gapIndices ↔ 0 < i ∧ ∃ row, rows[i]? = some row ∧ row.connect = false

/-- Some row of the sample has the least value, and some row the greatest. -/
def KeepsExtrema (value : Nat → Option ℚ) (sample : List Nat) : Prop :=
  (∃ i v, value i = some v) →
    (∃ i ∈ sample, ∃ v, value i = some v ∧ ∀ j w, value j = some w → v ≤ w) ∧
    ∃ i ∈ sample, ∃ v, value i = some v ∧ ∀ j w, value j = some w → w ≤ v

/-- A sample that does not lie. -/
structure Faithful (rows : List Row) (completed : List (Option ℚ)) (gapIndices : List Nat)
    (budget : Nat) (sample : List Nat) : Prop where
  increasing : sample.Pairwise (· < ·)
  indices : ∀ i ∈ sample, i < rows.length
  ends : rows ≠ [] → 0 ∈ sample ∧ rows.length - 1 ∈ sample
  resets : ∀ i, ResetAt rows i → i ∈ sample
  breaks : gapIndices.length ≤ budget → ∀ i ∈ gapIndices, i - 1 ∈ sample ∧ i ∈ sample
  extrema : ∀ field, KeepsExtrema (fun i => valuePython (rows.zip completed) i field) sample

section Faithful

variable {rows : List Row} {completed : List (Option ℚ)} {c : Columns} {budget : Nat}

theorem valuePython_lt {i : Nat} {field : Field} {v : ℚ}
    (h : valuePython (rows.zip completed) i field = some v) : i < rows.length := by
  unfold valuePython at h
  obtain ⟨row, hrow, -⟩ := Option.bind_eq_some_iff.mp h
  exact (List.getElem?_eq_some_iff.mp (List.getElem?_zip_eq_some.mp hrow).1).1

theorem exists_least {n : Nat} {value : Nat → Option ℚ} (hlt : ∀ i v, value i = some v → i < n)
    (h : ∃ i v, value i = some v) : ∃ i v, value i = some v ∧ ∀ j w, value j = some w → v ≤ w := by
  obtain ⟨i, v, hv⟩ := h
  have hmem : i ∈ (Finset.range n).filter fun i => (value i).isSome = true := by
    simp [hlt i v hv, hv]
  obtain ⟨k, hk, hleast⟩ := Finset.exists_min_image _ (fun i => (value i).getD 0) ⟨i, hmem⟩
  obtain ⟨w, hw⟩ := Option.isSome_iff_exists.mp (Finset.mem_filter.mp hk).2
  refine ⟨k, w, hw, fun j u hu => ?_⟩
  have hj : j ∈ (Finset.range n).filter fun i => (value i).isSome = true := by
    simp [hlt j u hu, hu]
  simpa [hw, hu] using hleast j hj

theorem exists_greatest {n : Nat} {value : Nat → Option ℚ} (hlt : ∀ i v, value i = some v → i < n)
    (h : ∃ i v, value i = some v) : ∃ i v, value i = some v ∧ ∀ j w, value j = some w → w ≤ v := by
  obtain ⟨i, v, hv⟩ := h
  have hmem : i ∈ (Finset.range n).filter fun i => (value i).isSome = true := by
    simp [hlt i v hv, hv]
  obtain ⟨k, hk, hgreatest⟩ := Finset.exists_max_image _ (fun i => (value i).getD 0) ⟨i, hmem⟩
  obtain ⟨w, hw⟩ := Option.isSome_iff_exists.mp (Finset.mem_filter.mp hk).2
  refine ⟨k, w, hw, fun j u hu => ?_⟩
  have hj : j ∈ (Finset.range n).filter fun i => (value i).isSome = true := by
    simp [hlt j u hu, hu]
  simpa [hw, hu] using hgreatest j hj

theorem bucketsOf_of_lt (completed : List (Option ℚ)) (c : Columns) (budget : Nat) {i : Nat}
    (hi : i < rows.length) :
    ∃ bucket, bucketsOf rows completed c budget (placeOf c budget i) = some bucket ∧
      bucket.Of (valuePython (rows.zip completed)) fun j =>
        j < rows.length ∧ placeOf c budget j = placeOf c budget i := by
  have hspec := spread_spec (placeOf c budget) (valuePython (rows.zip completed)) rows.length
    (placeOf c budget i)
  unfold bucketsOf
  cases hbucket : spread (placeOf c budget) (valuePython (rows.zip completed)) rows.length
      (placeOf c budget i) with
  | none => exact absurd rfl (hspec.1 hbucket i hi)
  | some bucket => exact ⟨bucket, rfl, hspec.2 bucket hbucket⟩

theorem chosen_faithful (hgaps : Breaks rows c.gapIndices) {selected : Finset Nat}
    (h : ∀ i, i ∈ selected ↔
      Chosen (ResetAt rows) c.gapIndices budget (bucketsOf rows completed c budget) i) :
    Faithful rows completed c.gapIndices budget (selected.sort (· ≤ ·)) := by
  have hmem : ∀ i, i ∈ selected.sort (· ≤ ·) ↔
      Chosen (ResetAt rows) c.gapIndices budget (bucketsOf rows completed c budget) i := fun i => by
    rw [Finset.mem_sort, h]
  have hpick : ∀ {i j : Nat} {bucket : Bucket},
      bucketsOf rows completed c budget (placeOf c budget j) = some bucket →
        i ∈ bucket.picks → i ∈ selected.sort (· ≤ ·) := fun hbucket hi =>
    (hmem _).mpr (.inr (.inr ⟨_, _, hbucket, hi⟩))
  refine ⟨Finset.sortedLT_sort selected |>.pairwise, fun i hi => ?_, fun hne => ⟨?_, ?_⟩,
    fun i hi => (hmem i).mpr (.inl hi), fun hfew i hi => ⟨?_, ?_⟩, fun field hsome => ?_⟩
  · rcases (hmem i).mp hi with ⟨row, hrow, -⟩ | ⟨-, g, hg, hi⟩ | ⟨b, bucket, hb, hi⟩
    · exact (List.getElem?_eq_some_iff.mp hrow).1
    · obtain ⟨hpos, row, hrow, -⟩ := (hgaps.mem g).mp hg
      have hlt := (List.getElem?_eq_some_iff.mp hrow).1
      omega
    · have hof := (spread_spec _ _ rows.length b).2 bucket hb
      rcases (mem_picks bucket i).mp hi with rfl | rfl | ⟨field, low, high, hpair, hi⟩
      · exact hof.first.1
      · exact hof.last.1
      · have hextreme := hof.extreme field
        rw [hpair] at hextreme
        rcases hi with rfl | rfl
        · exact hextreme.1.1
        · exact hextreme.2.1.1
  · have hpos : 0 < rows.length := length_pos_iff.mpr hne
    obtain ⟨bucket, hbucket, hof⟩ := bucketsOf_of_lt completed c budget hpos
    have hfirst : bucket.first = 0 := Nat.le_zero.mp (hof.between 0 ⟨hpos, rfl⟩).1
    exact hpick hbucket ((mem_picks bucket 0).mpr (.inl hfirst.symm))
  · have hpos : 0 < rows.length := length_pos_iff.mpr hne
    have hlast : rows.length - 1 < rows.length := by omega
    obtain ⟨bucket, hbucket, hof⟩ := bucketsOf_of_lt completed c budget hlast
    have hle := (hof.between (rows.length - 1) ⟨hlast, rfl⟩).2
    have hlt := hof.last.1
    have heq : rows.length - 1 = bucket.last := by omega
    exact hpick hbucket ((mem_picks bucket _).mpr (.inr (.inl heq)))
  · exact (hmem _).mpr (.inr (.inl ⟨hfew, i, hi, .inl rfl⟩))
  · exact (hmem _).mpr (.inr (.inl ⟨hfew, i, hi, .inr rfl⟩))
  · have hlt : ∀ i v, valuePython (rows.zip completed) i field = some v → i < rows.length :=
      fun i v => valuePython_lt
    obtain ⟨i, v, hi, hleast⟩ := exists_least hlt hsome
    obtain ⟨j, w, hj, hgreatest⟩ := exists_greatest hlt hsome
    have hkept : ∀ {k u}, valuePython (rows.zip completed) k field = some u →
        ∃ low high x y, low ∈ selected.sort (· ≤ ·) ∧ high ∈ selected.sort (· ≤ ·) ∧
          valuePython (rows.zip completed) low field = some x ∧
          valuePython (rows.zip completed) high field = some y ∧ x ≤ u ∧ u ≤ y := by
      intro k u hu
      obtain ⟨bucket, hbucket, hof⟩ := bucketsOf_of_lt completed c budget (hlt k u hu)
      have hextreme := hof.extreme field
      cases hpair : bucket.extrema field with
      | none =>
        rw [hpair] at hextreme
        have hnone : valuePython (rows.zip completed) k field = none :=
          hextreme k ⟨hlt k u hu, rfl⟩
        rw [hnone] at hu
        cases hu
      | some pair =>
        obtain ⟨low, high⟩ := pair
        rw [hpair] at hextreme
        obtain ⟨-, -, x, y, hx, hy, hall⟩ := hextreme
        have hbounds := hall k u ⟨hlt k u hu, rfl⟩ hu
        exact ⟨low, high, x, y, hpick hbucket ((mem_picks bucket _).mpr
            (.inr (.inr ⟨field, low, high, hpair, .inl rfl⟩))),
          hpick hbucket ((mem_picks bucket _).mpr
            (.inr (.inr ⟨field, low, high, hpair, .inr rfl⟩))),
          hx, hy, hbounds⟩
    obtain ⟨low, -, x, -, hlow, -, hx, -, hle, -⟩ := hkept hi
    obtain ⟨-, high, -, y, -, hhigh, -, hy, -, hge⟩ := hkept hj
    exact ⟨⟨low, hlow, x, hx, fun k u hu => hle.trans (hleast k u hu)⟩,
      ⟨high, hhigh, y, hy, fun k u hu => (hgreatest k u hu).trans hge⟩⟩

theorem range_faithful (hgaps : Breaks rows c.gapIndices) :
    Faithful rows completed c.gapIndices budget (List.range rows.length) := by
  refine ⟨pairwise_lt_range, fun i hi => List.mem_range.mp hi, fun hne => ?_, fun i hi => ?_,
    fun _ i hi => ?_, fun field hsome => ?_⟩
  · have hpos : 0 < rows.length := length_pos_iff.mpr hne
    simp [hpos]
  · obtain ⟨row, hrow, -⟩ := hi
    exact List.mem_range.mpr (List.getElem?_eq_some_iff.mp hrow).1
  · obtain ⟨-, row, hrow, -⟩ := (hgaps.mem i).mp hi
    have hlt := (List.getElem?_eq_some_iff.mp hrow).1
    simp only [List.mem_range]
    omega
  · have hlt : ∀ i v, valuePython (rows.zip completed) i field = some v → i < rows.length :=
      fun i v => valuePython_lt
    obtain ⟨i, v, hi, hleast⟩ := exists_least hlt hsome
    obtain ⟨j, w, hj, hgreatest⟩ := exists_greatest hlt hsome
    exact ⟨⟨i, List.mem_range.mpr (hlt i v hi), v, hi, hleast⟩,
      ⟨j, List.mem_range.mpr (hlt j w hj), w, hj, hgreatest⟩⟩

end Faithful

end Codexon.QuotaSeries
