import Codexon.ObservationImport.Growth

/-!
# Codexon.ObservationImport.Slices

A token that a later snapshot accepts vouches for the rows up to its maximum
(`old_of_samePrefix`), and a slice reads every row up to the cursor it commits
(`slice_reads`).
-/

namespace Codexon.ObservationImport

open List

open EventStore

variable {α β ε : Type}

/-! ## tokens -/

variable {s : Store α}

theorem seq_le_maximum {r : RecordRow α} (hr : r ∈ s.records.rows) : r.seq ≤ maximum s := by
  obtain ⟨last, hlast⟩ : ∃ last, s.records.rows.getLast? = some last :=
    Option.isSome_iff_exists.mp (by
      rw [getLast?_isSome]
      exact ne_nil_of_mem hr)
  have hmax : maximum s = last.seq := by simp [maximum, hlast]
  rw [hmax]
  obtain ⟨init, hinit⟩ := getLast?_eq_some_iff.mp hlast
  have hsorted := s.records.sorted
  rw [hinit] at hsorted hr
  rw [pairwise_append] at hsorted
  rcases mem_append.mp hr with hr | hr
  · exact (hsorted.2.2 r hr last (mem_singleton_self last)).le
  · rw [mem_singleton.mp hr]

theorem beyond_maximum (s : Store α) : beyond s (maximum s) = 0 := by
  rw [beyond, countP_eq_zero]
  intro r hr
  have hle := seq_le_maximum hr
  simpa using hle

theorem length_between (s : Store α) (low : Int) :
    (between s low (maximum s)).length = beyond s low := by
  rw [between, beyond, ← countP_eq_length_filter]
  refine countP_congr fun r hr => ?_
  have hle := seq_le_maximum hr
  simp only [decide_eq_true_eq]
  omega

variable {R : Reading α β ε}

variable {token : Token ε}

theorem current_eq_some (h : current R s = some token) :
    token.1 = R.draw s.epoch ∧ total s.sessions.rows = some token.2.1 ∧ token.2.2 = maximum s := by
  obtain ⟨revision, hrevision, htoken⟩ := Option.bind_eq_some_iff.mp h
  split at htoken
  · contradiction
  · obtain rfl := Option.some.inj htoken
    exact ⟨rfl, hrevision, rfl⟩

section

variable [DecidableEq ε]

theorem maximum_le_of_samePrefix {old : Token ε}
    (h : samePrefix s (some old) token = true) : old.2.2 ≤ token.2.2 := by
  simp only [samePrefix] at h
  grind

/-- **A token that is accepted**: the rows up to its maximum were there. -/
theorem old_of_samePrefix (hdraw : Function.Injective R.draw)
    {s' : Store α} {token' : Token ε} (htoken : current R s = some token)
    (htoken' : current R s' = some token') (hgrows : Grows R.one (maximum s) s s')
    (h : samePrefix s' (some token) token' = true) : Old R.one (maximum s) s s' := by
  obtain ⟨hepoch, htotal, hmax⟩ := current_eq_some htoken
  obtain ⟨hepoch', htotal', hmax'⟩ := current_eq_some htoken'
  have hsame : token'.1 = token.1 := by
    simp only [samePrefix] at h
    grind
  have hcount : token'.2.1 - token.2.1 = beyond s' (maximum s) := by
    have hlength := length_between s' (maximum s)
    simp only [samePrefix] at h
    split at h
    · next heq =>
      have hnone := beyond_maximum s'
      rw [← hmax', heq, hmax] at hnone
      rw [heq, hnone]
      omega
    · split at h
      · contradiction
      · rw [← hmax', ← hmax] at hlength
        rw [← hmax, ← hlength]
        exact of_decide_eq_true h
  have hdrawn : s'.epoch = s.epoch := hdraw (by rw [← hepoch, ← hepoch', hsame])
  rcases hgrows with hlater | ⟨-, hgrows⟩
  · omega
  · obtain ⟨t, ht, -, hold⟩ := hgrows _ htotal'
    obtain rfl : token.2.1 = t := Option.some.inj (htotal.symm.trans ht)
    refine hold ?_
    rw [beyond_maximum, hcount]
    omega

/-! ## the loop -/

end

variable [DecidableEq α]

def Has (R : Reading α β ε) (homes : Finset α) (imported : List (Observation α β))
    (row : SourceRow α) : Prop :=
  within homes row = true → ∀ quota, R.rateLimits row.data = some (some quota) →
    (row.home, row.ts, quota) ∈ imported

theorem has_mono {homes : Finset α}
    {imported imported' : List (Observation α β)} {row : SourceRow α} (h : Has R homes imported row)
    (hsub : imported ⊆ imported') :
    Has R homes imported' row := fun hhome quota hquota => hsub (h hhome quota hquota)

/-- **The loop**: it has the rows up to its cursor, or all of them. -/
theorem scan_reads {homes : Finset α} {start : Int} {late : Nat → Bool}
    {rows : List (SourceRow α)} {position : Nat} {v v' : Scan α β} {exhausted : Bool}
    (h : scan R homes start late rows position v = some (v', exhausted))
    (hsorted : rows.Pairwise (·.seq < ·.seq)) (hafter : ∀ row ∈ rows, v.cursor < row.seq) :
    v.batch ⊆ v'.batch ∧ (v'.cursor = v.cursor ∨ ∃ row ∈ rows, v'.cursor = row.seq) ∧
      (exhausted = true → rows = [] ∨ position + rows.length ≤ OBSERVATIONS) ∧
      ∀ row ∈ rows, exhausted = true ∨ row.seq ≤ v'.cursor → Has R homes v'.batch row := by
  induction rows generalizing position v with
  | nil =>
    obtain ⟨rfl, rfl⟩ := Prod.mk.inj (Option.some.inj h)
    simp
  | cons row rows ih =>
    obtain ⟨hfirst, hsorted⟩ := pairwise_cons.mp hsorted
    -- The loop stops before the row: no row is up to the cursor.
    have hstop : some (v, false) = some (v', exhausted) → v.batch ⊆ v'.batch ∧
        (v'.cursor = v.cursor ∨ ∃ row' ∈ row :: rows, v'.cursor = row'.seq) ∧
        (exhausted = true → row :: rows = [] ∨ position + (row :: rows).length ≤ OBSERVATIONS) ∧
        ∀ row' ∈ row :: rows, exhausted = true ∨ row'.seq ≤ v'.cursor →
          Has R homes v'.batch row' := by
      intro heq
      obtain ⟨rfl, rfl⟩ := Prod.mk.inj (Option.some.inj heq)
      refine ⟨List.Subset.refl _, .inl rfl, by simp, fun row' hrow' hle => ?_⟩
      have := hafter row' hrow'
      simp only [Bool.false_eq_true, false_or] at hle
      omega
    -- The loop goes on after the row.
    have hgo : ∀ w : Scan α β, w.cursor = row.seq → v.batch ⊆ w.batch →
        Has R homes w.batch row → position < OBSERVATIONS →
        scan R homes start late rows (position + 1) w = some (v', exhausted) →
        v.batch ⊆ v'.batch ∧
        (v'.cursor = v.cursor ∨ ∃ row' ∈ row :: rows, v'.cursor = row'.seq) ∧
        (exhausted = true → row :: rows = [] ∨ position + (row :: rows).length ≤ OBSERVATIONS) ∧
        ∀ row' ∈ row :: rows, exhausted = true ∨ row'.seq ≤ v'.cursor →
          Has R homes v'.batch row' := by
      intro w hcursor hbatch hhas hposition hscan
      obtain ⟨hsub, hplace, hcount, hrest⟩ := ih hscan hsorted (by rwa [hcursor])
      refine ⟨List.Subset.trans hbatch hsub, .inr ?_, fun hall => .inr ?_, fun row' hrow' hle => ?_⟩
      · rcases hplace with hplace | ⟨row', hrow', hplace⟩
        · exact ⟨row, mem_cons_self, hplace.trans hcursor⟩
        · exact ⟨row', mem_cons_of_mem _ hrow', hplace⟩
      · rcases hcount hall with rfl | hcount
        · simpa using Nat.succ_le_of_lt hposition
        · rw [length_cons]
          omega
      · rcases mem_cons.mp hrow' with rfl | hrow'
        · exact has_mono hhas hsub
        · exact hrest row' hrow' hle
    rw [scan] at h
    split at h
    · exact hstop h
    · next hposition =>
      rw [not_le] at hposition
      split at h
      · next hhome =>
        refine hgo { v with cursor := row.seq } rfl (List.Subset.refl _) (fun hin => ?_)
          hposition h
        simp [hhome] at hin
      · split at h
        · exact hstop h
        · split at h
          · contradiction
          · next quota hquota =>
            refine hgo _ rfl (subset_append_left _ _) (fun _ quota' hquota' => ?_)
              hposition h
            rw [hquota, Option.some.injEq] at hquota'
            subst hquota'
            simp [observation]

/-! ## slices -/

omit [DecidableEq α] in
theorem mem_between {low high : Int} {r : RecordRow α} :
    r ∈ between s low high ↔ r ∈ s.records.rows ∧ low < r.seq ∧ r.seq ≤ high := by
  simp [between]

omit [DecidableEq α] in
theorem sliceEnd_le (s : Store α) (cursor high : Int) : sliceEnd s cursor high ≤ high := by
  unfold sliceEnd
  cases hbound : (between s cursor high)[SOURCE_ROWS - 1]? with
  | none => exact le_refl _
  | some r => exact (mem_between.mp (mem_of_getElem? hbound)).2.2

theorem found_rows (R : Reading α β ε) (s : Store α) (start e : Int) :
    (((between s start e).filter (·.quota = R.one)).filterMap (joined s)).Pairwise (·.seq < ·.seq) ∧
      ∀ row, row ∈ ((between s start e).filter (·.quota = R.one)).filterMap (joined s) ↔
        Visible R.one s row ∧ start < row.seq ∧ row.seq ≤ e := by
  constructor
  · refine pairwise_filterMap.mpr ?_
    refine ((s.records.sorted.filter _).filter _).imp fun {r r'} hlt row hrow row' hrow' => ?_
    rw [seq_of_joined hrow, seq_of_joined hrow']
    exact hlt
  · intro row
    simp only [mem_filterMap, List.mem_filter, mem_between, decide_eq_true_eq, Visible]
    constructor
    · rintro ⟨r, ⟨⟨hr, hlow, hhigh⟩, hquota⟩, hjoined⟩
      rw [seq_of_joined hjoined]
      exact ⟨⟨r, hr, hquota, hjoined⟩, hlow, hhigh⟩
    · rintro ⟨⟨r, hr, hquota, hjoined⟩, hlow, hhigh⟩
      rw [seq_of_joined hjoined] at hlow hhigh
      exact ⟨r, ⟨⟨hr, hlow, hhigh⟩, hquota⟩, hjoined⟩

variable [DecidableEq ε]

/-- **A slice** has every row between the resumed cursor and the one it commits. -/
theorem slice_reads {reader : Reader α ε}
    {late : Nat → Bool} {slice : Slice α β ε} (hmax : token.2.2 = maximum s)
    (h : reader.slice R s token late = some slice) :
    slice.token = token ∧ (slice.complete = true → maximum s ≤ slice.cursor) ∧
      (slice.cursor = reader.resumed s token ∨ slice.cursor ≤ maximum s) ∧
      ∀ row, Visible R.one s row → reader.resumed s token < row.seq → row.seq ≤ slice.cursor →
        Has R reader.homes slice.batch row := by
  obtain ⟨⟨v, exhausted⟩, hscan, rfl⟩ := Option.map_eq_some_iff.mp h
  obtain ⟨hsorted, hmem⟩ := found_rows R s (reader.resumed s token)
    (sliceEnd s (reader.resumed s token) token.2.2)
  have hend := sliceEnd_le s (reader.resumed s token) token.2.2
  set start := reader.resumed s token
  set rows := ((between s start (sliceEnd s start token.2.2)).filter
    (·.quota = R.one)).filterMap (joined s) with hrows
  have htaken : ∀ row ∈ rows.take (OBSERVATIONS + 1), row ∈ rows := fun row =>
    mem_of_mem_take
  obtain ⟨-, hplace, hcount, hread⟩ := scan_reads hscan
    (hsorted.sublist (take_sublist _ _)) fun row hrow => ((hmem row).mp (htaken row hrow)).2.1
  refine ⟨rfl, fun hcomplete => ?_, ?_, fun row hvisible hlow hhigh => ?_⟩
  · rw [← hmax]
    exact of_decide_eq_true hcomplete
  · cases exhausted with
    | true => exact .inr (by simpa [hmax] using hend)
    | false =>
      rcases hplace with hplace | ⟨row, hrow, hplace⟩
      · exact .inl (by simpa using hplace)
      · have hle := ((hmem row).mp (htaken row hrow)).2.2
        right
        simp only [Bool.false_eq_true, if_false]
        omega
  · cases exhausted with
    | true =>
      simp only [if_true] at hhigh
      have hrow : row ∈ rows := (hmem row).mpr ⟨hvisible, hlow, hhigh⟩
      have hall : rows.take (OBSERVATIONS + 1) = rows := by
        refine take_of_length_le ?_
        rcases hcount rfl with hnone | hcount
        · rw [sliceRows, ← hrows, take_eq_nil_iff] at hnone
          rcases hnone with hzero | hnone
          · contradiction
          · simp [hnone]
        · rw [sliceRows, ← hrows, length_take] at hcount
          omega
      refine hread row ?_ (.inl rfl)
      rw [sliceRows, ← hrows, hall]
      exact hrow
    | false =>
      simp only [Bool.false_eq_true, if_false] at hhigh
      rcases hplace with hplace | ⟨row₁, hrow₁, hplace⟩
      · simp only at hplace
        omega
      · have hle := ((hmem row₁).mp (htaken row₁ hrow₁)).2.2
        have hrow : row ∈ rows := (hmem row).mpr ⟨hvisible, hlow, by omega⟩
        rw [← take_append_drop (OBSERVATIONS + 1) rows] at hrow hsorted
        rcases mem_append.mp hrow with hrow | hrow
        · exact hread row hrow (.inr hhigh)
        · have hlt := (pairwise_append.mp hsorted).2.2 row₁ hrow₁ row hrow
          omega

end Codexon.ObservationImport
