import Codexon.QuotaWindows.Naive
import Codexon.RequestIntervals

/-!
# Codexon.RequestIntervals.Candidates

The priced calls that are accepted, and that they fit the spans of observed ends around them.
-/

namespace Codexon.RequestIntervals

open List

open QuotaClip (Endpoint CostRow Cycle)

section Bounds

variable {times : List ℚ} {start stop : Option ℚ} {pending : Bool} {ts : ℚ} {span : Span}

theorem bounds_lt (h : bounds times start stop pending = some span) :
    span.1 < span.2 ∧ span.2 < times.length := by
  unfold bounds at h
  split at h
  · dsimp only at h
    split_ifs at h with h1 h2 h3 h4
    rw [← Option.some.inj h]
    dsimp only
    omega
  · cases h

theorem bounds_row (h : bounds times start (some ts) false = some span) :
    span.1 + 1 = bisectLeft times (start.getD ts) ∧ start.getD ts ≤ ts ∧
      bisectLeft times ts < times.length ∧ bisectLeft times ts ≤ span.2 := by
  unfold bounds at h
  split at h
  · rename_i first last start' hfirst hlast hstart
    have hvalue : start.getD ts = start' := by
      cases start <;> simpa using hstart
    rw [hvalue]
    dsimp only at h
    split_ifs at h with h1 h2 h3 h4
    rw [← Option.some.inj h]
    simp only [Bool.not_false, Bool.true_and, Bool.or_eq_true, decide_eq_true_eq, not_or,
      Option.getD_some] at h1 h3 ⊢
    refine ⟨by omega, not_lt.mp h1, by omega, by omega⟩
  · cases h

end Bounds

/-! ## candidates -/

def ownSpan (times : List ℚ) (row : CostRow) : Option Span :=
  bounds times (requestStart row) (some row.ts) false

/-- A call that is priced between observed ends. -/
def isAccepted (times : List ℚ) (row : CostRow) : Bool :=
  row.cost.isSome && (ownSpan times row).isSome

def candidateOf (times : List ℚ) (entry : CostRow × Nat) : Option (Span × Nat) :=
  if entry.1.cost.isSome then (ownSpan times entry.1).map (·, entry.2) else none

/-- The spans are between ends, and those of candidates are among all. -/
structure Evidence.Valid (times : List ℚ) (e : Evidence) : Prop where
  spans : ∀ span ∈ e.allRanges, span.1 < span.2 ∧ span.2 < times.length
  candidates : ∀ c ∈ e.candidates, c.1 ∈ e.allRanges

section Evidence

variable {times : List ℚ} {e : Evidence}

theorem addRow_candidates (e : Evidence) (entry : CostRow × Nat) :
    (e.addRow times entry).candidates = e.candidates ++ (candidateOf times entry).toList := by
  obtain ⟨row, index⟩ := entry
  unfold Evidence.addRow candidateOf ownSpan
  dsimp only
  cases hspan : bounds times (requestStart row) (some row.ts) false with
  | some span => cases hcost : row.cost <;> simp
  | none => cases bounds times (requestStart row) (some row.ts) true <;> simp

theorem Evidence.Valid.addRow (h : e.Valid times) (entry : CostRow × Nat) :
    (e.addRow times entry).Valid times := by
  obtain ⟨row, index⟩ := entry
  obtain ⟨hspans, hcandidates⟩ := h
  unfold Evidence.addRow
  dsimp only
  cases hspan : bounds times (requestStart row) (some row.ts) false with
  | some span =>
    have hnew := bounds_lt hspan
    dsimp only
    split_ifs
    all_goals
      constructor
      · simp only [mem_append, mem_singleton]
        rintro s (hs | rfl)
        · exact hspans s hs
        · exact hnew
      · grind
  | none =>
    cases hopen : bounds times (requestStart row) (some row.ts) true with
    | none => exact ⟨hspans, hcandidates⟩
    | some span =>
      have hnew := bounds_lt hopen
      constructor
      · simp only [mem_append, mem_singleton]
        rintro s (hs | rfl)
        · exact hspans s hs
        · exact hnew
      · grind

theorem Evidence.Valid.addRequest (h : e.Valid times) (known : List PyStr) (request : Window) :
    (e.addRequest times known request).Valid times := by
  obtain ⟨hspans, hcandidates⟩ := h
  unfold Evidence.addRequest
  split_ifs
  · exact ⟨hspans, hcandidates⟩
  · cases hopen : bounds times request.start request.stop true with
    | none => exact ⟨hspans, hcandidates⟩
    | some span =>
      have hnew := bounds_lt hopen
      constructor
      · simp only [mem_append, mem_singleton]
        rintro s (hs | rfl)
        · exact hspans s hs
        · exact hnew
      · grind

theorem addRequest_candidates (e : Evidence) (known : List PyStr) (request : Window) :
    (e.addRequest times known request).candidates = e.candidates := by
  unfold Evidence.addRequest
  split_ifs
  · rfl
  · cases bounds times request.start request.stop true <;> rfl

end Evidence

section Cycle

variable (cycle : Cycle) (requests : List Window)

theorem evidence_valid : (evidence cycle requests).Valid (times cycle) := by
  have hrows : ∀ (entries : List (CostRow × Nat)) (e : Evidence), e.Valid (times cycle) →
      (entries.foldl (Evidence.addRow (times cycle)) e).Valid (times cycle) := by
    intro entries
    induction entries with
    | nil => exact fun e he => he
    | cons entry entries ih => exact fun e he => ih _ (he.addRow entry)
  have hrequests : ∀ (requests : List Window) (e : Evidence), e.Valid (times cycle) →
      (requests.foldl (Evidence.addRequest (times cycle) (knownIds cycle)) e).Valid
        (times cycle) := by
    intro requests
    induction requests with
    | nil => exact fun e he => he
    | cons request requests ih => exact fun e he => ih _ (he.addRequest _ request)
  exact hrequests _ _ (hrows _ _ ⟨by simp, by simp⟩)

theorem evidence_candidates : (evidence cycle requests).candidates =
    (eligible cycle).zipIdx.filterMap (candidateOf (times cycle)) := by
  have hrows : ∀ (entries : List (CostRow × Nat)) (e : Evidence),
      (entries.foldl (Evidence.addRow (times cycle)) e).candidates =
        e.candidates ++ entries.filterMap (candidateOf (times cycle)) := by
    intro entries
    induction entries with
    | nil => simp
    | cons entry entries ih =>
      intro e
      rw [foldl_cons, ih, addRow_candidates, append_assoc]
      cases hc : candidateOf (times cycle) entry <;> simp [hc]
  have hrequests : ∀ (requests : List Window) (e : Evidence),
      (requests.foldl (Evidence.addRequest (times cycle) (knownIds cycle)) e).candidates =
        e.candidates := by
    intro requests
    induction requests with
    | nil => exact fun e => rfl
    | cons request requests ih =>
      intro e
      rw [foldl_cons, ih, addRequest_candidates]
  have h := hrequests requests ((eligible cycle).zipIdx.foldl (Evidence.addRow (times cycle)) {})
  rw [hrows] at h
  exact h.trans (nil_append _)

/-! ## accepted calls -/

variable {cycle requests}

/-- A call is within a span of observed ends. -/
structure Fits (times : List ℚ) (row : CostRow) (span : Span) : Prop where
  lt : span.1 < span.2
  le : span.2 < times.length
  before : times.getD span.1 0 < row.ts
  start : (requestStart row).all (times.getD span.1 0 ≤ ·) = true
  after : row.ts ≤ times.getD span.2 0

theorem getElem?_times (ts : List ℚ) {i : Nat} (hi : i < ts.length) :
    ts[i]? = some (ts.getD i 0) := by
  rw [getD_eq_getElem?_getD, List.getElem?_eq_getElem hi, Option.getD_some]

theorem getD_mono {ts : List ℚ} (hsorted : ts.Pairwise (· ≤ ·)) {i j : Nat} (hij : i ≤ j)
    (hj : j < ts.length) : ts.getD i 0 ≤ ts.getD j 0 := by
  rcases Nat.eq_or_lt_of_le hij with rfl | hlt
  · exact le_rfl
  · have h := pairwise_iff_getElem.mp hsorted i j (by omega) hj hlt
    have hi := getElem?_times ts (i := i) (by omega)
    have hj' := getElem?_times ts hj
    rw [List.getElem?_eq_getElem (by omega)] at hi
    rw [List.getElem?_eq_getElem hj] at hj'
    rwa [← Option.some.inj hi, ← Option.some.inj hj']

theorem fits_of_own {ts : List ℚ} (hsorted : ts.Pairwise (· ≤ ·)) {row : CostRow} {own : Span}
    (h : ownSpan ts row = some own) {stop : Nat} (hlo : own.1 < stop) (hhi : stop < ts.length)
    (hafter : bisectLeft ts row.ts ≤ stop) : Fits ts row (own.1, stop) := by
  obtain ⟨hlt, hle⟩ := bounds_lt h
  obtain ⟨hstart, horder, hpost, -⟩ := bounds_row h
  have hbefore : ts.getD own.1 0 < (requestStart row).getD row.ts :=
    lt_of_lt_bisectLeft (by omega) (getElem?_times ts (by omega))
  refine ⟨hlo, hhi, hbefore.trans_le horder, ?_, ?_⟩
  · cases hvalue : requestStart row with
    | none => rfl
    | some start =>
      rw [hvalue] at hbefore
      simpa using hbefore.le
  · exact (le_of_bisectLeft (getElem?_times ts hpost)).trans (getD_mono hsorted hafter hhi)

theorem accepted_spec (hsorted : (times cycle).Pairwise (· ≤ ·)) {a : Span × Nat}
    (ha : a ∈ accepted cycle requests) :
    ∃ row, (eligible cycle)[a.2]? = some row ∧ isAccepted (times cycle) row = true ∧
      Fits (times cycle) row a.1 ∧
      ∃ span ∈ (evidence cycle requests).allRanges, span.1 = a.1.1 ∧ a.1.2 ≤ span.2 := by
  unfold accepted at ha
  obtain ⟨c, hc, rfl⟩ := List.mem_map.mp ha
  have hmem := (evidence_valid cycle requests).candidates c hc
  rw [evidence_candidates] at hc
  obtain ⟨⟨row, index⟩, hentry, hcandidate⟩ := mem_filterMap.mp hc
  have hrow : (eligible cycle)[index]? = some row := mem_zipIdx_iff_getElem?.mp hentry
  unfold candidateOf at hcandidate
  split_ifs at hcandidate with hcost
  obtain ⟨own, hown, rfl⟩ := Option.map_eq_some_iff.mp hcandidate
  have haccepted : isAccepted (times cycle) row = true := by
    simp only [isAccepted, hown, Option.isSome_some, Bool.and_true]
    exact hcost
  obtain ⟨hlt, hle⟩ := bounds_lt hown
  obtain ⟨-, -, -, hpost⟩ := bounds_row hown
  dsimp only at hmem ⊢
  rw [hrow]
  refine ⟨row, hrow, haccepted, ?_⟩
  dsimp only
  unfold shortened
  dsimp only
  split_ifs with hblocked hshorter
  · exact ⟨fits_of_own hsorted hown hshorter.1 (hshorter.2.1.trans hle) le_rfl,
      own, hmem, rfl, hshorter.2.1.le⟩
  · exact ⟨fits_of_own hsorted hown hlt hle hpost, own, hmem, rfl, le_rfl⟩
  · exact ⟨fits_of_own hsorted hown hlt hle hpost, own, hmem, rfl, le_rfl⟩

theorem mem_included (requests : List Window) {index : Nat} :
    index ∈ (accepted cycle requests).map Prod.snd ↔
    ∃ row, (eligible cycle)[index]? = some row ∧ isAccepted (times cycle) row = true := by
  have hsnd : (accepted cycle requests).map Prod.snd =
      (evidence cycle requests).candidates.map Prod.snd := by
    unfold accepted
    rw [List.map_map]
    refine map_congr_left fun c _ => ?_
    dsimp only [Function.comp]
    split <;> rfl
  rw [hsnd, evidence_candidates]
  simp only [List.mem_map, mem_filterMap, isAccepted, Bool.and_eq_true]
  constructor
  · rintro ⟨c, ⟨⟨row, i⟩, hentry, hcandidate⟩, rfl⟩
    unfold candidateOf at hcandidate
    split_ifs at hcandidate with hcost
    obtain ⟨own, hown, rfl⟩ := Option.map_eq_some_iff.mp hcandidate
    exact ⟨row, mem_zipIdx_iff_getElem?.mp hentry, hcost, by simp [hown]⟩
  · rintro ⟨row, hrow, hcost, hown⟩
    obtain ⟨own, hown⟩ := Option.isSome_iff_exists.mp hown
    refine ⟨(own, index), ⟨(row, index), mem_zipIdx_iff_getElem?.mpr hrow, ?_⟩, rfl⟩
    simp [candidateOf, hcost, hown]

def started (row : CostRow) : CostRow := { row with requestStart := requestStart row }

def acceptedRows (cycle : Cycle) : List CostRow :=
  ((eligible cycle).filter (isAccepted (times cycle))).map started

theorem selected_eq : selected cycle requests = acceptedRows cycle := by
  unfold selected acceptedRows
  dsimp only
  have hfilter : ((eligible cycle).zipIdx.filter fun entry =>
      entry.2 ∈ (accepted cycle requests).map Prod.snd) =
      (eligible cycle).zipIdx.filter fun entry => isAccepted (times cycle) entry.1 := by
    refine filter_congr fun entry hentry => ?_
    have hrow := mem_zipIdx_iff_getElem?.mp hentry
    rw [Bool.eq_iff_iff, decide_eq_true_eq, mem_included, hrow]
    simp
  have hfst : ((eligible cycle).zipIdx.filter fun entry =>
      isAccepted (times cycle) entry.1).map Prod.fst =
        (eligible cycle).filter (isAccepted (times cycle)) := by
    conv_rhs => rw [← zipIdx_map_fst 0 (eligible cycle), filter_map]
    rfl
  rw [hfilter, ← hfst, List.map_map]
  rfl

end Cycle

end Codexon.RequestIntervals
