import Codexon.PackedRows.History
import Codexon.QuotaPeriods

/-!
# Codexon.QuotaPeriods.Resume

From the checkpoint of a period on, the rows are those of the run that was not interrupted.
-/

namespace Codexon.QuotaPeriods

open List

open PackedRows Keyed

variable {δ : Type} {enc : Encoding Record δ} {report : Report} {mode : Window}
variable {bs : List (List Record)} {q : ℚ → Bool}

/-! ## candidates -/

theorem time_baselineRecord {c : Edit} {r : Record} (h : r ∈ c.baselineRecord) :
    r.time = c.stop := by
  obtain ⟨b, -, rfl⟩ := Option.map_eq_some_iff.mp h
  rfl

theorem select_baselines (clears : List Edit) :
    select Record.time q (clears.filterMap Edit.baselineRecord) =
      (clears.filter fun c => q c.stop).filterMap Edit.baselineRecord := by
  induction clears with
  | nil => rfl
  | cons c clears ih =>
    cases hbaseline : c.baselineRecord with
    | none =>
      rw [filterMap_cons_none hbaseline, ih]
      by_cases hq : q c.stop <;> simp [hq, hbaseline]
    | some r =>
      have htime : r.time = c.stop := time_baselineRecord hbaseline
      rw [filterMap_cons_some hbaseline, select_cons, ih, htime]
      by_cases hq : q c.stop <;> simp [hq, hbaseline]

theorem select_filter (p : Record → Bool) (rs : List Record) :
    select Record.time q (rs.filter p) = (select Record.time q rs).filter p := by
  simp only [select, filter_filter, Bool.and_comm]

variable {account : Option PyStr} {clears : List Edit} {history baselines : List Record}

theorem sorted_gather (h : Keyed.Sorted Record.time history) :
    Keyed.Sorted Record.time (gather account clears history baselines) := by
  rw [gather]
  split
  · exact h
  · exact sorted_merge (h.filter _) (sorted_sort _)

theorem select_gather (h : Keyed.Sorted Record.time history) :
    select Record.time q (gather account clears history baselines) =
      gather account clears (select Record.time q history) (select Record.time q baselines) := by
  rw [gather, gather]
  split
  · rfl
  · rw [select_merge (h.filter _) (sorted_sort _), select_sort, select_filter]

section

variable (h : History enc reader report.history bs) (henc : enc.Faithful)

include h henc

theorem iter_eq :
    report.history.iter enc = bs.flatten := by
  rw [Packed.iter, h.blocks, flatMap_map]
  simp only [henc.decode_encode, flatMap_id']

theorem sorted_records :
    Keyed.Sorted Record.time (report.records enc mode none) := by
  simp only [Report.records, iter_eq h henc]
  exact sorted_gather h.sorted

theorem records_from (t : ℚ) :
    report.records enc mode (some t) =
      select Record.time (t ≤ ·) (report.records enc mode none) := by
  simp only [Report.records, iter_eq h henc, h.iterFrom_eq henc]
  have hall : ((report.clears mode).filter fun c => (none : Option ℚ).all (· ≤ c.stop)) =
      report.clears mode := by simp
  rw [select_gather h.sorted, select_baselines, hall]
  rfl

theorem sorted_candidates :
    Keyed.Sorted Record.time (report.candidates enc mode none) :=
  (sorted_records h henc).filter _

theorem candidates_from (t : ℚ) :
    report.candidates enc mode (some t) =
      select Record.time (t ≤ ·) (report.candidates enc mode none) := by
  rw [Report.candidates, records_from h henc, Report.candidates, select_filter]

end

/-! ## preferred records -/

variable {rs : List Record}

variable {best : Option Record}

theorem mem_preferred {r : Record} (h : r ∈ preferred best rs) : r ∈ best.toList ++ rs := by
  induction rs generalizing best with
  | nil => simpa [preferred] using h
  | cons r' rs ih =>
    cases best with
    | none => simpa using ih h
    | some b =>
      rw [preferred] at h
      split at h
      · have := ih h
        split at this <;> simp at this ⊢ <;> tauto
      · rcases mem_cons.mp h with rfl | h
        · simp
        · have := ih h
          simp at this ⊢
          tauto

theorem preferred_of_ne {b : Record} (h : ∀ r ∈ rs, r.time ≠ b.time) :
    preferred (some b) rs = b :: preferred none rs := by
  cases rs with
  | nil => rfl
  | cons r rs => rw [preferred, preferred]; simp [h r (by simp)]

theorem select_preferred (h : Keyed.Sorted Record.time (best.toList ++ rs)) :
    select Record.time q (preferred best rs) =
      preferred (best.filter fun b => q b.time) (select Record.time q rs) := by
  induction rs generalizing best with
  | nil =>
    cases best with
    | none => rfl
    | some b => by_cases hb : q b.time <;> simp [preferred, select, hb, Option.filter]
  | cons r rs ih =>
    cases best with
    | none =>
      have ih : select Record.time q (preferred (some r) rs) = _ := ih h
      rw [preferred, select_cons, ih]
      by_cases hr : q r.time <;> simp [preferred, hr, Option.filter]
    | some b =>
      have hsorted : Keyed.Sorted Record.time (b :: r :: rs) := h
      have hle : b.time ≤ r.time := rel_of_pairwise_cons hsorted (by simp)
      rw [preferred, select_cons]
      split
      next htime =>
        -- one of the two is kept, and their times are the same
        generalize hkept : (if sourceRank b ≤ sourceRank r then r else b) = kept
        have hkept : kept.time = b.time := by
          rw [← hkept]
          split
          · exact htime
          · rfl
        have hsorted' : Keyed.Sorted Record.time (kept :: rs) := by
          refine pairwise_cons.mpr ⟨fun x hx => ?_, hsorted.of_cons.of_cons⟩
          rw [hkept]
          exact rel_of_pairwise_cons hsorted (by simp [hx])
        have ih : select Record.time q (preferred (some kept) rs) = _ := ih hsorted'
        rw [ih]
        by_cases hb : q b.time
        · simp_all [preferred, Option.filter]
        · simp_all [Option.filter]
      next htime =>
        have ih : select Record.time q (preferred (some r) rs) = _ := ih hsorted.of_cons
        have hlt : ∀ x ∈ select Record.time q rs, x.time ≠ b.time := fun x hx heq => by
          have := rel_of_pairwise_cons hsorted.of_cons (mem_of_mem_filter hx)
          exact htime (le_antisymm (heq ▸ this) hle)
        rw [select_cons, ih]
        by_cases hb : q b.time <;> by_cases hr : q r.time <;>
          simp [hb, hr, Option.filter, preferred, preferred_of_ne hlt, htime]

theorem pairwise_preferred (h : Keyed.Sorted Record.time (best.toList ++ rs)) :
    (preferred best rs).Pairwise fun a b => a.time < b.time := by
  induction rs generalizing best with
  | nil => cases best <;> simp [preferred]
  | cons r rs ih =>
    cases best with
    | none => exact ih h
    | some b =>
      have hsorted : Keyed.Sorted Record.time (b :: r :: rs) := h
      have hle : ∀ x ∈ r :: rs, b.time ≤ x.time := fun x hx =>
        rel_of_pairwise_cons hsorted hx
      rw [preferred]
      split
      next htime =>
        refine ih ?_
        split
        · exact hsorted.of_cons
        · exact hsorted.sublist (by simp)
      next htime =>
        refine pairwise_cons.mpr ⟨fun x hx => ?_, ih hsorted.of_cons⟩
        have hr : b.time < r.time := lt_of_le_of_ne (hle r (by simp)) fun h => htime h.symm
        rcases mem_cons.mp (mem_preferred hx) with rfl | hx
        · exact hr
        · exact hr.trans_le (rel_of_pairwise_cons hsorted.of_cons hx)

/-! ## the loop -/

variable {plan : Plan} {s s' : State} {value : Option Checkpoint} {y : Yield} {i : Nat}

theorem record_classify (s : State) (mode : Window) (interrupted : Bool) (r : Record)
    (used : PyNum) : (s.classify mode interrupted r used).1.record = r := rfl

theorem record_of_step {r : Record} {row : Row} (h : s.step plan r = .yield row s') :
    row.record = r := by
  simp only [State.step] at h
  generalize s.control plan.controls r.time = c at h
  split at h
  · simp at h
  next used _ =>
    have hrecord := record_classify c.2 plan.mode c.1 r used
    generalize c.2.classify plan.mode c.1 r used = classified at h hrecord
    split at h
    · simp at h
    · split at h
      · simp at h
      · split at h
        · rw [← (Outcome.yield.inj h).1, hrecord]
        · split at h
          · simp at h
          · split at h <;> rw [← (Outcome.yield.inj h).1, hrecord]

/-- Where a row comes from: the loop had gone on to its record. -/
structure Reached (plan : Plan) (value : Option Checkpoint) (rs : List Record) (ys : List Yield)
    (i : Nat) (y : Yield) (value' : Option Checkpoint) (s : State) (before after : List Record) :
    Prop where
  split : rs = before ++ y.row.record :: after
  drop : ys.drop i = rowsFrom plan value' s (y.row.record :: after)
  step : ∃ s', s.step plan y.row.record = .yield y.row s'
  saved : y.value = if y.row.resetKind.isSome then (y.row.record.time, s)
    else value'.getD (y.row.record.time, s)
  first : i = 0 → value' = value

theorem exists_reached (h : (rowsFrom plan value s rs)[i]? = some y) : ∃ value' s' before after,
      Reached plan value rs (rowsFrom plan value s rs) i y value' s' before after := by
  induction rs generalizing value s i with
  | nil => simp [rowsFrom] at h
  | cons r rs ih =>
    rw [rowsFrom] at h ⊢
    split at h
    next s₁ hstep =>
      obtain ⟨value', s', before, after, hreached⟩ := ih h
      exact ⟨value', s', r :: before, after, by rw [hreached.split, cons_append],
        hreached.drop, hreached.step, hreached.saved, hreached.first⟩
    next row s₁ hstep =>
      cases i with
      | zero =>
        simp only [List.getElem?_cons_zero, Option.some.injEq] at h
        subst h
        have hrecord := record_of_step hstep
        refine ⟨value, s, [], rs, by simp [hrecord], ?_, ⟨s₁, by simp [hrecord, hstep]⟩,
          by simp [hrecord], fun _ => rfl⟩
        simp only [hrecord, drop_zero]
        rw [rowsFrom, hstep]
      | succ i =>
        obtain ⟨value', s', before, after, hreached⟩ := ih (by simpa using h)
        exact ⟨value', s', r :: before, after, by rw [hreached.split, cons_append],
          by simpa using hreached.drop, hreached.step, hreached.saved, by simp⟩
    next => simp at h

/-- **A run goes on from the checkpoint of a period.** -/
theorem rowsFrom_resume (h : (rowsFrom plan none s rs)[i]? = some y)
    (hstarts : i = 0 ∨ y.row.resetKind.isSome) :
    ∃ before after, rs = before ++ y.row.record :: after ∧ y.value.1 = y.row.record.time ∧
      rowsFrom plan none y.value.2 (y.row.record :: after) = (rowsFrom plan none s rs).drop i := by
  obtain ⟨value', s', before, after, hreached⟩ := exists_reached h
  have hvalue : y.value = (y.row.record.time, s') := by
    rcases hstarts with hi | hreset
    · simpa [hreached.first hi] using hreached.saved
    · simpa [hreset] using hreached.saved
  refine ⟨before, after, hreached.split, by rw [hvalue], ?_⟩
  obtain ⟨s₁, hstep⟩ := hreached.step
  have hsaved := hreached.saved
  rw [hreached.drop, hvalue, rowsFrom, rowsFrom, hstep]
  simp only [← hsaved, hvalue, Option.getD_none, ite_self]

/-! ## histories -/

variable {start stop : Option ℚ} {resume : Option Checkpoint}

section

variable (h : History enc reader report.history bs) (henc : enc.Faithful)

include h henc

theorem candidates_later {resumeAt : Option ℚ} {t : ℚ} (ht : ∀ t' ∈ resumeAt, t' ≤ t) :
    report.candidates enc mode (some t) =
      select Record.time (t ≤ ·) (report.candidates enc mode resumeAt) := by
  cases resumeAt with
  | none => exact candidates_from h henc t
  | some t' =>
    have hle : ∀ x : ℚ, (t ≤ x ∧ t' ≤ x) = (t ≤ x) := fun x =>
      propext ⟨And.left, fun hx => ⟨hx, (ht t' rfl).trans hx⟩⟩
    rw [candidates_from h henc, candidates_from h henc t']
    simp [select, filter_filter, ← Bool.decide_and, hle]

theorem sorted_candidates_from
    (resumeAt : Option ℚ) : Keyed.Sorted Record.time (report.candidates enc mode resumeAt) := by
  cases resumeAt with
  | none => exact sorted_candidates h henc
  | some t =>
    rw [candidates_from h henc]
    exact (sorted_candidates h henc).select

theorem le_of_mem_candidates
    {resumeAt : Option ℚ} {r : Record} (hr : r ∈ report.candidates enc mode resumeAt) :
    ∀ t ∈ resumeAt, t ≤ r.time := by
  rintro t rfl
  rw [candidates_from h henc] at hr
  simpa using (List.mem_filter.mp hr).2

end

theorem select_suffix {before after : List Record} {r : Record}
    (h : (before ++ r :: after).Pairwise fun a b => a.time < b.time) :
    select Record.time (r.time ≤ ·) (before ++ r :: after) = r :: after := by
  obtain ⟨-, hafter, hbetween⟩ := pairwise_append.mp h
  have hbefore : select Record.time (r.time ≤ ·) before = [] :=
    filter_eq_nil_iff.mpr fun x hx => by simpa using hbetween x hx r (by simp)
  have hrest : select Record.time (r.time ≤ ·) (r :: after) = r :: after :=
    filter_eq_self.mpr fun x hx => by
      rcases mem_cons.mp hx with rfl | hx
      · simp
      · simpa using (rel_of_pairwise_cons hafter hx).le
  rw [select_append, hbefore, hrest, nil_append]

/-- **Rows can be resumed at every period.** -/
theorem historyRows_resume (h : History enc reader report.history bs) (henc : enc.Faithful)
    (hy : (historyRows enc report mode start stop resume)[i]? = some y)
    (hstarts : i = 0 ∨ y.row.resetKind.isSome) :
    historyRows enc report mode start stop (some y.value) =
      (historyRows enc report mode start stop resume).drop i := by
  rw [historyRows] at hy ⊢
  obtain ⟨before, after, hsplit, htime, hrows⟩ := rowsFrom_resume hy hstarts
  have hsorted : Keyed.Sorted Record.time (report.candidates enc mode (resume.map Prod.fst)) :=
    sorted_candidates_from h henc _
  have hmem : y.row.record ∈ preferred none (report.candidates enc mode (resume.map Prod.fst)) := by
    simp [hsplit]
  have hcandidate := mem_preferred hmem
  have hcandidates : report.candidates enc mode (some y.row.record.time) =
      select Record.time (y.row.record.time ≤ ·)
        (report.candidates enc mode (resume.map Prod.fst)) :=
    candidates_later h henc (le_of_mem_candidates h henc (by simpa using hcandidate))
  rw [historyRows, ← hrows]
  simp only [Option.map_some, Option.getD_some, htime, hcandidates]
  have hpreferred : select Record.time (y.row.record.time ≤ ·) (preferred none _) =
      preferred none _ := select_preferred (by simpa using hsorted)
  rw [← hpreferred, hsplit, select_suffix]
  rw [← hsplit]
  exact pairwise_preferred (by simpa using hsorted)

end Codexon.QuotaPeriods
