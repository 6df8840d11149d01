import Codexon.QuotaSeries.Sampled

/-!
# Codexon.QuotaSeries.Agreement

Both implementations prepare the same series.
-/

namespace Codexon.QuotaSeries

open List

/-! ## the columns -/

section Columns

variable {c : Columns} {pairs : List (Row × Option ℚ)}

theorem addPython_costMinimum (previous : Option Row) (index : Nat) (row : Row)
    (completed : Option ℚ) (m : Option ℚ) :
    ({ c with costMinimum := m }).addPython previous index row completed =
      { c.addPython previous index row completed with costMinimum := m } := by
  cases previous with
  | none => rfl
  | some previous =>
    cases hconnect : row.connect <;>
      simp [Columns.addPython, Columns.elapse, Columns.miss, hconnect]

theorem columnsPython_costMinimum (previous : Option Row) (index : Nat)
    (pairs : List (Row × Option ℚ)) (m : Option ℚ) :
    columnsPython previous index pairs { c with costMinimum := m } =
      { columnsPython previous index pairs c with costMinimum := m } := by
  induction pairs generalizing previous index c with
  | nil => rfl
  | cons pair pairs ih =>
    rw [columnsPython, addPython_costMinimum, ih]
    rfl

theorem addNative_eq {previous : Option Row} {parsed : Option Parsed}
    (h : parsed.map Parsed.at_ = previous.map fun row => row.at_.value) (index : Nat) (row : Row)
    (completed : Option ℚ) :
    c.addNative parsed index (prepareRow true previous row) completed =
      { c.addPython previous index row completed with
        costMinimum := (row.cycleCost.map Num.value).elim c.costMinimum
          (minimum c.costMinimum) } := by
  cases previous with
  | none =>
    cases parsed with
    | none => rfl
    | some parsed => simp at h
  | some previous =>
    cases parsed with
    | none => simp at h
    | some parsed =>
      have hat : parsed.at_ = previous.at_.value := by simpa using h
      cases hconnect : row.connect <;>
        simp [Columns.addNative, Columns.addPython, Columns.elapse, Columns.miss, prepareRow,
          Row.boundary, hconnect, hat, max_comm]

def leastCost (m : Option ℚ) (pairs : List (Row × Option ℚ)) : Option ℚ :=
  pairs.foldl (fun m pair => (pair.1.cycleCost.map Num.value).elim m (minimum m)) m

theorem columnsNative_eq {previous : Option Row} {parsed : Option Parsed}
    (h : parsed.map Parsed.at_ = previous.map fun row => row.at_.value) (index : Nat)
    (pairs : List (Row × Option ℚ)) :
    columnsNative parsed index
        ((prepare true previous (pairs.map Prod.fst)).zip (pairs.map Prod.snd)) c =
      { columnsPython previous index pairs c with
        costMinimum := leastCost c.costMinimum pairs } := by
  induction pairs generalizing previous parsed index c with
  | nil => rfl
  | cons pair pairs ih =>
    have hparsed : (some (prepareRow true previous pair.1)).map Parsed.at_ =
        (some pair.1).map fun row => row.at_.value := rfl
    have hrest := ih (c := c.addNative parsed index (prepareRow true previous pair.1) pair.2)
      hparsed (index + 1)
    rw [map_cons, prepare, map_cons, zip_cons_cons, columnsNative, hrest,
      addNative_eq h, columnsPython_costMinimum]
    rfl

theorem leastCost_eq (m : Option ℚ) (pairs : List (Row × Option ℚ)) : leastCost m pairs =
      (m.toList ++ pairs.filterMap fun pair => pair.1.cycleCost.map Num.value).min? := by
  induction pairs generalizing m with
  | nil => cases m <;> simp [leastCost]
  | cons pair pairs ih =>
    have hcons : leastCost m (pair :: pairs) =
        leastCost ((pair.1.cycleCost.map Num.value).elim m (minimum m)) pairs := rfl
    rw [hcons, ih]
    cases hcost : pair.1.cycleCost with
    | none => simp [hcost]
    | some cost =>
      cases m with
      | none => simp [hcost, minimum]
      | some m =>
        have hmin : ∀ o : Option ℚ, o.elim (min m cost.value) (min (min m cost.value)) =
            min m (o.elim cost.value (min cost.value)) := by
          rintro (_ | x) <;> simp [min_assoc]
        simp [hcost, minimum, hmin]

theorem activeTimes_columnsPython (previous : Option Row) (index : Nat)
    (pairs : List (Row × Option ℚ)) (c : Columns) :
    (columnsPython previous index pairs c).activeTimes.length =
      c.activeTimes.length + pairs.length := by
  induction pairs generalizing previous index c with
  | nil => rfl
  | cons pair pairs ih =>
    rw [columnsPython, ih]
    have hadd : (c.addPython previous index pair.1 pair.2).activeTimes.length =
        c.activeTimes.length + 1 := by
      cases previous with
      | none => simp [Columns.addPython, Columns.miss]
      | some previous =>
        cases hconnect : pair.1.connect <;>
          simp [Columns.addPython, Columns.miss, Columns.elapse, hconnect]
    rw [hadd, length_cons]
    omega

theorem gapIndices_columnsPython (previous : Option Row) (index : Nat)
    (pairs : List (Row × Option ℚ)) (c : Columns) :
    (columnsPython previous index pairs c).gapIndices = c.gapIndices ++
      ((pairs.zipIdx index).filter fun entry =>
        (previous.isSome || index < entry.2) && !entry.1.1.connect).map Prod.snd := by
  induction pairs generalizing previous index c with
  | nil => simp [columnsPython]
  | cons pair pairs ih =>
    have hadd : (c.addPython previous index pair.1 pair.2).gapIndices =
        c.gapIndices ++ if previous.isSome && !pair.1.connect then [index] else [] := by
      cases previous with
      | none => simp [Columns.addPython, Columns.miss]
      | some previous =>
        cases hconnect : pair.1.connect <;>
          simp [Columns.addPython, Columns.miss, Columns.elapse, hconnect]
    have hrest : (pairs.zipIdx (index + 1)).filter (fun entry =>
        (previous.isSome || index < entry.2) && !entry.1.1.connect) =
        (pairs.zipIdx (index + 1)).filter fun entry => !entry.1.1.connect := by
      refine filter_congr fun entry hentry => ?_
      have hlt := (le_snd_of_mem_zipIdx hentry)
      simp [show index < entry.2 by omega]
    rw [columnsPython, ih, hadd, append_assoc, zipIdx_cons, filter_cons, hrest]
    simp only [Option.isSome_some, Bool.true_or, Bool.true_and, lt_irrefl, decide_false,
      Bool.or_false]
    cases previous <;> cases hconnect : pair.1.connect <;> simp

end Columns

/-! ## any rows -/

def Ready (rows : List Row) (s : Scan) : Prop :=
  s.valid = true → ∃ row, rows[s.start]? = some row ∧ known row.cost = true

section Total

variable {rows : List Row} {index : Nat} {s : Scan} {row : Row}

theorem ready_restart (hrow : rows[index]? = some row) (amounts : List (Option ℚ)) {valid : Bool}
    (hvalid : valid = true → known row.cost = true) :
    Ready rows { amounts := amounts, start := index, valid := valid } :=
  fun hv => ⟨row, hrow, hvalid hv⟩

theorem percentStep_ok (h : Ready rows s) (hrow : rows[index]? = some row) :
    ∃ s', percentStep rows (before rows index) index row s = .ok s' ∧ Ready rows s' ∧
      s'.amounts.length = s.amounts.length := by
  unfold percentStep
  dsimp only
  by_cases hexcluded : row.userExcluded = true
  · rw [if_pos hexcluded]
    exact ⟨_, rfl, ready_restart hrow _ fun hv => by simp_all, rfl⟩
  · rw [if_neg hexcluded]
    by_cases hboundary : row.boundary (before rows index) = true
    · rw [if_pos hboundary]
      refine ⟨_, rfl, ready_restart hrow _ fun hv => ?_, rfl⟩
      simp only [Bool.and_eq_true] at hv
      exact hv.1.2
    · rw [if_neg hboundary]
      cases hprevious : before rows index with
      | none => simp [hprevious, Row.boundary] at hboundary
      | some previous =>
        dsimp only
        split_ifs with hgap hchanged hpriced
        · exact ⟨_, rfl, (fun hv => by cases hv), rfl⟩
        · simp only [Bool.and_eq_true, decide_eq_true_eq] at hpriced
          obtain ⟨⟨⟨⟨⟨hvalid, hknown⟩, -⟩, -⟩, -⟩, -⟩ := hpriced
          obtain ⟨opening, hopening, hcost⟩ := h hvalid
          obtain ⟨last, hlast⟩ := exists_of_known hknown
          obtain ⟨first, hfirst⟩ := exists_of_known hcost
          have hitem : item rows s.start = .ok opening := by simp [item, hopening]
          have hdifference : difference row.cost opening.cost = .ok (max 0 (last - first)) := by
            rw [hlast, hfirst]
            rfl
          simp only [hitem, hdifference, bind, Except.bind, pure, Except.pure]
          exact ⟨_, rfl, ready_restart hrow _ fun hv => by simp_all, length_fill _ _ _ _⟩
        · exact ⟨_, rfl, ready_restart hrow _ fun hv => by simp_all, rfl⟩
        · exact ⟨_, rfl, fun hv => h (by simp_all), rfl⟩

theorem percentLoop_ok {rest : List Row} (h : Ready rows s) (hrest : rows.drop index = rest) :
    ∃ s', percentLoop rows (before rows index) index rest s = .ok s' ∧
      s'.amounts.length = s.amounts.length := by
  induction rest generalizing index s with
  | nil => exact ⟨s, rfl, rfl⟩
  | cons row rest ih =>
    have hrow : rows[index]? = some row := by
      rw [← head?_drop, hrest]
      rfl
    have hnext : rows.drop (index + 1) = rest := by
      rw [← tail_drop, hrest]
      rfl
    obtain ⟨s', hstep, hready, hlength⟩ := percentStep_ok h hrow
    obtain ⟨t, hloop, ht⟩ := ih hready hnext
    have hbefore : before rows (index + 1) = some row := hrow
    rw [hbefore] at hloop
    refine ⟨t, ?_, ht.trans hlength⟩
    rw [percentLoop, hstep]
    exact hloop

theorem percents_ok (rows : List Row) :
    ∃ amounts, completedPercentCostsPython rows = .ok amounts ∧ amounts.length = rows.length := by
  have hready : Ready rows { amounts := List.replicate rows.length none } := fun hv => nomatch hv
  have hrest : rows.drop 0 = rows := rfl
  obtain ⟨s, hloop, hlength⟩ := percentLoop_ok hready hrest
  refine ⟨s.amounts, ?_, by simpa using hlength⟩
  have hpython : percentLoop rows none 0 rows { amounts := List.replicate rows.length none } =
      .ok s := hloop
  unfold completedPercentCostsPython
  rw [hpython]
  rfl

end Total

theorem prepare_kept (series : Bool) (previous : Option Row) (rows : List Row) :
    prepare series (previous.map fun row => { row with userExcluded := false })
        (rows.map fun row => { row with userExcluded := false }) =
      prepare series previous rows := by
  induction rows generalizing previous with
  | nil => rfl
  | cons row rest ih =>
    have hrest := ih (some row)
    rw [map_cons, prepare, prepare]
    refine congrArg₂ _ ?_ hrest
    cases previous <;> rfl

theorem calculateCompleted_ok (series : Bool) (rows : List Row) :
    ∃ amounts, calculateCompleted (prepare series none rows) = .ok amounts ∧
      amounts.length = rows.length := by
  obtain ⟨s, -, hnative, hs⟩ := percents_spec series
    (rows.map fun row => { row with userExcluded := false }) (by simp)
  have hkept := prepare_kept series none rows
  rw [Option.map_none] at hkept
  rw [hkept] at hnative
  exact ⟨s.amounts, hnative, by simpa using hs.length⟩

/-! ## completed costs -/

def shown (rows : List Row) : List (Option (Option ℚ)) :=
  rows.map fun row => row.completedCost.map (·.map Num.value)

theorem completedPython_eq (rows : List Row) (amounts : List (Option ℚ)) :
    completedPython rows amounts =
      (shown rows).zipWith (fun completed amount => completed.getD amount) amounts := by
  rw [shown, zipWith_map_left]
  rfl

theorem map_prepare {β : Type} {f : Parsed → β} {g : Row → β} (series : Bool)
    (h : ∀ previous row, f (prepareRow series previous row) = g row) (previous : Option Row)
    (rows : List Row) : (prepare series previous rows).map f = rows.map g := by
  induction rows generalizing previous with
  | nil => rfl
  | cons row rest ih => rw [prepare, map_cons, map_cons, ih, h]

theorem zipWith_getD {cs : List (Option (Option ℚ))} (h : ∀ c ∈ cs, c.isSome = true)
    {amounts : List (Option ℚ)} (hlength : amounts.length = cs.length) :
    cs.zipWith (fun c amount => c.getD amount) amounts = cs.map (·.getD none) := by
  induction cs generalizing amounts with
  | nil => rfl
  | cons c cs ih =>
    cases amounts with
    | nil => simp at hlength
    | cons amount amounts =>
      obtain ⟨x, rfl⟩ := Option.isSome_iff_exists.mp (h c (by simp))
      have hsame : amounts.length = cs.length := by simpa using hlength
      have hrest := ih (fun c hc => h c (by simp [hc])) hsame
      simp [hrest]

theorem completedNative_eq {rows : List Row} {amounts : List (Option ℚ)}
    (h : calculateCompleted (prepare true none rows) = .ok amounts)
    (hlength : amounts.length = rows.length) :
    completedNative (prepare true none rows) = .ok (completedPython rows amounts) := by
  have hshown : (prepare true none rows).map Parsed.completed = shown rows :=
    map_prepare true (fun _ _ => rfl) none rows
  have hzip : ∀ completed : List (Option ℚ), (prepare true none rows).zipWith
      (fun row amount => row.completed.getD amount) completed =
        (shown rows).zipWith (fun completed amount => completed.getD amount) completed := by
    intro completed
    rw [← hshown, zipWith_map_left]
  unfold completedNative
  by_cases hall : (prepare true none rows).all (·.completed.isSome) = true
  · have hsome : ∀ c ∈ shown rows, c.isSome = true := by
      rw [← hshown]
      simpa using hall
    have hmap : ((prepare true none rows).map fun row => row.completed.getD none) =
        (shown rows).map (·.getD none) := by
      rw [← hshown, List.map_map]
      rfl
    rw [if_pos hall, hmap]
    simp only [bind, Except.bind, pure, Except.pure]
    rw [hzip, completedPython_eq, zipWith_getD hsome (by simp), zipWith_getD hsome
      (by simpa [shown] using hlength)]
  · rw [if_neg hall, h, completedPython_eq, ← hzip]
    rfl

/-! ## the series -/

section Series

variable (rows : List Row) (completed : List (Option ℚ))

def columnsOf : Columns :=
  { columnsPython none 0 (rows.zip completed) {} with
    costMinimum := (rows.filterMap fun row => row.cycleCost.map Num.value).min? }

variable {rows completed} (hlength : completed.length = rows.length)

include hlength

theorem fst_zip : (rows.zip completed).map Prod.fst = rows := map_fst_zip hlength.ge

theorem columnsNative_zip : columnsNative none 0 ((prepare true none rows).zip completed) {} =
      columnsOf rows completed := by
  have hsnd : (rows.zip completed).map Prod.snd = completed := map_snd_zip hlength.le
  have hnone : (none : Option Parsed).map Parsed.at_ =
      (none : Option Row).map fun row => row.at_.value := rfl
  have h := columnsNative_eq (c := {}) hnone 0 (rows.zip completed)
  rw [fst_zip hlength, hsnd] at h
  have hcost : (rows.zip completed).filterMap (fun pair => pair.1.cycleCost.map Num.value) =
      rows.filterMap fun row => row.cycleCost.map Num.value := by
    conv_rhs => rw [← fst_zip hlength]
    rw [filterMap_map]
    rfl
  rw [h, leastCost_eq, hcost]
  rfl

theorem activeTimes_columnsOf : (columnsOf rows completed).activeTimes.length = rows.length := by
  have h := activeTimes_columnsPython none 0 (rows.zip completed) {}
  have hzip : (rows.zip completed).length = rows.length := by simp [hlength]
  rw [hzip] at h
  simpa [columnsOf] using h

theorem breaks_columnsOf : Breaks rows (columnsOf rows completed).gapIndices := by
  have h : (columnsOf rows completed).gapIndices = ((rows.zip completed).zipIdx.filter fun entry =>
      decide (0 < entry.2) && !entry.1.1.connect).map Prod.snd := by
    have hgaps := gapIndices_columnsPython none 0 (rows.zip completed) {}
    simpa [columnsOf] using hgaps
  rw [h]
  constructor
  · have hindices : ((rows.zip completed).zipIdx.map Prod.snd).Pairwise (· < ·) := by
      rw [zipIdx_map_snd, ← range_eq_range']
      exact pairwise_lt_range
    exact pairwise_map.mpr ((pairwise_map.mp hindices).filter _)
  · intro i
    simp only [List.mem_map, List.mem_filter, Bool.and_eq_true, decide_eq_true_eq,
      Bool.not_eq_true']
    constructor
    · rintro ⟨⟨pair, j⟩, ⟨hmem, hpos, hconnect⟩, rfl⟩
      have hget := (List.getElem?_zip_eq_some.mp (mem_zipIdx_iff_getElem?.mp hmem)).1
      exact ⟨hpos, pair.1, hget, hconnect⟩
    · rintro ⟨hpos, row, hrow, hconnect⟩
      have hi := (List.getElem?_eq_some_iff.mp hrow).1
      have hvalue : completed[i]? = some completed[i] := List.getElem?_eq_getElem (by omega)
      exact ⟨((row, completed[i]), i), ⟨mem_zipIdx_iff_getElem?.mpr
        (List.getElem?_zip_eq_some.mpr ⟨hrow, hvalue⟩), hpos, hconnect⟩, rfl⟩

theorem value_zip : valueAt ((prepare true none rows).zip completed) =
    valuePython (rows.zip completed) := by
  funext i field
  unfold valueAt valuePython
  have hzip : ((prepare true none rows).zip completed)[i]? =
      ((rows.zip completed)[i]?).map fun pair =>
        (prepareRow true (before rows i) pair.1, pair.2) := by
    by_cases hi : i < rows.length
    · have hrow : rows[i]? = some rows[i] := List.getElem?_eq_getElem hi
      have hvalue : completed[i]? = some completed[i] := List.getElem?_eq_getElem (by omega)
      have hparsed : (prepare true none rows)[i]? =
          some (prepareRow true (before rows i) rows[i]) := by
        rw [getElem?_prepare, hrow]
        rfl
      have hpair : (rows.zip completed)[i]? = some (rows[i], completed[i]) :=
        List.getElem?_zip_eq_some.mpr ⟨hrow, hvalue⟩
      rw [hpair]
      exact List.getElem?_zip_eq_some.mpr ⟨hparsed, hvalue⟩
    · rw [List.getElem?_eq_none (by simpa [hlength] using not_lt.mp hi),
        List.getElem?_eq_none (by simpa [hlength] using not_lt.mp hi)]
      rfl
  rw [hzip]
  cases (rows.zip completed)[i]? with
  | none => rfl
  | some pair => cases field <;> rfl

omit hlength in
theorem resetAt_prepare (i : Nat) :
    (∃ row, (prepare true none rows)[i]? = some row ∧ row.reset = true) ↔ ResetAt rows i := by
  unfold ResetAt
  rw [getElem?_prepare]
  cases rows[i]? with
  | none => simp
  | some row => simp [prepareRow]

/-- **A sample.** -/
theorem sample_faithful {budget : Nat} (hbudget : 0 < budget) :
    ∃ sample, samplePython (rows.zip completed) (columnsOf rows completed) budget = .ok sample ∧
      sampleNative ((prepare true none rows).zip completed) (columnsOf rows completed) budget =
        .ok sample ∧
      Faithful rows completed (columnsOf rows completed).gapIndices budget sample := by
  have htimes := activeTimes_columnsOf hlength
  have hgaps := breaks_columnsOf hlength
  have hprepared : (prepare true none rows).length = rows.length := length_prepare true none rows
  by_cases hmany : rows.length ≤ budget * 2
  · refine ⟨List.range rows.length, ?_, ?_, range_faithful hgaps⟩
    · simp [samplePython, hlength, hmany]
    · simp [sampleNative, hlength, hprepared, hmany]
  · obtain ⟨selected, hpython, hselected⟩ := samplePython_spec hlength htimes hmany
    obtain ⟨other, hnative, hother⟩ := sampleNative_spec hlength hprepared resetAt_prepare
      (value_zip hlength) hbudget htimes hmany
    have heq : other = selected := Finset.ext fun i => (hother i).trans (hselected i).symm
    rw [heq] at hnative
    exact ⟨_, hpython, hnative, chosen_faithful hgaps hselected⟩

end Series

/-- A series whose samples do not lie. -/
structure Sampled (rows : List Row) (series : Series) : Prop where
  completed : series.completedCosts.length = rows.length
  breaks : Breaks rows series.columns.gapIndices
  budgets : series.samples.map Prod.fst = budgets
  faithful : ∀ entry ∈ series.samples,
    Faithful rows series.completedCosts series.columns.gapIndices entry.1 entry.2

theorem exists_series {rows : List Row} {completed : List (Option ℚ)}
    (hlength : completed.length = rows.length) :
    ∃ series, series.completedCosts = completed ∧ Sampled rows series ∧
      (∀ native calculated, completedPercentCosts native rows = .ok calculated →
        completedPython rows calculated = completed →
          prepareSeriesPython native rows = .ok series) ∧
      (completedNative (prepare true none rows) = .ok completed →
        calculate (prepare true none rows) = .ok series) := by
  have hbudgets : 0 < 256 ∧ 0 < 768 := by decide
  obtain ⟨small, hsmall, hsmallNative, hsmallKeeps⟩ := sample_faithful hlength hbudgets.1
  obtain ⟨large, hlarge, hlargeNative, hlargeKeeps⟩ := sample_faithful hlength hbudgets.2
  let series : Series := {
    columns := columnsOf rows completed
    samples := [(256, small), (768, large)]
    completedMinimum := (completed.filterMap id).min?
    completedMaximum := (completed.filterMap id).max?.getD 0
    completedCosts := completed }
  have hsamePython : ∀ budget, samplePython (rows.zip completed)
      (columnsPython none 0 (rows.zip completed) {}) budget =
        samplePython (rows.zip completed) (columnsOf rows completed) budget := fun _ => rfl
  refine ⟨series, rfl, ⟨hlength, breaks_columnsOf hlength, rfl, ?_⟩, ?_, ?_⟩
  · intro entry hentry
    simp only [series, mem_cons, not_mem_nil, or_false] at hentry
    rcases hentry with rfl | rfl
    · exact hsmallKeeps
    · exact hlargeKeeps
  · intro native calculated hcalculated hcompleted
    unfold prepareSeriesPython
    simp only [hcalculated, bind, Except.bind, hcompleted, budgets, mapM_cons, mapM_nil,
      hsamePython, hsmall, hlarge, Except.mapError, Except.map, pure, Except.pure]
    rfl
  · intro hcompleted
    unfold calculate
    simp only [hcompleted, bind, Except.bind, columnsNative_zip hlength, budgets, mapM_cons,
      mapM_nil, hsmallNative, hlargeNative, Except.map, pure, Except.pure]
    rfl

theorem completedPython_congr {rows : List Row} {amounts other : List (Option ℚ)}
    (hpython : completedPercentCostsPython rows = .ok amounts)
    (hnative : calculateCompleted (prepare true none rows) = .ok other)
    (hamounts : amounts.length = rows.length) (hother : other.length = rows.length)
    (h : (∀ row ∈ rows, row.userExcluded = false) ∨ ∀ row ∈ rows, row.completedCost.isSome = true) :
    completedPython rows amounts = completedPython rows other := by
  rcases h with hkept | hshown
  · obtain ⟨s, hs, hs', -⟩ := percents_spec true rows hkept
    have heq : amounts = other :=
      (Except.ok.inj (hpython.symm.trans hs)).trans (Except.ok.inj (hs'.symm.trans hnative))
    rw [heq]
  · have hsome : ∀ c ∈ shown rows, c.isSome = true := by
      simpa [shown] using hshown
    rw [completedPython_eq, completedPython_eq,
      zipWith_getD hsome (by simpa [shown] using hamounts),
      zipWith_getD hsome (by simpa [shown] using hother)]

/-- **Chart preparation.** Both series do not lie, and they are equal unless the extension computes
a cost that an exclusion changes. -/
theorem series_faithful (rows : List Row) :
    ∃ series nativeSeries, (∀ native, prepareSeriesPython native rows = .ok series) ∧
      quotaSeries rows = (if integers true rows ≤ largestExact then .ok nativeSeries
        else .error .overflowError) ∧
      Sampled rows series ∧ Sampled rows nativeSeries ∧
      ((∀ row ∈ rows, row.userExcluded = false) ∨
          (∀ row ∈ rows, row.completedCost.isSome = true) → nativeSeries = series) := by
  obtain ⟨amounts, hpython, hamounts⟩ := percents_ok rows
  obtain ⟨other, hnative, hother⟩ := calculateCompleted_ok true rows
  have hlength : ∀ amounts : List (Option ℚ), amounts.length = rows.length →
      (completedPython rows amounts).length = rows.length := fun amounts h => by
    simp [completedPython, h]
  obtain ⟨series, -, hsampled, hprepared, hsame⟩ := exists_series (hlength amounts hamounts)
  obtain ⟨nativeSeries, -, hnativeSampled, -, hcalculated⟩ := exists_series (hlength other hother)
  have hcompleted := completedNative_eq hnative hother
  refine ⟨series, nativeSeries, fun native => ?_, ?_, hsampled, hnativeSampled, fun h => ?_⟩
  · refine hprepared native amounts (completedPercentCosts_eq hpython (fun hnone => ?_) native) rfl
    obtain ⟨s, hs, hs', -⟩ := percents_spec false rows (by simpa using hnone)
    rw [Except.ok.inj (hpython.symm.trans hs)]
    exact hs'
  · unfold quotaSeries
    rw [parseRows_eq]
    split_ifs
    · exact hcalculated hcompleted
    · rfl
  · rw [← completedPython_congr hpython hnative hamounts hother h] at hcompleted
    exact Except.ok.inj ((hcalculated (completedNative_eq hnative hother)).symm.trans
      (hsame hcompleted))

/-- A row that the user excluded breaks a plateau, and the extension does not know. -/
theorem series_excluded : ¬∀ rows series, quotaSeries rows = .ok series →
      prepareSeriesPython false rows = .ok series := by
  intro h
  let rows : List Row := [
    { remaining := { value := 100 }, cycleCost := some { value := 0 }, connect := false },
    { remaining := { value := 100 }, cycleCost := some { value := 1 }, connect := true,
      userExcluded := true },
    { remaining := { value := 99 }, cycleCost := some { value := 3 }, connect := true }]
  have hnative : (quotaSeries rows).map Series.completedCosts = .ok [some 3, some 3, none] := by
    decide +kernel
  have hpython : (prepareSeriesPython false rows).toOption.map Series.completedCosts =
      some [none, none, none] := by
    decide +kernel
  cases hseries : quotaSeries rows with
  | error e =>
    rw [hseries] at hnative
    cases hnative
  | ok series =>
    rw [hseries] at hnative
    rw [h rows series hseries] at hpython
    have heq : [some 3, some 3, none] = [none, none, (none : Option ℚ)] :=
      (Except.ok.inj hnative).symm.trans (Option.some.inj hpython)
    cases heq

end Codexon.QuotaSeries
