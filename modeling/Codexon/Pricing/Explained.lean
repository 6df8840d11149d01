import Codexon.Pricing
import Mathlib.Data.List.Sigma

/-!
# Codexon.Pricing.Explained

A call has a price, or the reasons why it has none; and what a price is made of.
-/

namespace Codexon.Pricing

/-! ## tables -/

section Lookup

variable {α β γ δ : Type} [BEq α] [LawfulBEq α]

theorem lookup_cons_ne {a k : α} (h : a ≠ k) (v : β) (l : List (α × β)) :
    ((k, v) :: l).lookup a = l.lookup a := by
  have hne : (a == k) = false := by simpa using h
  simp [List.lookup_cons, hne]

theorem lookup_filterMap (g : α → Option γ) (f : β → γ → δ) (l : List (α × β)) (a : α) :
    (l.filterMap fun e => (g e.1).map fun c => (e.1, f e.2 c)).lookup a =
      (l.lookup a).bind fun b => (g a).map (f b) := by
  induction l with
  | nil => rfl
  | cons e l ih =>
    obtain ⟨k, v⟩ := e
    by_cases hk : a = k
    · subst hk
      cases hg : g a <;> simp [hg, ih]
    · cases hg : g k <;> simp [hg, lookup_cons_ne hk, ih]

end Lookup

theorem lookup_fastRates (model : PyStr) :
    fastRates.lookup model = (subscriptionFastMultipliers.lookup model).bind fun multiplier =>
      (rates.lookup model).map fun rate => rate.times multiplier :=
  lookup_filterMap (fun key => rates.lookup key) (fun multiplier rate => Rate.times rate multiplier)
    _ _

theorem Value.lookup_eq_some {β : Type} {v : Value} {d : List (PyStr × β)} {b : β}
    (h : v.lookup d = some b) : ∃ text, v = .str text ∧ d.lookup text = some b := by
  cases v with
  | str text => exact ⟨text, rfl, h⟩
  | _ => contradiction

/-! ## rates -/

theorem standard_ne_fast : standard ≠ fast := by decide

theorem lookup_fast (model : Value) :
    model.lookup fastRates = (model.lookup subscriptionFastMultipliers).bind fun multiplier =>
      (model.lookup rates).map fun rate => rate.times multiplier := by
  cases model with
  | str text => exact lookup_fastRates text
  | _ => rfl

variable {row : Row}

theorem requestRate_standard (h : requestTier row = standard) :
    requestRate row = standardRate row.model := by
  rw [requestRate, h, if_neg standard_ne_fast, subscriptionMultiplier]
  cases standardRate row.model with
  | none => simp
  | some rate => simp

theorem requestRate_fast (h : requestTier row = fast) :
    requestRate row = (subscriptionMultiplier row.model fast).bind fun multiplier =>
      (standardRate row.model).map fun rate => rate.times multiplier := by
  rw [requestRate, h, if_pos rfl]
  cases hmultiplier : subscriptionMultiplier row.model fast with
  | none => simp
  | some multiplier =>
    rw [if_neg (by simp), Option.bind_some, lookup_fast, standardRate]
    rw [subscriptionMultiplier, if_neg (by simp [standard_ne_fast.symm])] at hmultiplier
    split at hmultiplier
    · contradiction
    · rw [hmultiplier, Option.bind_some]

/-! ## the issues -/

theorem rateIssues_tier (hfast : requestTier row ≠ fast)
    (hstandard : requestTier row ≠ standard) : rateIssues row ≠ [] := by
  by_cases hunknown : requestTier row = unknown <;> simp [rateIssues, hunknown, hfast, hstandard]

theorem rateIssues_rate (hrate : requestRate row = none) : rateIssues row ≠ [] := by
  cases hmodel : (aliased row.model).lookup rates with
  | none =>
    cases htruthy : (aliased row.model).truthy <;> simp [rateIssues, hmodel, htruthy]
  | some rate =>
    by_cases hunknown : requestTier row = unknown
    · simp [rateIssues, hunknown]
    · by_cases hmode : requestTier row ≠ standard ∧ requestTier row ≠ fast
      · simp [rateIssues, hunknown, hmode]
      · simp [rateIssues, hunknown, hmode, hmodel, hrate]

/-- The counts of a call that has a price. -/
structure Counted (row : Row) (rate : Rate) (input cached output : Nat) (written : Option Nat) :
    Prop where
  hasInput : row.input.token = some input
  hasOutput : row.output.token = some output
  hasCached : row.cached.token = some cached
  cached_le : cached ≤ input
  cached_rate : cached = 0 ∨ rate.cached ≠ none
  hasWritten : row.written = .none ∧ written = none ∧ rate.written = none ∨
    row.written.token = written ∧ written ≠ none
  written_le : ∀ n ∈ written, n ≤ input - cached
  conflict : row.inputConflict.truthy = false

theorem token_eq_some {v : Value} {n : Nat} (h : v.token = some n) : v = .int n := by
  cases v with
  | int m =>
    cases m with
    | ofNat k => simpa [Value.token] using h
    | negSucc k => contradiction
  | _ => contradiction

theorem py_eq_nil {s : String} : py s = [] ↔ s = "" := by simp [py]

theorem ratedCosts_spec {rate : Rate} (hrate : requestRate row = some rate) :
    ((ratedCosts row rate).1.cost = none ∧ (ratedCosts row rate).2 ≠ [] ∧ tokenIssues row ≠ []) ∨
      ∃ input cached output written, Counted row rate input cached output written ∧
        ratedCosts row rate =
          (allCosts rate input cached written (outputCosts rate output row.reasoning), []) := by
  cases hinput : row.input.token with
  | none => exact .inl (by simp [ratedCosts, tokenIssues, hinput, py_eq_nil])
  | some input =>
  cases houtput : row.output.token with
  | none => exact .inl (by simp [ratedCosts, tokenIssues, hinput, houtput, py_eq_nil])
  | some output =>
  cases hcached : row.cached.token with
  | none => exact .inl (by simp [ratedCosts, tokenIssues, hinput, houtput, hcached, py_eq_nil])
  | some cached =>
  -- the branches of `_token_cost`, in their order
  have hcosts : ratedCosts row rate =
      if input < cached then ({}, py "캐시 읽기 미확인")
      else if cached ≠ 0 ∧ rate.cached = none then ({}, py "캐시 요율 미확인")
      else if row.written ≠ .none ∧ row.written.token.filter (· ≤ input - cached) = none then
        ({}, py "캐시 쓰기 미확인/범위 오류")
      else if row.inputConflict.truthy then
        (outputCosts rate output row.reasoning, py "입력 구성 관측 충돌")
      else if row.written = .none ∧ rate.written ≠ none then ({}, py "캐시 쓰기 미확인")
      else (allCosts rate input cached (row.written.token.filter (· ≤ input - cached))
        (outputCosts rate output row.reasoning), []) := by
    by_cases hle : cached ≤ input
    · have hkept : (some cached).filter (· ≤ input) = some cached := by simp [Option.filter, hle]
      simp [ratedCosts, hinput, houtput, hcached, hkept, Nat.not_lt.mpr hle]
    · have hnone : (some cached).filter (· ≤ input) = none := by simp [Option.filter, hle]
      simp [ratedCosts, hinput, houtput, hcached, hnone, Nat.lt_of_not_le hle]
  rw [hcosts]
  split_ifs with hle hread hrange hconflict hwritten
  · exact .inl (by simp [tokenIssues, hinput, hcached, hle, py_eq_nil])
  · have htruthy : row.cached.truthy = true := by
      rw [token_eq_some hcached]
      simpa [Value.truthy] using hread.1
    exact .inl (by simp [tokenIssues, hrate, htruthy, hread.2, py_eq_nil])
  · refine .inl ⟨rfl, by simp [py_eq_nil], ?_⟩
    cases htoken : row.written.token with
    | none => simp [tokenIssues, hrange.1, htoken]
    | some n =>
      have hlt : (input : Int) - cached < n := by
        have hn : ¬ n ≤ input - cached := by simpa [htoken] using hrange.2
        omega
      simp [tokenIssues, hinput, hcached, hrange.1, htoken, hlt]
  · exact .inl (by simp [outputCosts, tokenIssues, hconflict, py_eq_nil])
  · have hsome : rate.written.isSome = true := Option.isSome_iff_ne_none.mpr hwritten.2
    exact .inl (by simp [tokenIssues, hrate, hwritten.1, hsome, py_eq_nil])
  · refine .inr ⟨input, cached, output, _, ⟨hinput, houtput, hcached, Nat.not_lt.mp hle, ?_, ?_, ?_,
      by simpa using hconflict⟩, rfl⟩
    · rcases not_and_or.mp hread with hzero | hprice
      · exact .inl (not_not.mp hzero)
      · exact .inr hprice
    · by_cases hnone : row.written = .none
      · refine .inl ⟨hnone, by simp [hnone, Value.token], ?_⟩
        exact not_not.mp fun hprice => hwritten ⟨hnone, hprice⟩
      · have hfilter := fun h => hrange ⟨hnone, h⟩
        obtain ⟨n, hn⟩ := Option.ne_none_iff_exists'.mp hfilter
        refine .inr ⟨?_, hfilter⟩
        rw [hn, (Option.filter_eq_some_iff.mp hn).1]
    · intro n hn
      simpa using (Option.filter_eq_some_iff.mp hn).2

/-! ## the price -/

/-- No rate is negative. -/
structure Rate.Nonneg (rate : Rate) : Prop where
  input : 0 ≤ rate.input
  cached : 0 ≤ rate.cached.getD 0
  output : 0 ≤ rate.output
  written : 0 ≤ rate.written.getD rate.input

instance (rate : Rate) : Decidable rate.Nonneg :=
  decidable_of_iff (0 ≤ rate.input ∧ 0 ≤ rate.cached.getD 0 ∧ 0 ≤ rate.output ∧
      0 ≤ rate.written.getD rate.input)
    ⟨fun ⟨a, b, c, d⟩ => ⟨a, b, c, d⟩, fun ⟨a, b, c, d⟩ => ⟨a, b, c, d⟩⟩

theorem lookup_forall {β : Type} {p : β → Prop} {d : List (PyStr × β)} (h : ∀ e ∈ d, p e.2)
    {v : Value} {b : β} (hv : v.lookup d = some b) : p b := by
  obtain ⟨text, -, hlookup⟩ := Value.lookup_eq_some hv
  obtain ⟨before, after, rfl, -⟩ := List.lookup_eq_some_iff.mp hlookup
  exact h (text, b) (by simp)

theorem requestRate_nonneg {rate : Rate} (h : requestRate row = some rate) : rate.Nonneg := by
  have hrates : ∀ e ∈ rates, e.2.Nonneg := by decide +kernel
  have hfast : ∀ e ∈ fastRates, e.2.Nonneg := by decide +kernel
  rw [requestRate] at h
  split_ifs at h
  · exact lookup_forall hfast h
  · exact lookup_forall hrates h

theorem amount_nonneg {count rate : ℚ} (hcount : 0 ≤ count) (hrate : 0 ≤ rate) :
    0 ≤ amount count rate := by
  unfold amount
  positivity

/-- A price is the sum of its components, none of them negative. -/
def Costs.Summed (costs : Costs) : Prop :=
  ∀ cost, costs.cost = some cost → ∃ uncached cached written unclassified output,
    costs.uncached = some uncached ∧ costs.cached = some cached ∧ costs.written = some written ∧
    costs.unclassified = some unclassified ∧ costs.output = some output ∧
    0 ≤ uncached ∧ 0 ≤ cached ∧ 0 ≤ written ∧ 0 ≤ unclassified ∧ 0 ≤ output ∧
    cost = uncached + cached + written + unclassified + output

theorem allCosts_summed {rate : Rate} (hrate : rate.Nonneg) {input cached : Nat}
    {written : Option Nat} {output : Nat} (reasoning : Value) (hcached : cached ≤ input)
    (hwritten : ∀ n ∈ written, n ≤ input - cached) :
    (allCosts rate input cached written (outputCosts rate output reasoning)).Summed := by
  intro cost hcost
  have hrest : (0 : ℚ) ≤ input - cached := by simpa using hcached
  refine ⟨_, _, _, _, _, rfl, rfl, rfl, rfl, rfl, ?_, ?_, ?_, ?_, ?_, ?_⟩
  · cases written with
    | none => exact le_refl 0
    | some n =>
      have hn : (n : ℚ) ≤ input - cached := by
        have hle := hwritten n rfl
        rw [← Nat.cast_sub hcached]
        exact Nat.cast_le.mpr hle
      exact amount_nonneg (by linarith) hrate.input
  · exact amount_nonneg (Nat.cast_nonneg _) hrate.cached
  · exact amount_nonneg (Nat.cast_nonneg _) hrate.written
  · cases written with
    | none => exact amount_nonneg hrest hrate.input
    | some n => exact le_refl 0
  · exact amount_nonneg (Nat.cast_nonneg _) hrate.output
  · simp only [allCosts, outputCosts, Option.map_some, Option.some.injEq] at hcost
    exact hcost.symm

/-- The parts of the output are known together, and are all of it. -/
def Costs.Split (costs : Costs) : Prop :=
  (costs.reasoning.isSome ↔ costs.nonReasoning.isSome) ∧
    ∀ reasoning nonReasoning, costs.reasoning = some reasoning →
      costs.nonReasoning = some nonReasoning →
        costs.output = some (reasoning + nonReasoning)

theorem outputCosts_split (rate : Rate) (output : Nat) (reasoning : Value) :
    (outputCosts rate output reasoning).Split := by
  unfold Costs.Split outputCosts
  refine ⟨by simp, fun r n hr hn => ?_⟩
  cases hknown : reasoning.token.filter (· ≤ output) with
  | none => simp [hknown] at hr
  | some count =>
    simp only [hknown, Option.map_some, Option.some.injEq] at hr hn
    simp only [← hr, ← hn, amount, Option.some.injEq]
    ring

theorem ratedCosts_split (row : Row) (rate : Rate) : (ratedCosts row rate).1.Split := by
  have hnone : Costs.Split {} := by simp [Costs.Split]
  unfold ratedCosts
  split
  · rename_i input output hinput houtput
    split
    · exact hnone
    · dsimp only
      split_ifs
      · exact hnone
      · exact hnone
      · exact outputCosts_split ..
      · exact hnone
      · exact outputCosts_split rate output row.reasoning
  · exact hnone

/-- What is said about a call: its price, or why it has none. -/
structure Explained (row : Row) (result : Result) : Prop where
  priced : result.cost.isSome ↔ result.priceIssues = []
  noIssue : result.cost.isSome ↔ result.priceIssue = []
  /-- The checks name what is missing, and `price_issue` is not needed. -/
  found : result.cost = none → issues row ≠ [] ∧ result.priceIssues = issues row
  summed : result.Summed
  split : result.Split
  /-- The reasoning of a call with a price is known when its count is one. -/
  reasoning : result.cost.isSome → ∀ n, row.reasoning.token = some n →
    (∃ output, row.output.token = some output ∧ n ≤ output) → result.reasoning.isSome

theorem innerCost_spec (row : Row) :
    ((innerCost row).cost = none ∧ (innerCost row).priceIssue ≠ [] ∧ issues row ≠ []) ∨
      ∃ rate input cached output written, requestRate row = some rate ∧
        Counted row rate input cached output written ∧ (innerCost row).toCosts =
          allCosts rate input cached written (outputCosts rate output row.reasoning) ∧
        (innerCost row).priceIssue = [] := by
  by_cases hmode : requestTier row ≠ fast ∧ requestTier row ≠ standard
  · refine .inl ⟨by simp [innerCost, hmode], ?_, ?_⟩
    · rw [innerCost, if_pos hmode]
      by_cases hunknown : requestTier row = unknown <;> simp [hunknown, py_eq_nil]
    · simp [issues, rateIssues_tier hmode.1 hmode.2]
  · cases hrate : requestRate row with
    | none =>
      refine .inl ⟨by simp [innerCost, hmode, hrate], ?_, by simp [issues, rateIssues_rate hrate]⟩
      cases hmodel : (aliased row.model).lookup rates <;>
        simp [innerCost, hmode, hrate, hmodel, py_eq_nil]
    | some rate =>
      have hinner : (innerCost row).toCosts = (ratedCosts row rate).1 ∧
          (innerCost row).priceIssue = (ratedCosts row rate).2 := by
        simp [innerCost, hmode, hrate]
      rw [hinner.1, hinner.2]
      rcases ratedCosts_spec hrate with
        ⟨hcost, hissue, htokens⟩ | ⟨input, cached, output, written, hcounts, heq⟩
      · exact .inl ⟨hcost, hissue, by simp [issues, htokens]⟩
      · exact .inr ⟨rate, input, cached, output, written, rfl, hcounts, by rw [heq], by rw [heq]⟩

theorem innerCost_split (row : Row) : (innerCost row).Split := by
  have hnone : Costs.Split {} := by simp [Costs.Split]
  by_cases hmode : requestTier row ≠ fast ∧ requestTier row ≠ standard
  · rw [innerCost, if_pos hmode]
    exact hnone
  · rw [innerCost, if_neg hmode]
    cases requestRate row with
    | none => exact hnone
    | some rate => exact ratedCosts_split row rate

theorem innerCost_explained (row : Row) :
    Explained row { innerCost row with
      priceIssues := if (innerCost row).cost = none then
        if issues row = [] then [(innerCost row).priceIssue] else issues row else [] } := by
  rcases innerCost_spec row with
    ⟨hcost, hissue, hfound⟩ | ⟨rate, input, cached, output, written, hrate, hcounts, hcosts, hissue⟩
  · exact {
      priced := by simp [hcost, hfound]
      noIssue := by simp [hcost, hissue]
      found := fun _ => ⟨hfound, by simp [hcost, hfound]⟩
      summed := fun cost h => by simp [hcost] at h
      split := innerCost_split row
      reasoning := fun h => by simp [hcost] at h }
  · have hsome : (innerCost row).cost.isSome = true := by
      rw [hcosts]
      rfl
    have hne : (innerCost row).cost ≠ none := Option.isSome_iff_ne_none.mp hsome
    refine {
      priced := by simp [hsome, hne]
      noIssue := by simp [hsome, hissue]
      found := fun h => absurd h hne
      summed := ?_
      split := innerCost_split row
      reasoning := ?_ }
    · change (innerCost row).toCosts.Summed
      rw [hcosts]
      exact allCosts_summed (requestRate_nonneg hrate) row.reasoning hcounts.cached_le
        hcounts.written_le
    · intro _ n hn ⟨total, htotal, hle⟩
      have hout : total = output := Option.some.inj (htotal.symm.trans hcounts.hasOutput)
      change (innerCost row).toCosts.reasoning.isSome = true
      rw [hcosts]
      simp [allCosts, outputCosts, hn, Option.filter, ← hout, hle]

/-! ## Fast and Standard -/

/-- Two calls of one model with the same counts. -/
structure SameCounts (row row' : Row) : Prop where
  model : row.model = row'.model
  input : row.input = row'.input
  cached : row.cached = row'.cached
  written : row.written = row'.written
  output : row.output = row'.output
  inputConflict : row.inputConflict = row'.inputConflict

section Times

variable (rate : Rate) (multiplier : ℚ)

@[simp]
theorem times_input : (rate.times multiplier).input = rate.input * multiplier := rfl

@[simp]
theorem times_output : (rate.times multiplier).output = rate.output * multiplier := rfl

theorem times_cached : (rate.times multiplier).cached.getD 0 = rate.cached.getD 0 * multiplier := by
  cases hcached : rate.cached <;> simp [Rate.times, hcached]

theorem times_written : (rate.times multiplier).written.getD (rate.input * multiplier) =
    rate.written.getD rate.input * multiplier := by
  cases hwritten : rate.written <;> simp [Rate.times, hwritten]

end Times

theorem ratedCosts_times {row' : Row} (h : SameCounts row row') (rate : Rate)
    (multiplier : ℚ) : (ratedCosts row (rate.times multiplier)).1.cost =
      (ratedCosts row' rate).1.cost.map (· * multiplier) := by
  unfold ratedCosts
  rw [h.input, h.cached, h.written, h.output, h.inputConflict]
  cases row'.input.token with
  | none => simp
  | some input =>
  cases row'.output.token with
  | none => simp
  | some output =>
  cases hread : row'.cached.token.filter (· ≤ input) with
  | none => simp [hread]
  | some cached =>
    have hcachedRate : (rate.times multiplier).cached = none ↔ rate.cached = none := by
      simp [Rate.times]
    have hwrittenRate : (rate.times multiplier).written = none ↔ rate.written = none := by
      simp [Rate.times]
    simp only [hread, hcachedRate, ne_eq, hwrittenRate]
    split_ifs
    · rfl
    · rfl
    · rfl
    · rfl
    · cases row'.written.token.filter (· ≤ input - cached) <;>
        simp [allCosts, outputCosts, times_cached, times_written, amount] <;> ring

theorem innerCost_rated (h : requestTier row = fast ∨ requestTier row = standard) :
    (innerCost row).cost = (requestRate row).bind fun rate => (ratedCosts row rate).1.cost := by
  have hmode : ¬(requestTier row ≠ fast ∧ requestTier row ≠ standard) := by
    rintro ⟨hfast, hstandard⟩
    exact h.elim hfast hstandard
  cases hrate : requestRate row <;> simp [innerCost, hmode, hrate]

theorem innerCost_fast {row' : Row} (h : SameCounts row row')
    (hfast : requestTier row = fast) (hstandard : requestTier row' = standard) :
    (innerCost row).cost = (subscriptionMultiplier row.model fast).bind fun multiplier =>
      (innerCost row').cost.map (· * multiplier) := by
  rw [innerCost_rated (.inl hfast), innerCost_rated (.inr hstandard), requestRate_fast hfast,
    requestRate_standard hstandard, ← h.model]
  cases subscriptionMultiplier row.model fast with
  | none => rfl
  | some multiplier =>
    cases standardRate row.model with
    | none => rfl
    | some rate => exact ratedCosts_times h rate multiplier

/-! ## every call -/

/-- What `token_cost` looks up is a key. -/
def Keyable (row : Row) : Prop :=
  row.model.hashable = true ∧ (row.modeConflict.truthy = true ∨
    row.serviceTierSource = .str (py "conflict") ∨ row.serviceTier.hashable = true)

theorem tokenCost_keyable (h : Keyable row) :
    tokenCost row = .ok { innerCost row with
      priceIssues := if (innerCost row).cost = none then
        if issues row = [] then [(innerCost row).priceIssue] else issues row else [] } := by
  obtain ⟨hmodel, htier⟩ := h
  have hcond : (!row.model.hashable || (!(row.modeConflict.truthy ||
      decide (row.serviceTierSource = .str (py "conflict"))) && !row.serviceTier.hashable)) =
        false := by
    rcases htier with h | h | h <;> simp [hmodel, h]
  rw [tokenCost, hcond, if_neg Bool.false_ne_true]

theorem tokenCost_not_keyable (h : ¬Keyable row) : tokenCost row = .error .typeError := by
  unfold Keyable at h
  unfold tokenCost
  grind

/-- A call that can be looked up is priced or explained; and Fast is Standard times the multiplier,
and has no price where there is no multiplier. -/
theorem priced_or_explained :
    (∀ row, Keyable row → ∃ result, tokenCost row = .ok result ∧ Explained row result) ∧
    (∀ row, ¬Keyable row → tokenCost row = .error .typeError) ∧
    ∀ row row' result result', SameCounts row row' → requestTier row = fast →
      requestTier row' = standard → tokenCost row = .ok result → tokenCost row' = .ok result' →
        result.cost = (subscriptionMultiplier row.model fast).bind fun multiplier =>
          result'.cost.map (· * multiplier) := by
  refine ⟨fun row h => ⟨_, tokenCost_keyable h, innerCost_explained row⟩,
    fun row h => tokenCost_not_keyable h, ?_⟩
  intro row row' result result' h hfast hstandard hresult hresult'
  have hcost : ∀ {row : Row} {result : Result}, tokenCost row = .ok result →
      result.cost = (innerCost row).cost := by
    intro row result hresult
    by_cases hkey : Keyable row
    · rw [tokenCost_keyable hkey, Except.ok.injEq] at hresult
      rw [← hresult]
    · rw [tokenCost_not_keyable hkey] at hresult
      contradiction
  rw [hcost hresult, hcost hresult', innerCost_fast h hfast hstandard]

/-- A call whose model is a list. -/
theorem unhashable_not_explained :
    ¬∀ row, ∃ result, tokenCost row = .ok result ∧ Explained row result := by
  intro h
  obtain ⟨result, hresult, -⟩ := h { model := .other true false }
  simp [tokenCost, Value.hashable] at hresult

end Codexon.Pricing
