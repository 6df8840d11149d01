import Codexon.Dict
import Codexon.Keyed
import Codexon.Native
import Mathlib.Data.Fintype.Basic

/-!
# Codexon.UsageGroups

Totals of usage rows, overall and for each model and effort: `summarize` and `group_usage` of
`core.py`, and of `usage.rs`, which counts in `u128` and gives up where that does not fit.
-/

namespace Codexon

namespace UsageGroups

/-- `METRICS` -/
inductive Metric where
  | input
  | cached
  | uncached
  | written
  | ordinaryInput
  | output
  | reasoning
  | nonReasoning
  | total
deriving DecidableEq

instance : Fintype Metric where
  elems := {.input, .cached, .uncached, .written, .ordinaryInput, .output, .reasoning,
    .nonReasoning, .total}
  complete metric := by cases metric <;> decide

def Metric.key : Metric → PyStr
  | input => py "input"
  | cached => py "cached"
  | uncached => py "uncached"
  | written => py "written"
  | ordinaryInput => py "ordinary_input"
  | output => py "output"
  | reasoning => py "reasoning"
  | nonReasoning => py "non_reasoning"
  | total => py "total"

/-- A mapping; `exact` is whether it is a plain `dict`. -/
structure Row where
  exact : Bool := true
  members : List (PyStr × Json) := []

def Row.get (row : Row) (key : PyStr) : Option Json := Json.lookup row.members key

/-- `미확인` -/
def unknown : PyStr := py "미확인"

structure Summary where
  count : Nat
  sums : Metric → Option Nat
  missing : Metric → Nat
  rate : Option PyFloat

structure Group where
  model : Json
  effort : Json
  summary : Summary

/-- `100 * cached / inputs`, which Python rounds once. -/
def rate (cached inputs : Nat) : Option PyFloat :=
  if inputs = 0 then none else some (PyFloat.roundDouble false ((100 * cached : Nat) / inputs))

/-! ## `core.py` -/

def tokenNumber : Option Json → Option Nat
  | some (.int (.ofNat n)) => some n
  | _ => none

def Row.value (row : Row) (metric : Metric) : Option Nat := tokenNumber (row.get metric.key)

def known (rows : List Row) (metric : Metric) : List Nat := rows.filterMap (·.value metric)

/-- The cached part of the input and the input, when both are known and in order. -/
def Row.portion (row : Row) : Option (Nat × Nat) :=
  match row.value .input, row.value .cached with
  | some input, some cached => if cached ≤ input then some (cached, input) else none
  | _, _ => none

def summarizePython (rows : List Row) : Summary where
  count := rows.length
  sums metric :=
    if known rows metric ≠ [] ∨ rows = [] then some (known rows metric).sum else none
  missing metric := rows.length - (known rows metric).length
  rate :=
    let portions := rows.filterMap Row.portion
    rate (portions.map (·.1)).sum (portions.map (·.2)).sum

/-- `value or "미확인"` -/
def labelPython (value : Option Json) : Json :=
  match value with
  | some value => value.orElse (.str unknown)
  | none => .str unknown

/-- How a dictionary tells keys apart: numbers by their value, and a list is no key. -/
def hashed : Json → Except PyError Json
  | .arr _ | .obj _ => .error .typeError
  | .bool b => .ok (.float (if b then 1 else 0))
  | .int n => .ok (.float (.finite n))
  | .float .negZero => .ok (.float 0)
  | value => .ok value

/-- The rows of each model and effort, which are written as they were first. -/
abbrev Groups := Dict (Json × Json) ((Json × Json) × List Row)

/-- `groups.setdefault(key, []).append(row)` -/
def groupRowPython (groups : Groups) (row : Row) : Except PyError Groups := do
  let model := labelPython (row.get (py "model"))
  let effort := labelPython (row.get (py "effort"))
  let key := (← hashed model, ← hashed effort)
  let group := (groups.get? key).getD ((model, effort), [])
  return groups.set key (group.1, group.2 ++ [row])

def groupUsagePython (rows : List Row) : Except PyError (List Group) := do
  let groups ← rows.foldlM groupRowPython {}
  let summaries := groups.entries.map fun e => Group.mk e.2.1.1 e.2.1.2 (summarizePython e.2.2)
  return Keyed.sort (fun group => OrderDual.toDual ((group.summary.sums .total).getD 0)) summaries

/-! ## `usage.rs` -/

/-- What does not fit in `u128`. -/
def limit : Nat := 2 ^ 128

/-- `Summary` of the extension. -/
@[ext]
structure Counter where
  count : Nat := 0
  sums : Metric → Nat := fun _ => 0
  known : Metric → Nat := fun _ => 0
  inputs : Nat := 0
  cached : Nat := 0

/-- `values`: none when a number does not fit. -/
def values (row : Row) : Option (Metric → Option Nat) :=
  if ∃ metric, (row.value metric).any (limit ≤ ·) then none else some row.value

/-- `Summary::add` -/
def Counter.add (counter : Counter) (values : Metric → Option Nat) : Option Counter :=
  if ∃ metric, (values metric).any (limit ≤ counter.sums metric + ·) then none
  else
    let added : Counter := { counter with
      count := counter.count + 1
      sums := fun metric => counter.sums metric + (values metric).getD 0
      known := fun metric => counter.known metric + if (values metric).isSome then 1 else 0 }
    match values .input, values .cached with
    | some input, some cached =>
      if cached ≤ input then
        if limit ≤ counter.inputs + input ∨ limit ≤ counter.cached + cached then none
        else some { added with
          inputs := counter.inputs + input
          cached := counter.cached + cached }
      else some added
    | _, _ => some added

def Counter.output (counter : Counter) : Option Summary :=
  if limit ≤ counter.cached * 100 then none
  else some {
    count := counter.count
    sums := fun metric =>
      if 0 < counter.known metric ∨ counter.count = 0 then some (counter.sums metric) else none
    missing := fun metric => counter.count - counter.known metric
    rate := rate counter.cached counter.inputs }

def countRow (counter : Counter) (row : Row) : Option Counter :=
  if row.exact then (values row).bind counter.add else none

def summarizeUsage (rows : List Row) : Option Summary :=
  (rows.foldlM countRow {}).bind Counter.output

def label (row : Row) (key : PyStr) : Native.Taken PyStr :=
  match row.get key with
  | none => .ok (some unknown)
  | some value =>
    if value.truthy = false then .ok (some unknown)
    else
      match value with
      | .str text =>
        match Native.extractText text with
        | .ok text => .ok (some text)
        | .error e => .error e
      | _ => .ok none

abbrev Counters := Dict (PyStr × PyStr) Counter

def groupRow (groups : Counters) (row : Row) : Native.Taken Counters :=
  if row.exact then
    match label row (py "model") with
    | .error e => .error e
    | .ok none => .ok none
    | .ok (some model) =>
      match label row (py "effort") with
      | .error e => .error e
      | .ok none => .ok none
      | .ok (some effort) =>
        let counter := (groups.get? (model, effort)).getD {}
        match (values row).bind counter.add with
        | none => .ok none
        | some counter => .ok (some (groups.set (model, effort) counter))
  else .ok none

def groupRows (groups : Counters) : List Row → Native.Taken Counters
  | [] => .ok (some groups)
  | row :: rows =>
    match groupRow groups row with
    | .error e => .error e
    | .ok none => .ok none
    | .ok (some groups) => groupRows groups rows

def groupOutput (e : (PyStr × PyStr) × Counter) : Option Group :=
  e.2.output.map fun summary => ⟨.str e.1.1, .str e.1.2, summary⟩

def groupUsageNative (rows : List Row) : Native.Taken (List Group) :=
  match groupRows ⟨[], nodup_nil_pairs⟩ rows with
  | .error e => .error e
  | .ok none => .ok none
  | .ok (some groups) =>
    .ok ((Keyed.sort (fun e => OrderDual.toDual (e.2.sums .total)) groups.entries).mapM groupOutput)

/-! ## with the extension -/

def summarize (rows : List Row) : Summary := (summarizeUsage rows).getD (summarizePython rows)

def groupUsage (rows : List Row) : Except PyError (List Group) :=
  match groupUsageNative rows with
  | .error e => .error e
  | .ok none => groupUsagePython rows
  | .ok (some groups) => .ok groups

end UsageGroups

/-!
## counters

The extension counts what Python sums, as long as everything fits, and groups the rows in the same
order.
-/

namespace UsageGroups

/-! ## counting -/

def counted (rows : List Row) : Counter where
  count := rows.length
  sums metric := (known rows metric).sum
  known metric := (known rows metric).length
  inputs := ((rows.filterMap Row.portion).map (·.2)).sum
  cached := ((rows.filterMap Row.portion).map (·.1)).sum

/-- All sums fit in `u128`. -/
structure Counter.Fits (counter : Counter) : Prop where
  sums : ∀ metric, counter.sums metric < limit
  inputs : counter.inputs < limit
  cached : counter.cached < limit

/-- All numbers of a row fit in `u128`. -/
def Row.Fits (row : Row) : Prop := ∀ metric, ∀ n ∈ row.value metric, n < limit

theorem limit_pos : 0 < limit := by decide +kernel

theorem counted_nil : (counted []).Fits := ⟨fun _ => limit_pos, limit_pos, limit_pos⟩

section Append

variable (rows : List Row) (row : Row) (metric : Metric)

@[simp]
theorem known_append : known (rows ++ [row]) metric =
    known rows metric ++ (row.value metric).toList := by
  cases h : row.value metric <;> simp [known, h]

@[simp]
theorem sums_append : (counted (rows ++ [row])).sums metric =
    (counted rows).sums metric + (row.value metric).getD 0 := by
  cases h : row.value metric <;> simp [counted, h]

theorem known_length_append : (counted (rows ++ [row])).known metric =
    (counted rows).known metric + if (row.value metric).isSome then 1 else 0 := by
  cases h : row.value metric <;> simp [counted, h]

theorem inputs_append : (counted (rows ++ [row])).inputs =
    (counted rows).inputs + (row.portion.map (·.2)).getD 0 := by
  cases h : row.portion <;> simp [counted, h]

theorem cached_append : (counted (rows ++ [row])).cached =
    (counted rows).cached + (row.portion.map (·.1)).getD 0 := by
  cases h : row.portion <;> simp [counted, h]

end Append

theorem values_of {row : Row} (h : row.Fits) : values row = some row.value := by
  have hnone : ¬∃ metric, (row.value metric).any (limit ≤ ·) := by
    rintro ⟨metric, hlimit⟩
    cases hvalue : row.value metric with
    | none => simp [hvalue] at hlimit
    | some n =>
      have hlt := h metric n hvalue
      have hle : limit ≤ n := by simpa [hvalue] using hlimit
      omega
  rw [values, if_neg hnone]

theorem values_of_not {row : Row} (h : ¬row.Fits) : values row = none := by
  have hsome : ∃ metric, (row.value metric).any (limit ≤ ·) := by
    simp only [Row.Fits, not_forall, not_lt] at h
    obtain ⟨metric, n, hn, hle⟩ := h
    exact ⟨metric, by simp [Option.mem_def.mp hn, hle]⟩
  rw [values, if_pos hsome]

section Add

variable {rows : List Row} {row : Row}

theorem add_of (h : (counted (rows ++ [row])).Fits) :
    (counted rows).add row.value = some (counted (rows ++ [row])) := by
  have hsums : ¬∃ metric, (row.value metric).any (limit ≤ (counted rows).sums metric + ·) := by
    rintro ⟨metric, hlimit⟩
    have hlt := h.sums metric
    rw [sums_append] at hlt
    cases hvalue : row.value metric with
    | none => simp [hvalue] at hlimit
    | some n =>
      have hle : limit ≤ (counted rows).sums metric + n := by simpa [hvalue] using hlimit
      rw [hvalue, Option.getD_some] at hlt
      omega
  have hcount : (counted (rows ++ [row])).count = (counted rows).count + 1 := by simp [counted]
  have hnew : ∀ inputs cached, inputs = (counted (rows ++ [row])).inputs →
      cached = (counted (rows ++ [row])).cached →
      ({ count := (counted rows).count + 1
         sums := fun metric => (counted rows).sums metric + (row.value metric).getD 0
         known := fun metric =>
           (counted rows).known metric + if (row.value metric).isSome then 1 else 0
         inputs := inputs
         cached := cached } : Counter) = counted (rows ++ [row]) := by
    intro inputs cached hinputs hcached
    rw [Counter.ext_iff]
    exact ⟨hcount.symm, funext fun metric => (sums_append rows row metric).symm,
      funext fun metric => (known_length_append rows row metric).symm, hinputs, hcached⟩
  have hinputs := inputs_append rows row
  have hcached := cached_append rows row
  rw [Counter.add, if_neg hsums]
  cases hi : row.value .input with
  | none =>
    have hportion : row.portion = none := by simp [Row.portion, hi]
    rw [hportion] at hinputs hcached
    exact congrArg some (hnew _ _ hinputs.symm hcached.symm)
  | some input =>
  cases hc : row.value .cached with
  | none =>
    have hportion : row.portion = none := by simp [Row.portion, hi, hc]
    rw [hportion] at hinputs hcached
    exact congrArg some (hnew _ _ hinputs.symm hcached.symm)
  | some cached =>
    dsimp only
    split_ifs with hle hover
    · have hportion : row.portion = some (cached, input) := by simp [Row.portion, hi, hc, hle]
      rw [hportion] at hinputs hcached
      have hi := h.inputs
      have hc := h.cached
      simp only [Option.map_some, Option.getD_some] at hinputs hcached
      omega
    · have hportion : row.portion = some (cached, input) := by simp [Row.portion, hi, hc, hle]
      rw [hportion] at hinputs hcached
      exact congrArg some (hnew _ _ hinputs.symm hcached.symm)
    · have hportion : row.portion = none := by simp [Row.portion, hi, hc, hle]
      rw [hportion] at hinputs hcached
      exact congrArg some (hnew _ _ hinputs.symm hcached.symm)

theorem add_of_not (hrows : (counted rows).Fits) (h : ¬(counted (rows ++ [row])).Fits) :
    (counted rows).add row.value = none := by
  rw [Counter.add]
  split_ifs with hsums
  · rfl
  · have hsums' : ∀ metric, (counted (rows ++ [row])).sums metric < limit := by
      intro metric
      rw [sums_append]
      cases hvalue : row.value metric with
      | none => simpa using hrows.sums metric
      | some n =>
        by_contra hle
        exact hsums ⟨metric, by simpa [hvalue] using hle⟩
    have hinputs := inputs_append rows row
    have hcached := cached_append rows row
    have hover : row.portion = none → False := by
      intro hportion
      rw [hportion] at hinputs hcached
      refine h ⟨hsums', ?_, ?_⟩
      · simpa [hinputs] using hrows.inputs
      · simpa [hcached] using hrows.cached
    cases hi : row.value .input with
    | none => exact (hover (by simp [Row.portion, hi])).elim
    | some input =>
    cases hc : row.value .cached with
    | none => exact (hover (by simp [Row.portion, hi, hc])).elim
    | some cached =>
      dsimp only
      split_ifs with hle hlimit
      · rfl
      · have hportion : row.portion = some (cached, input) := by simp [Row.portion, hi, hc, hle]
        rw [hportion] at hinputs hcached
        simp only [Option.map_some, Option.getD_some] at hinputs hcached
        exact absurd ⟨hsums', by omega, by omega⟩ h
      · exact (hover (by simp [Row.portion, hi, hc, hle])).elim

end Add

theorem output_counted (rows : List Row) :
    (counted rows).output =
      if limit ≤ (counted rows).cached * 100 then none else some (summarizePython rows) := by
  unfold Counter.output
  split_ifs
  · rfl
  · have hsums : ∀ metric, (0 < (counted rows).known metric ∨ (counted rows).count = 0) ↔
        (known rows metric ≠ [] ∨ rows = []) := by
      intro metric
      simp [counted, List.length_pos_iff]
    simp only [hsums]
    rfl

theorem fits_of_append {rows : List Row} {row : Row} (h : (counted (rows ++ [row])).Fits) :
    (counted rows).Fits where
  sums metric := by
    have hlt := h.sums metric
    rw [sums_append] at hlt
    omega
  inputs := by
    have hlt := h.inputs
    rw [inputs_append] at hlt
    omega
  cached := by
    have hlt := h.cached
    rw [cached_append] at hlt
    omega

theorem summarizeUsage_or (rows : List Row) :
    summarizeUsage rows = none ∨ summarizeUsage rows = some (summarizePython rows) := by
  have hcount : ∀ rows : List Row, rows.foldlM countRow {} = none ∨
      rows.foldlM countRow {} = some (counted rows) ∧ (counted rows).Fits := by
    intro rows
    induction rows using List.reverseRecOn with
    | nil => exact .inr ⟨rfl, counted_nil⟩
    | append_singleton rows row ih =>
      rw [List.foldlM_append]
      rcases ih with ih | ⟨ih, hfits⟩
      · exact .inl (by simp [ih])
      · rw [ih]
        by_cases hexact : row.exact = true
        · by_cases hrow : row.Fits
          · by_cases hnext : (counted (rows ++ [row])).Fits
            · exact .inr ⟨by simp [countRow, hexact, values_of hrow, add_of hnext], hnext⟩
            · exact .inl (by simp [countRow, hexact, values_of hrow, add_of_not hfits hnext])
          · exact .inl (by simp [countRow, hexact, values_of_not hrow])
        · exact .inl (by simp [countRow, hexact])
  rcases hcount rows with h | ⟨h, -⟩
  · exact .inl (by simp [summarizeUsage, h])
  · have houtput := output_counted rows
    split_ifs at houtput
    · exact .inl (by simp [summarizeUsage, h, houtput])
    · exact .inr (by simp [summarizeUsage, h, houtput])

theorem summarize_eq (rows : List Row) : summarize rows = summarizePython rows := by
  rcases summarizeUsage_or rows with h | h <;> simp [summarize, h]

end UsageGroups

end Codexon
