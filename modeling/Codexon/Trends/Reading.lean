import Codexon.Trends

/-!
# Codexon.Trends.Reading

What the extension reads, and how much of its budget for integers that takes.
-/

namespace Codexon.Trends

/-! ## readings that spend a budget -/

section Spends

variable {α β : Type} {m : Reading α} {cost cost' : ℚ} {a : α}

/-- A reading of `a` that adds `cost` to the sum of integers, and fails where that is too much. -/
def Spends (m : Reading α) (cost : ℚ) (a : α) : Prop :=
  0 ≤ cost ∧ ∀ sum ≤ largestExact, m.run sum =
    if sum + cost ≤ largestExact then .ok (a, sum + cost) else .error .overflowError

theorem Spends.pure (a : α) : Spends (Pure.pure a) 0 a := by
  constructor
  · exact le_rfl
  · intro sum hsum
    simp only [add_zero, hsum, if_true]
    rfl

theorem Spends.bind {f : α → Reading β} {b : β} (hm : Spends m cost a)
    (hf : Spends (f a) cost' b) : Spends (m >>= f) (cost + cost') b := by
  constructor
  · exact add_nonneg hm.1 hf.1
  · intro sum hsum
    have hfirst := hm.2 sum hsum
    rw [StateT.run_bind, hfirst, ← add_assoc]
    by_cases hcost : sum + cost ≤ largestExact
    · rw [if_pos hcost]
      exact hf.2 (sum + cost) hcost
    · have hmore : ¬sum + cost + cost' ≤ largestExact := by
        have hnonneg := hf.1
        linarith
      rw [if_neg hcost, if_neg hmore]
      rfl

theorem Spends.bind_zero {f : α → Reading β} {b : β} (hm : Spends m 0 a)
    (hf : Spends (f a) cost b) : Spends (m >>= f) cost b := by
  have hbind := hm.bind hf
  rwa [zero_add] at hbind

theorem Spends.map {f : α → Reading β} {b : β} (hm : Spends m cost a)
    (hf : Spends (f a) 0 b) : Spends (m >>= f) cost b := by
  have hbind := hm.bind hf
  rwa [add_zero] at hbind

theorem Spends.run' (hm : Spends m cost a) : m.run' 0 =
    if cost ≤ largestExact then .ok a else .error .overflowError := by
  have hzero : (0 : ℚ) ≤ largestExact := by unfold largestExact; norm_num
  have hrun := hm.2 0 hzero
  rw [zero_add] at hrun
  rw [StateT.run'_eq, hrun]
  split <;> rfl

/-- Within the budget a batch is read and what is restored of it is what Python computes; beyond it
the reading fails. -/
def Agrees {γ : Type} (read : Except PyError α) (restore : α → Except PyError γ) (cost : ℚ)
    (python : γ) : Prop :=
  if cost ≤ largestExact then ∃ batch, read = .ok batch ∧ restore batch = .ok python
  else read = .error .overflowError

end Spends

/-! ## the items of a row -/

def integerOf (value : Option Value) : ℚ :=
  match value with
  | some (.number n) => if n.integer then |n.value| else 0
  | _ => 0

theorem integerOf_nonneg (value : Option Value) : 0 ≤ integerOf value := by
  unfold integerOf
  split
  · split
    · exact abs_nonneg _
    · exact le_rfl
  · exact le_rfl

theorem number_spends (row : Row) (field : Field) :
    Spends (number row field) (integerOf (row.items.get? field))
      ((valid (row.items.get? field)).map Num.value) := by
  unfold number
  cases hitem : row.items.get? field with
  | none => exact Spends.pure none
  | some value =>
    cases value with
    | other => exact Spends.pure none
    | number n =>
      have hvalue : (valid (some (.number n))).map Num.value =
          if 0 ≤ n.value then some n.value else none := by
        simp only [valid]
        split <;> rfl
      rw [hvalue]
      constructor
      · exact integerOf_nonneg _
      · intro sum hsum
        unfold integerOf
        cases hinteger : n.integer with
        | false =>
          simp only [hinteger, Bool.false_eq_true, if_false, add_zero, hsum, if_true]
          rfl
        | true =>
          by_cases hcost : sum + |n.value| ≤ largestExact
          · have hless : ¬largestExact < sum + |n.value| := not_lt.mpr hcost
            simp only [hinteger, if_true, hcost]
            simp [hless]
            rfl
          · have hmore : largestExact < sum + |n.value| := not_le.mp hcost
            simp only [hinteger, if_true, hcost]
            simp [hmore]
            rfl

def Readable (text : Option PyStr) : Prop := ∀ t ∈ text, Native.Encodable t

theorem text_spends {t : Option PyStr} (h : Readable t) : Spends (text t) 0 (label t) := by
  cases t with
  | none => exact Spends.pure unknown
  | some t =>
    have hextract := Native.extractText_of (h t rfl)
    by_cases hempty : t = []
    · subst hempty
      exact Spends.pure unknown
    · have htext : text (some t) = pure t := by
        simp only [text, ne_eq, hempty, not_false_iff, if_true, hextract]
        rfl
      have hlabel : label (some t) = t := by simp [label, hempty]
      rw [htext, hlabel]
      exact Spends.pure t

/-! ## observations -/

/-- The texts that the extension reads of a row are readable. -/
structure Row.Readable (row : Row) : Prop where
  model : Trends.Readable row.model
  serviceTier : Trends.Readable row.serviceTier
  effort : Trends.Readable row.effort

/-- `metric.startswith('reasoning:') and effort!=metric.split(':',1)[1]` -/
def Row.skipped (row : Row) (effort : Option PyStr) : Bool := effort.any (label row.effort ≠ ·)

theorem Row.skipped_eq (row : Row) (effort : Option PyStr) :
    (effort.any fun wanted => wanted ≠ label row.effort) = row.skipped effort := by
  cases effort with
  | none => rfl
  | some wanted => exact decide_eq_decide.mpr ne_comm

def Row.scope (row : Row) : Scope := (label row.model, label row.serviceTier, label row.effort)

def observation (field : Field) (effort : Option PyStr) (index : Nat) (row : Row) :
    Option Observation :=
  if row.skipped effort then none
  else (valid (row.items.get? field)).map fun n => ⟨index, row.ts, n.value, row.scope⟩

def observations (field : Field) (effort : Option PyStr) : Nat → List Row → List Observation
  | _, [] => []
  | index, row :: rows =>
    (observation field effort index row).toList ++ observations field effort (index + 1) rows

def shown (view : View) (effort : Option PyStr) (rows : List Row) : Nat :=
  rows.countP fun row => !row.skipped effort && view.shows row.ts

def spent (field : Field) (effort : Option PyStr) (rows : List Row) : ℚ :=
  (rows.map fun row => if row.skipped effort then 0 else integerOf (row.items.get? field)).sum

variable {field : Field} {effort : Option PyStr} {view : View}

theorem observe_spends {row : Row} (h : row.Readable) (index : Nat) :
    Spends (observe field index row (label row.effort)) (integerOf (row.items.get? field))
      ((valid (row.items.get? field)).map fun n =>
        (⟨index, row.ts, n.value, row.scope⟩ : Observation)).toList := by
  apply (number_spends row field).map
  cases valid (row.items.get? field) with
  | none => exact Spends.pure []
  | some n =>
    apply (text_spends h.model).bind_zero
    exact (text_spends h.serviceTier).map (Spends.pure _)

theorem observeRows_spends {rows : List Row} (h : ∀ row ∈ rows, row.Readable) (index : Nat) :
    Spends (observeRows field view effort index rows) (spent field effort rows)
      (shown view effort rows, observations field effort index rows) := by
  induction rows generalizing index with
  | nil => exact Spends.pure (0, [])
  | cons row rows ih =>
    have hrow := h row List.mem_cons_self
    have hrest := ih (fun r hr => h r (List.mem_cons_of_mem _ hr)) (index + 1)
    apply (text_spends hrow.effort).bind_zero
    rw [row.skipped_eq]
    cases hskip : row.skipped effort with
    | true => simpa [spent, shown, observations, observation, hskip] using hrest
    | false =>
      have hshown : shown view effort (row :: rows) =
          (if view.shows row.ts then 1 else 0) + shown view effort rows := by
        simp [shown, List.countP_cons, hskip, add_comm]
      have hspent : spent field effort (row :: rows) =
          integerOf (row.items.get? field) + spent field effort rows := by
        simp [spent, hskip]
      rw [hshown, hspent, observations, observation, hskip]
      apply (observe_spends hrow index).bind
      exact hrest.map (Spends.pure _)

end Codexon.Trends
