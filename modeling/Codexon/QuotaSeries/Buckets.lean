import Codexon.QuotaSeries.Chart

/-!
# Codexon.QuotaSeries.Buckets

What the buckets of a sample hold: the ends and the extrema of their rows.  Both implementations
fill the same buckets, and never compare with a value that is missing.
-/

namespace Codexon.QuotaSeries

/-! ## one bucket -/

section Widen

variable {value : Nat → Option ℚ} {P : Nat → Prop} {i : Nat} {o : Option (Nat × Nat)}

/-- The rows of the least and the greatest value, after one row more. -/
def widen (value : Nat → Option ℚ) (i : Nat) (o : Option (Nat × Nat)) : Option (Nat × Nat) :=
  match value i with
  | none => o
  | some v =>
    let pair := o.getD (i, i)
    some (if (value pair.1).any (v < ·) then i else pair.1,
      if (value pair.2).any (· < v) then i else pair.2)

/-- The rows of the least and the greatest value of the rows `P`. -/
def Extreme (value : Nat → Option ℚ) (P : Nat → Prop) : Option (Nat × Nat) → Prop
  | none => ∀ i, P i → value i = none
  | some (low, high) => P low ∧ P high ∧ ∃ v w, value low = some v ∧ value high = some w ∧
      ∀ i u, P i → value i = some u → v ≤ u ∧ u ≤ w

theorem Extreme.congr {Q : Nat → Prop} (h : Extreme value P o) (hPQ : ∀ i, P i ↔ Q i) :
    Extreme value Q o := by
  have heq : P = Q := funext fun i => propext (hPQ i)
  rwa [← heq]

theorem Extreme.widen (h : Extreme value P o) :
    Extreme value (fun j => P j ∨ j = i) (widen value i o) := by
  unfold QuotaSeries.widen
  cases hvalue : value i with
  | none =>
    cases o with
    | none =>
      rintro j (hj | rfl)
      · exact h j hj
      · exact hvalue
    | some pair =>
      obtain ⟨hlow, hhigh, v, w, hv, hw, hall⟩ := h
      refine ⟨.inl hlow, .inl hhigh, v, w, hv, hw, ?_⟩
      rintro j u (hj | rfl) hu
      · exact hall j u hj hu
      · rw [hvalue] at hu
        cases hu
  | some x =>
    cases o with
    | none =>
      have hself : (value i).any (x < ·) = false ∧ (value i).any (· < x) = false := by
        simp [hvalue]
      simp only [Option.getD_none, hself.1, hself.2, Bool.false_eq_true, if_false]
      refine ⟨.inr rfl, .inr rfl, x, x, hvalue, hvalue, ?_⟩
      rintro j u (hj | rfl) hu
      · rw [h j hj] at hu
        cases hu
      · rw [hvalue] at hu
        rw [Option.some.inj hu]
        exact ⟨le_rfl, le_rfl⟩
    | some pair =>
      obtain ⟨low, high⟩ := pair
      obtain ⟨hlow, hhigh, v, w, hv, hw, hall⟩ := h
      have hnew : ∀ j u, P j ∨ j = i → value j = some u → u = x ∨ v ≤ u ∧ u ≤ w := by
        rintro j u (hj | rfl) hu
        · exact .inr (hall j u hj hu)
        · exact .inl (Option.some.inj (hu.symm.trans hvalue))
      have hvw := hall low v hlow hv
      simp only [Option.getD_some, hv, hw, Option.any_some, decide_eq_true_eq]
      by_cases hless : x < v
      · have hmore : ¬w < x := fun hlt => absurd (hlt.trans hless) (not_lt.mpr hvw.2)
        rw [if_pos hless, if_neg hmore]
        refine ⟨.inr rfl, .inl hhigh, x, w, hvalue, hw, fun j u hj hu => ?_⟩
        rcases hnew j u hj hu with rfl | hu
        · exact ⟨le_rfl, not_lt.mp hmore⟩
        · exact ⟨hless.le.trans hu.1, hu.2⟩
      · rw [if_neg hless]
        by_cases hmore : w < x
        · rw [if_pos hmore]
          refine ⟨.inl hlow, .inr rfl, v, x, hv, hvalue, fun j u hj hu => ?_⟩
          rcases hnew j u hj hu with rfl | hu
          · exact ⟨not_lt.mp hless, le_rfl⟩
          · exact ⟨hu.1, hu.2.trans hmore.le⟩
        · rw [if_neg hmore]
          refine ⟨.inl hlow, .inl hhigh, v, w, hv, hw, fun j u hj hu => ?_⟩
          rcases hnew j u hj hu with rfl | hu
          · exact ⟨not_lt.mp hless, not_lt.mp hmore⟩
          · exact hu

end Widen

section Visit

variable {ε : Type} {value : Nat → Field → Option ℚ} {i : Nat} {state : Bucket} {field : Field}

def Bucket.ReadableAt (value : Nat → Field → Option ℚ) (state : Bucket) (field : Field) : Prop :=
  ∀ low high, state.extrema field = some (low, high) →
    ∃ v w, value low field = some v ∧ value high field = some w

def Bucket.visited (value : Nat → Field → Option ℚ) (i : Nat) (state : Bucket) (field : Field) :
    Bucket :=
  { state with
    extrema := Function.update state.extrema field
      (widen (value · field) i (state.extrema field)) }

theorem visitPython_eq (h : state.ReadableAt value field) :
    state.visitPython value i field = .ok (state.visited value i field) := by
  unfold Bucket.visitPython Bucket.visited widen
  cases hvalue : value i field with
  | none => simp [hvalue]
  | some v =>
    cases hpair : state.extrema field with
    | none => simp [lessPython, hvalue, bind, Except.bind, pure, Except.pure]
    | some pair =>
      obtain ⟨low, high⟩ := pair
      obtain ⟨x, y, hx, hy⟩ := h low high hpair
      by_cases hlow : v < x <;> by_cases hhigh : y < v <;>
        simp [lessPython, hvalue, hx, hy, hlow, hhigh, bind, Except.bind, pure, Except.pure]

theorem visitNative_eq (h : state.ReadableAt value field) :
    state.visitNative value i field = .ok (state.visited value i field) := by
  unfold Bucket.visitNative Bucket.visited widen
  cases hvalue : value i field with
  | none => simp [hvalue]
  | some v =>
    cases hpair : state.extrema field with
    | none => simp [unwrap, hvalue, bind, Except.bind, pure, Except.pure]
    | some pair =>
      obtain ⟨low, high⟩ := pair
      obtain ⟨x, y, hx, hy⟩ := h low high hpair
      by_cases hlow : v < x <;> by_cases hhigh : y < v <;>
        simp [unwrap, hvalue, hx, hy, hlow, hhigh, bind, Except.bind, pure, Except.pure]

theorem foldlM_visit {visit : Bucket → Field → Except ε Bucket}
    (hvisit : ∀ state field, state.ReadableAt value field →
      visit state field = .ok (state.visited value i field))
    {fields : List Field} (hnodup : fields.Nodup)
    (h : ∀ field ∈ fields, state.ReadableAt value field) :
    fields.foldlM visit state = .ok { state with
      extrema := fun field =>
        if field ∈ fields then widen (value · field) i (state.extrema field)
        else state.extrema field } := by
  induction fields generalizing state with
  | nil => rfl
  | cons field fields ih =>
    obtain ⟨hfield, hnodup⟩ := List.nodup_cons.mp hnodup
    have hother : ∀ other ∈ fields, other ≠ field := fun other hother heq =>
      hfield (heq ▸ hother)
    rw [List.foldlM_cons, hvisit state field (h field (by simp))]
    have hreadable : ∀ other ∈ fields,
        (state.visited value i field).ReadableAt value other := fun other ho low high hpair =>
      h other (by simp [ho]) low high (by
        simpa [Bucket.visited, Function.update_of_ne (hother other ho)] using hpair)
    have hrest := ih hnodup hreadable
    refine hrest.trans ?_
    simp only [Bucket.visited, Except.ok.injEq, Bucket.mk.injEq, true_and]
    funext other
    by_cases heq : other = field
    · subst heq
      simp [hfield]
    · simp [heq]

end Visit

/-! ## all buckets -/

section Spread

variable {value : Nat → Field → Option ℚ} {place : Nat → Nat}

def Bucket.touched (value : Nat → Field → Option ℚ) (i : Nat) (old : Option Bucket) : Bucket :=
  let state := old.getD { first := i, last := i }
  { first := state.first
    last := i
    extrema := fun field => widen (value · field) i (state.extrema field) }

def spread (place : Nat → Nat) (value : Nat → Field → Option ℚ) : Nat → Nat → Option Bucket
  | 0 => fun _ => none
  | k + 1 => Function.update (spread place value k) (place k)
      (some (Bucket.touched value k (spread place value k (place k))))

/-- The bucket of the rows `P`. -/
structure Bucket.Of (value : Nat → Field → Option ℚ) (P : Nat → Prop) (bucket : Bucket) :
    Prop where
  first : P bucket.first
  last : P bucket.last
  between : ∀ i, P i → bucket.first ≤ i ∧ i ≤ bucket.last
  extreme : ∀ field, Extreme (value · field) P (bucket.extrema field)

theorem spread_spec (place : Nat → Nat) (value : Nat → Field → Option ℚ) (k b : Nat) :
    (spread place value k b = none → ∀ i < k, place i ≠ b) ∧
    ∀ bucket, spread place value k b = some bucket →
      bucket.Of value fun i => i < k ∧ place i = b := by
  induction k generalizing b with
  | zero => exact ⟨fun _ i hi => absurd hi (Nat.not_lt_zero i), fun bucket h => nomatch h⟩
  | succ k ih =>
    obtain ⟨hnone, hsome⟩ := ih b
    rw [spread]
    by_cases hb : b = place k
    · rw [hb, Function.update_self]
      refine ⟨fun h => (nomatch h), fun bucket hbucket => ?_⟩
      have hrows : ∀ i, (i < k ∧ place i = place k) ∨ i = k ↔ i < k + 1 ∧ place i = place k := by
        intro i
        constructor
        · rintro (h | rfl)
          · exact ⟨h.1.trans (Nat.lt_succ_self k), h.2⟩
          · exact ⟨Nat.lt_succ_self i, rfl⟩
        · rintro ⟨hi, hplace⟩
          rcases Nat.lt_succ_iff_lt_or_eq.mp hi with hi | rfl
          · exact .inl ⟨hi, hplace⟩
          · exact .inr rfl
      rw [← Option.some.inj hbucket]
      subst hb
      cases hold : spread place value k (place k) with
      | none =>
        have halone : ∀ i < k, place i ≠ place k := hnone hold
        have honly : ∀ i, i < k + 1 ∧ place i = place k → i = k := by
          rintro i ⟨hi, hplace⟩
          rcases Nat.lt_succ_iff_lt_or_eq.mp hi with hi | rfl
          · exact absurd hplace (halone i hi)
          · rfl
        refine ⟨⟨Nat.lt_succ_self k, rfl⟩, ⟨Nat.lt_succ_self k, rfl⟩, fun i hi => ?_,
          fun field => ?_⟩
        · rw [honly i hi]
          exact ⟨le_rfl, le_rfl⟩
        · have hempty : Extreme (value · field) (fun i => i < k ∧ place i = place k) none :=
            fun i hi => absurd hi.2 (halone i hi.1)
          exact hempty.widen.congr hrows
      | some bucket =>
        have hbucket := hsome bucket hold
        refine ⟨(hrows _).mp (.inl hbucket.first), ⟨Nat.lt_succ_self k, rfl⟩, fun i hi => ?_,
          fun field => (hbucket.extreme field).widen.congr hrows⟩
        have hle : i ≤ k := Nat.lt_succ_iff.mp hi.1
        refine ⟨?_, hle⟩
        rcases (hrows i).mpr hi with hi | rfl
        · exact (hbucket.between i hi).1
        · exact hbucket.first.1.le
    · rw [Function.update_of_ne hb]
      have hrows : ∀ i, i < k ∧ place i = b ↔ i < k + 1 ∧ place i = b := by
        intro i
        constructor
        · exact fun h => ⟨h.1.trans (Nat.lt_succ_self k), h.2⟩
        · rintro ⟨hi, hplace⟩
          rcases Nat.lt_succ_iff_lt_or_eq.mp hi with hi | rfl
          · exact ⟨hi, hplace⟩
          · exact absurd hplace.symm hb
      refine ⟨fun h i hi hplace => ?_, fun bucket hbucket => ?_⟩
      · exact hnone h i ((hrows i).mpr ⟨hi, hplace⟩).1 hplace
      · obtain ⟨hfirst, hlast, hbetween, hextreme⟩ := hsome bucket hbucket
        exact ⟨(hrows _).mp hfirst, (hrows _).mp hlast,
          fun i hi => hbetween i ((hrows i).mpr hi), fun field => (hextreme field).congr hrows⟩

theorem spread_readable {k b : Nat} {bucket : Bucket} (h : spread place value k b = some bucket)
    (field : Field) : bucket.ReadableAt value field := by
  intro low high hpair
  have hextreme := ((spread_spec place value k b).2 bucket h).extreme field
  rw [hpair] at hextreme
  obtain ⟨-, -, v, w, hv, hw, -⟩ := hextreme
  exact ⟨v, w, hv, hw⟩

theorem foldlM_touch {ε : Type} {visit : Bucket → Field → Except ε Bucket} {k : Nat}
    (hvisit : ∀ state field, state.ReadableAt value field →
      visit state field = .ok (state.visited value k field)) (b : Nat) :
    Field.all.foldlM visit
        { (spread place value k b).getD { first := k, last := k } with last := k } =
      .ok (Bucket.touched value k (spread place value k b)) := by
  have hall : ∀ field, field ∈ Field.all := fun field => by cases field <;> decide
  rw [foldlM_visit hvisit (by decide)]
  · simp [hall, Bucket.touched]
  · intro field _
    cases hold : spread place value k b with
    | none => exact fun low high hpair => nomatch hpair
    | some bucket => exact spread_readable hold field

end Spread

end Codexon.QuotaSeries
