import Codexon.GraphTransfer.Transfer

/-!
# Codexon.GraphTransfer.Sizes

How long the frames are.  What `weight` counts for a value covers eight ninths of what is
pickled for it, in place included, so that the weight of a frame bounds its length.
-/

namespace Codexon

open List

namespace GraphTransfer

variable {eq : Scalar → Scalar → Bool} {g : Graph eq}

/-! ## costs -/

theorem tupleCost_le (n : Nat) : tupleCost n ≤ 3 := by
  unfold tupleCost
  split
  · omega
  · split <;> omega

theorem mapAll_length {α β : Type} (f : α → β) (vs : List (Value α)) :
    (Value.mapAll f vs).length = vs.length := by
  induction vs with
  | nil => rfl
  | cons v vs ih => exact congrArg (· + 1) ih

mutual

theorem cost_map_le {α β : Type} {f : α → β} {c : β → Nat} {d : α → Nat} : ∀ v : Value α,
    (∀ a ∈ v.nodes, c (f a) ≤ d a) → (v.map f).cost c ≤ v.cost d
  | .scalar _, _ => le_rfl
  | .tuple items, h => by
    simp only [Value.map, Value.cost, mapAll_length]
    exact Nat.add_le_add_left (costAll_map_le items h) _
  | .node a, h => h a (by simp [Value.nodes])

theorem costAll_map_le {α β : Type} {f : α → β} {c : β → Nat} {d : α → Nat} :
    ∀ vs : List (Value α), (∀ a ∈ Value.nodesAll vs, c (f a) ≤ d a) →
      Value.costAll c (Value.mapAll f vs) ≤ Value.costAll d vs
  | [], _ => le_rfl
  | v :: vs, h => by
    simp only [Value.nodesAll, mem_append] at h
    exact Nat.add_le_add (cost_map_le v fun a ha => h a (.inl ha))
      (costAll_map_le vs fun a ha => h a (.inr ha))

end

/-- A container in a frame: a place of the memo, or a reference. -/
def placeCost (g : Graph eq) (n : Nat) : Nat := if inlined g n then 5 else 37

def nodeCost (g : Graph eq) (n : Nat) : Nat := (g.node n).cost (placeCost g)

/-- The containers that a visit pickles in place, at most. -/
def spread (g : Graph eq) : Nat → Nat → Nat
  | 0, _ => 0
  | levels + 1, n =>
    if inlined g n then nodeCost g n + ((g.node n).nodes.map (spread g levels)).sum else 0

theorem utf8_le (s : PyStr) : (s.map utf8Length).sum ≤ s.length * 4 := by
  induction s with
  | nil => exact le_rfl
  | cons c s ih =>
    have hone : utf8Length c ≤ 4 := by unfold utf8Length; split_ifs <;> omega
    simp only [map_cons, sum_cons, length_cons]
    omega

theorem scalar_covered (s : Scalar) : 8 * s.cost ≤ 9 * s.weight := by
  cases s with
  | none => decide
  | bool b => decide +revert
  | float bits => simp [Scalar.cost, Scalar.weight]
  | int i =>
    simp only [Scalar.cost, Scalar.weight, intCost]
    split_ifs <;> omega
  | str s =>
    have hle := utf8_le s
    simp only [Scalar.cost, Scalar.weight, textCost]
    split_ifs <;> omega
  | bytes b =>
    simp only [Scalar.cost, Scalar.weight, textCost]
    split_ifs <;> omega

mutual

theorem value_covered {α : Type} (f : α → Nat) : ∀ (depth : Nat) (v : Value α) (w : Nat),
    scalarWeight depth v = some w → 8 * v.cost f ≤ 9 * w
  | _, .scalar s, w, h => by
    obtain rfl := Option.some.inj h
    exact scalar_covered s
  | depth, .tuple items, w, h => by
    simp only [scalarWeight] at h
    split at h
    · obtain ⟨total, htotal, rfl⟩ := Option.map_eq_some_iff.mp h
      have hitems := values_covered f (depth + 1) items total htotal
      have hshell := tupleCost_le items.length
      simp only [Value.cost]
      omega
    · cases h
  | _, .node _, _, h => by cases h

theorem values_covered {α : Type} (f : α → Nat) : ∀ (depth : Nat) (vs : List (Value α)) (w : Nat),
    scalarWeights depth vs = some w → 8 * Value.costAll f vs ≤ 9 * w
  | _, [], _, _ => by simp [Value.costAll]
  | depth, v :: vs, w, h => by
    simp only [scalarWeights] at h
    split at h
    · next a b ha hb =>
      obtain rfl := Option.some.inj h
      have hone := value_covered f depth v a ha
      have hrest := values_covered f depth vs b hb
      simp only [Value.costAll]
      omega
    · cases h

end

theorem sum_map_add {α : Type} (f h : α → Nat) (xs : List α) :
    (xs.map fun x => f x + h x).sum = (xs.map f).sum + (xs.map h).sum := by
  induction xs with
  | nil => rfl
  | cons x xs ih => simp only [map_cons, sum_cons, ih]; omega

end GraphTransfer

end Codexon
