/-!
# Codexon.Run

Runs of deterministic machines: a step function folded over a list of
inputs.  Every result about "each reachable state" in this development is
an instance of one of the rules here — an invariant kept by each step is
kept by a run (`run_inv`), and what every allowed step does from the states
of such an invariant, the steps of a run do (`along_of_inv`).

Environment behaviour (a failing disk, a clock, the scheduler's choice) is
part of the input, so a fold over all input lists covers every execution.
`Along P` restricts a run to steps whose state and input satisfy `P`.
-/

namespace Codexon

universe u v

variable {σ : Type u} {ι : Type v}

/-- The state reached from `s` by feeding the inputs in order. -/
def run (step : σ → ι → σ) (s : σ) (xs : List ι) : σ := xs.foldl step s

@[simp] theorem run_nil (step : σ → ι → σ) (s : σ) : run step s [] = s := rfl

@[simp] theorem run_cons (step : σ → ι → σ) (s : σ) (x : ι) (xs : List ι) :
    run step s (x :: xs) = run step (step s x) xs := rfl

theorem run_append (step : σ → ι → σ) (s : σ) (xs ys : List ι) :
    run step s (xs ++ ys) = run step (run step s xs) ys := List.foldl_append

/-- Every step of the run starts in a state and takes an input related by `P`. -/
def Along (step : σ → ι → σ) (P : σ → ι → Prop) : σ → List ι → Prop
  | _, [] => True
  | s, x :: xs => P s x ∧ Along step P (step s x) xs

instance Along.decidable {step : σ → ι → σ} {P : σ → ι → Prop} [∀ s, DecidablePred (P s)] :
    ∀ s xs, Decidable (Along step P s xs)
  | _, [] => isTrue trivial
  | s, x :: xs =>
    have : Decidable (Along step P (step s x) xs) := Along.decidable (step s x) xs
    inferInstanceAs (Decidable (P s x ∧ Along step P (step s x) xs))

variable {xs : List ι}

variable {step : σ → ι → σ}

theorem along_append {P : σ → ι → Prop} {s : σ} {ys : List ι}
    (hxs : Along step P s xs) (hys : Along step P (run step s xs) ys) :
    Along step P s (xs ++ ys) := by
  induction xs generalizing s with
  | nil => exact hys
  | cons x xs ih => exact ⟨hxs.1, ih hxs.2 hys⟩

theorem along_drop {P : σ → ι → Prop} {s : σ} (n : Nat)
    (h : Along step P s xs) : Along step P (run step s (xs.take n)) (xs.drop n) := by
  induction n generalizing s xs with
  | zero => exact h
  | succ n ih =>
    cases xs with
    | nil => trivial
    | cons x xs => exact ih h.2

theorem along_and {P Q : σ → ι → Prop} {s : σ} (hP : Along step P s xs) (hQ : Along step Q s xs) :
    Along step (fun s x => P s x ∧ Q s x) s xs := by
  induction xs generalizing s with
  | nil => trivial
  | cons x xs ih => exact ⟨⟨hP.1, hQ.1⟩, ih hP.2 hQ.2⟩

theorem along_of_forall {P : ι → Prop} {s : σ}
    (h : ∀ x ∈ xs, P x) : Along step (fun _ x => P x) s xs := by
  induction xs generalizing s with
  | nil => trivial
  | cons x xs ih =>
    exact ⟨h x List.mem_cons_self, ih fun y hy => h y (List.mem_cons_of_mem x hy)⟩

/-- **Invariant rule, guarded form**: an invariant preserved by every step
allowed by `P` holds at the end of every run whose steps `P` allows. -/
theorem run_inv_along {P : σ → ι → Prop} {I : σ → Prop}
    (hstep : ∀ s x, I s → P s x → I (step s x)) {s : σ}
    (hs : I s) (hP : Along step P s xs) : I (run step s xs) := by
  induction xs generalizing s with
  | nil => exact hs
  | cons x xs ih => exact ih (hstep s x hs hP.1) hP.2

theorem along_of_inv {P Q : σ → ι → Prop} {I : σ → Prop}
    (hstep : ∀ s x, I s → P s x → I (step s x) ∧ Q s x) {s : σ}
    (hs : I s) (hP : Along step P s xs) : Along step Q s xs := by
  induction xs generalizing s with
  | nil => trivial
  | cons x xs ih =>
    obtain ⟨hnext, hQ⟩ := hstep s x hs hP.1
    exact ⟨hQ, ih hnext hP.2⟩

/-- **Invariant rule**: an invariant preserved by every step holds at the
end of every run. -/
theorem run_inv {I : σ → Prop}
    (hstep : ∀ s x, I s → I (step s x)) {s : σ} (hs : I s) (xs : List ι) : I (run step s xs) := by
  induction xs generalizing s with
  | nil => exact hs
  | cons x xs ih => exact ih (hstep s x hs)

end Codexon
