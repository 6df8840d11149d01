/-!
# Codexon.Python

The few notions of the Python runtime that the modelled functions share:
the exceptions they raise, sequence indexing, and methods that change an
object and may raise halfway.

A method's effect is read through `Moves R`: whichever way it ends, the state
it leaves is related to the state it found.  For a preorder `R` this composes
statement by statement; an invariant is the preorder "it holds after if it held
before" (`Keeps`).
-/

namespace Codexon

/-- The exceptions the modelled code raises or catches. -/
inductive PyError where
  | indexError
  | keyError
  | typeError
  | attributeError
  | valueError
  | overflowError
deriving DecidableEq, Repr

/-- `xs[i]` for a nonnegative index. -/
def item {α : Type} (xs : List α) (i : Nat) : Except PyError α :=
  match xs[i]? with
  | some x => .ok x
  | none => .error .indexError

theorem ok_of_bind {ε α β : Type} {x : Except ε α} {f : α → Except ε β} {b : β}
    (h : (x >>= f) = .ok b) : ∃ a, x = .ok a ∧ f a = .ok b := by
  cases x with
  | error e => cases h
  | ok a => exact ⟨a, rfl, h⟩

/-- The statements of a method of an object with state `σ`. -/
abbrev Py (σ : Type) := EStateM PyError σ

namespace Py

variable {σ α β : Type}

/-- The state a method leaves, by returning or by raising. -/
def final (m : Py σ α) (s : σ) : σ :=
  match m s with
  | .ok _ s' => s'
  | .error _ s' => s'

/-- The value of an expression that may raise. -/
def ofExcept (x : Except PyError α) : Py σ α :=
  match x with
  | .ok a => pure a
  | .error e => throw e

theorem get_run (s : σ) : (get : Py σ σ) s = .ok s s := rfl

theorem set_run (s t : σ) : (set t : Py σ PUnit) s = .ok ⟨⟩ t := rfl

theorem modify_run (f : σ → σ) (s : σ) : (modify f : Py σ PUnit) s = .ok ⟨⟩ (f s) := rfl

/-- `R` relates the states before and after `m`. -/
def Moves (R : σ → σ → Prop) (m : Py σ α) : Prop := ∀ s, R s (m.final s)

variable {f : α → Py σ β}

theorem Moves.bind_of {R T : σ → σ → Prop} {m : Py σ α}
    (h : ∀ {s s' s''}, R s s' → T s' s'' → R s s'') (hm : Moves R m) (hf : ∀ a, Moves T (f a)) :
    Moves R (m >>= f) := by
  intro s
  have hms := hm s
  simp only [final] at hms ⊢
  simp only [Bind.bind, EStateM.bind]
  cases heq : m s with
  | error e s' => simpa only [heq] using hms
  | ok a s' =>
    rw [heq] at hms
    exact h hms (hf a s')

/-- A relation that methods compose along. -/
structure Step (R : σ → σ → Prop) : Prop where
  refl : ∀ s, R s s
  trans : ∀ {s t u}, R s t → R t u → R s u

namespace Step

variable {R : σ → σ → Prop} (hR : Step R)
include hR

theorem pure (a : α) : Moves R (Pure.pure a : Py σ α) := fun s => hR.refl s

theorem throw (e : PyError) : Moves R (MonadExcept.throw e : Py σ α) := fun s => hR.refl s

theorem bind {m : Py σ α} {f : α → Py σ β} (hm : Moves R m) (hf : ∀ a, Moves R (f a)) :
    Moves R (m >>= f) := hm.bind_of hR.trans hf

theorem ofExcept_bind {x : Except PyError α} {f : α → Py σ β}
    (hf : ∀ a, x = .ok a → Moves R (f a)) : Moves R (Py.ofExcept x >>= f) := by
  cases x with
  | ok a => exact hf a rfl
  | error e => exact hR.throw e

end Step

theorem Moves.get_bind {R : σ → σ → Prop} {f : σ → Py σ β} (hf : ∀ s, R s ((f s).final s)) :
    Moves R ((MonadState.get : Py σ σ) >>= f) := hf

theorem Moves.read_bind {R : σ → σ → Prop} {f : σ → Py σ β} (hf : ∀ s, Moves R (f s)) :
    Moves R ((MonadState.get : Py σ σ) >>= f) := fun s => hf s s

theorem Moves.modify_bind {R T : σ → σ → Prop} {g : σ → σ} {f : PUnit → Py σ β}
    (hg : ∀ s s', T (g s) s' → R s s') (hf : ∀ a, Moves T (f a)) :
    Moves R ((modifyThe σ g : Py σ PUnit) >>= f) := fun s => hg s _ (hf ⟨⟩ (g s))

theorem Moves.modify {R : σ → σ → Prop} {f : σ → σ} (hf : ∀ s, R s (f s)) :
    Moves R (modifyThe σ f : Py σ PUnit) := hf

/-! ## two methods side by side -/

/-- From related states two methods end alike: with the same value or the same
exception, in related states. -/
def Relates (R : σ → σ → Prop) (m n : Py σ α) : Prop :=
  ∀ s t, R s t → match m s, n t with
    | .ok a s', .ok b t' => a = b ∧ R s' t'
    | .error e s', .error f t' => e = f ∧ R s' t'
    | _, _ => False

theorem Relates.final {R : σ → σ → Prop} {m n : Py σ α} (h : Relates R m n) {s t : σ}
    (hR : R s t) : R (m.final s) (n.final t) := by
  have hst := h s t hR
  unfold Py.final
  cases hm : m s <;> cases hn : n t <;> rw [hm, hn] at hst
  · exact hst.2
  · exact hst.elim
  · exact hst.elim
  · exact hst.2

theorem Relates.pure {R : σ → σ → Prop} (a : α) : Relates R (Pure.pure a : Py σ α) (Pure.pure a) :=
  fun _ _ h => ⟨rfl, h⟩

theorem Relates.throw {R : σ → σ → Prop} (e : PyError) :
    Relates R (MonadExcept.throw e : Py σ α) (MonadExcept.throw e) := fun _ _ h => ⟨rfl, h⟩

theorem Relates.bind {R : σ → σ → Prop} {m n : Py σ α} {g : α → Py σ β} (hm : Relates R m n)
    (hf : ∀ a, Relates R (f a) (g a)) : Relates R (m >>= f) (n >>= g) := by
  intro s t hst
  have h := hm s t hst
  simp only [Bind.bind, EStateM.bind]
  cases hms : m s with
  | ok a s' =>
    cases hnt : n t with
    | ok b t' =>
      rw [hms, hnt] at h
      obtain ⟨rfl, hR⟩ := h
      exact hf a s' t' hR
    | error e t' =>
      rw [hms, hnt] at h
      exact h.elim
  | error e s' =>
    cases hnt : n t with
    | ok b t' =>
      rw [hms, hnt] at h
      exact h.elim
    | error e' t' => rwa [hms, hnt] at h

theorem Relates.ofExcept_bind {R : σ → σ → Prop} {x : Except PyError α} {g : α → Py σ β}
    (hf : ∀ a, x = .ok a → Relates R (f a) (g a)) :
    Relates R (Py.ofExcept x >>= f) (Py.ofExcept x >>= g) := by
  cases x with
  | ok a => exact hf a rfl
  | error e => exact Relates.throw e

theorem Relates.read_bind {R : σ → σ → Prop} {f g : σ → Py σ β}
    (hf : ∀ s t, R s t → Relates R (f s) (g t)) :
    Relates R ((MonadState.get : Py σ σ) >>= f) ((MonadState.get : Py σ σ) >>= g) :=
  fun s t h => hf s t h s t h

theorem Relates.modify {R : σ → σ → Prop} {f g : σ → σ} (hf : ∀ s t, R s t → R (f s) (g t)) :
    Relates R (modifyThe σ f : Py σ PUnit) (modifyThe σ g) := fun s t h => ⟨rfl, hf s t h⟩

theorem Relates.modify_bind {R : σ → σ → Prop} {f g : σ → σ} {m n : PUnit → Py σ β}
    (hf : ∀ s t, R s t → R (f s) (g t)) (hm : ∀ a, Relates R (m a) (n a)) :
    Relates R ((modifyThe σ f : Py σ PUnit) >>= m) ((modifyThe σ g : Py σ PUnit) >>= n) :=
  (Relates.modify hf).bind hm

end Py

/-!
## results that do not depend on the state

Methods whose result does not depend on the state they read and change, as long as an
invariant holds of it: what is computed through a cache.
-/

namespace Py

variable {σ α β : Type} {I : σ → Prop}

/-- From every state with `I`, `m` ends with `r` in a state with `I`. -/
def Yields (I : σ → Prop) (m : Py σ α) (r : Except PyError α) : Prop :=
  ∀ s, I s → ∃ s', I s' ∧ m s =
    match r with
    | .ok a => .ok a s'
    | .error e => .error e s'

namespace Yields

theorem pure (a : α) : Yields I (Pure.pure a) (.ok a) := fun s hs => ⟨s, hs, rfl⟩

theorem throw (e : PyError) : Yields (α := α) I (MonadExcept.throw e) (.error e) := fun s hs =>
  ⟨s, hs, rfl⟩

theorem ofExcept (r : Except PyError α) : Yields I (Py.ofExcept r) r := by
  cases r with
  | ok a => exact pure a
  | error e => exact throw e

variable {f : α → Py σ β}

theorem bind {m : Py σ α} {a : α} {r : Except PyError β} (hm : Yields I m (.ok a))
    (hf : Yields I (f a) r) : Yields I (m >>= f) r := by
  intro s hs
  obtain ⟨s', hs', heq⟩ := hm s hs
  obtain ⟨s'', hs'', heq'⟩ := hf s' hs'
  refine ⟨s'', hs'', ?_⟩
  change EStateM.bind m f s = _
  rw [EStateM.bind, heq]
  exact heq'

theorem bind_error {m : Py σ α} {e : PyError} (hm : Yields I m (.error e)) :
    Yields I (m >>= f) (.error e) := by
  intro s hs
  obtain ⟨s', hs', heq⟩ := hm s hs
  refine ⟨s', hs', ?_⟩
  change EStateM.bind m f s = _
  rw [EStateM.bind, heq]

theorem map {m : Py σ α} {r : Except PyError α} (f : α → β) (hm : Yields I m r) :
    Yields I (f <$> m) (r.map f) := by
  rw [map_eq_pure_bind]
  cases r with
  | ok a => exact hm.bind (pure (f a))
  | error e => exact hm.bind_error

theorem mapM_some {g : α → Option β} {xs : List α}
    (hf : ∀ x ∈ xs, ∃ y, g x = some y ∧ Yields I (f x) (.ok y)) :
    Yields I (xs.mapM f) (.ok (xs.filterMap g)) := by
  induction xs with
  | nil => exact pure []
  | cons x xs ih =>
    obtain ⟨y, hy, hx⟩ := hf x (by simp)
    have hxs := ih fun z hz => hf z (by simp [hz])
    rw [List.mapM_cons, List.filterMap_cons_some hy]
    exact hx.bind (hxs.bind (pure (y :: xs.filterMap g)))

theorem mapM {g : α → β} {xs : List α}
    (hf : ∀ x ∈ xs, Yields I (f x) (.ok (g x))) : Yields I (xs.mapM f) (.ok (xs.map g)) := by
  simpa using mapM_some (g := fun x => some (g x)) fun x hx => ⟨g x, rfl, hf x hx⟩

theorem mapM_except {g : α → Except PyError β} {xs : List α}
    (hf : ∀ x ∈ xs, Yields I (f x) (g x)) : Yields I (xs.mapM f) (xs.mapM g) := by
  induction xs with
  | nil => exact pure []
  | cons x xs ih =>
    have hx := hf x (by simp)
    have hxs := ih fun y hy => hf y (by simp [hy])
    rw [List.mapM_cons, List.mapM_cons]
    cases hg : g x with
    | error e => exact bind_error (hg ▸ hx)
    | ok y =>
      refine bind (hg ▸ hx) ?_
      cases hys : xs.mapM g with
      | error e => exact bind_error (hys ▸ hxs)
      | ok ys => exact bind (hys ▸ hxs) (pure (y :: ys))

end Yields

end Py

end Codexon
