/-!
# Codexon.Faults

Programs of steps that may raise and may be the last ones: what holds after each step, and
after a program that returned or raised.
-/

namespace Codexon

/-- How a program ends. -/
inductive Finish (ε α : Type) where
  | returned (a : α)
  | raised (e : ε)
  /-- The process is no more. -/
  | stopped
deriving DecidableEq

/-- What happens at a step. -/
inductive Fault (ε : Type) where
  | fine
  | raises (e : ε)
  /-- Its effect is there, and it raises. -/
  | raisesAfter (e : ε)
  /-- Its effect is there, and nothing follows. -/
  | stops

/-- The world, and what is to happen: a step without a fault is fine. -/
structure Tape (σ ε : Type) where
  world : σ
  faults : List (Fault ε) := []
  answers : List Bool := []

def Attempt (σ ε α : Type) := Tape σ ε → Finish ε α × Tape σ ε

namespace Attempt

variable {σ ε α β : Type}

def bind (m : Attempt σ ε α) (f : α → Attempt σ ε β) : Attempt σ ε β := fun t =>
  match m t with
  | (.returned a, t) => f a t
  | (.raised e, t) => (.raised e, t)
  | (.stopped, t) => (.stopped, t)

instance : Monad (Attempt σ ε) where
  pure a := fun t => (.returned a, t)
  bind := bind

def raise (e : ε) : Attempt σ ε α := fun t => (.raised e, t)

/-- Nothing follows. -/
def halt : Attempt σ ε α := fun t => (.stopped, t)

/-- `except` -/
def catching (m : Attempt σ ε α) (handle : ε → Attempt σ ε α) : Attempt σ ε α := fun t =>
  match m t with
  | (.returned a, t) => (.returned a, t)
  | (.raised e, t) => handle e t
  | (.stopped, t) => (.stopped, t)

def step (effect : σ → α × σ) : Attempt σ ε α := fun t =>
  let after := { t with world := (effect t.world).2, faults := t.faults.tail }
  match t.faults.head?.getD .fine with
  | .fine => (.returned (effect t.world).1, after)
  | .raises e => (.raised e, { t with faults := t.faults.tail })
  | .raisesAfter e => (.raised e, after)
  | .stops => (.stopped, after)

def look (f : σ → α) : Attempt σ ε α := step fun w => (f w, w)

def change (f : σ → σ) : Attempt σ ε Unit := step fun w => ((), f w)

def answer : Attempt σ ε Bool := fun t =>
  step (fun w => (t.answers.headD false, w)) { t with answers := t.answers.tail }

/-- `if`, of a statement. -/
def provided (c : Prop) [Decidable c] (m : Attempt σ ε Unit) : Attempt σ ε Unit :=
  if c then m else pure ()

/-- From `P`: `Q` when it returns, `E` when it raises, and `S` when the process stops. -/
def Meets (P : σ → Prop) (m : Attempt σ ε α) (Q : α → σ → Prop) (E : ε → σ → Prop)
    (S : σ → Prop) : Prop :=
  ∀ t, P t.world →
    match m t with
    | (.returned a, t') => Q a t'.world
    | (.raised e, t') => E e t'.world
    | (.stopped, t') => S t'.world

namespace Meets

variable {P P' : σ → Prop} {Q Q' : α → σ → Prop} {R : β → σ → Prop} {E E' : ε → σ → Prop}
variable {S S' : σ → Prop} {m : Attempt σ ε α} {f : α → Attempt σ ε β}
variable {handle : ε → Attempt σ ε α}

theorem pure {a : α} (h : ∀ w, P w → Q a w) : Meets P (Pure.pure a : Attempt σ ε α) Q E S :=
  fun t ht => h t.world ht

theorem raise {e : ε} (h : ∀ w, P w → E e w) : Meets P (raise e : Attempt σ ε α) Q E S :=
  fun t ht => h t.world ht

theorem halt (h : ∀ w, P w → S w) : Meets P (halt : Attempt σ ε α) Q E S :=
  fun t ht => h t.world ht

theorem bind (hm : Meets P m Q E S) (hf : ∀ a, Meets (Q a) (f a) R E S) :
    Meets P (m >>= f) R E S := by
  intro t ht
  have h := hm t ht
  simp only [Bind.bind, Attempt.bind]
  generalize m t = r at h ⊢
  obtain ⟨a | e | _, t'⟩ := r
  · exact hf a t' h
  · exact h
  · exact h

theorem catching (hm : Meets P m Q E S) (hhandle : ∀ e, Meets (E e) (handle e) Q E' S) :
    Meets P (catching m handle) Q E' S := by
  intro t ht
  have h := hm t ht
  simp only [Attempt.catching]
  generalize m t = r at h ⊢
  obtain ⟨a | e | _, t'⟩ := r
  · exact h
  · exact hhandle e t' h
  · exact h

theorem imp (hm : Meets P m Q E S) (hP : ∀ w, P' w → P w) (hQ : ∀ a w, Q a w → Q' a w)
    (hE : ∀ e w, E e w → E' e w) (hS : ∀ w, S w → S' w) : Meets P' m Q' E' S' := by
  intro t ht
  have h := hm t (hP _ ht)
  generalize m t = r at h ⊢
  obtain ⟨a | e | _, t'⟩ := r
  · exact hQ _ _ h
  · exact hE _ _ h
  · exact hS _ h

theorem under (hm : Meets P m Q E S) (hP : ∀ w, P' w → P w) : Meets P' m Q E S :=
  hm.imp hP (fun _ _ h => h) (fun _ _ h => h) fun _ h => h

theorem post (hm : Meets P m Q E S) (hQ : ∀ a w, Q a w → Q' a w) : Meets P m Q' E S :=
  hm.imp (fun _ h => h) hQ (fun _ _ h => h) fun _ h => h

theorem step {effect : σ → α × σ} (hbefore : ∀ e w, P w → E e w)
    (hreturned : ∀ w, P w → Q (effect w).1 (effect w).2)
    (hraised : ∀ e w, P w → E e (effect w).2) (hstopped : ∀ w, P w → S (effect w).2) :
    Meets P (step effect) Q E S := by
  intro t ht
  rw [Attempt.step]
  cases t.faults.head?.getD .fine with
  | fine => exact hreturned _ ht
  | raises e => exact hbefore e _ ht
  | raisesAfter e => exact hraised e _ ht
  | stops => exact hstopped _ ht

theorem look {f : σ → α} (hE : ∀ e w, P w → E e w) (hS : ∀ w, P w → S w) :
    Meets P (look f : Attempt σ ε α) (fun a w => a = f w ∧ P w) E S :=
  step hE (fun _ h => ⟨rfl, h⟩) hE hS

theorem change {f : σ → σ} {Q : Unit → σ → Prop} (hbefore : ∀ e w, P w → E e w)
    (hreturned : ∀ w, P w → Q () (f w)) (hraised : ∀ e w, P w → E e (f w))
    (hstopped : ∀ w, P w → S (f w)) : Meets P (change f) Q E S :=
  step hbefore hreturned hraised hstopped

theorem answer (hE : ∀ e w, P w → E e w) (hS : ∀ w, P w → S w) :
    Meets P (answer : Attempt σ ε Bool) (fun _ => P) E S := by
  intro t ht
  exact step (P := P) (Q := fun _ => P) hE (fun _ h => h) hE hS
    { t with answers := t.answers.tail } ht

theorem ite {c : Prop} [Decidable c] {m' : Attempt σ ε α} (hm : c → Meets P m Q E S)
    (hm' : ¬ c → Meets P m' Q E S) : Meets P (if c then m else m') Q E S := by
  split
  · exact hm ‹_›
  · exact hm' ‹_›

theorem provided {c : Prop} [Decidable c] {m : Attempt σ ε Unit} {Q : σ → Prop}
    (hm : c → Meets P m (fun _ => Q) E S) (hskip : ¬ c → ∀ w, P w → Q w) :
    Meets P (provided c m) (fun _ => Q) E S :=
  ite hm fun hc => pure (hskip hc)

theorem assuming {p : Prop} (h : p → Meets P m Q E S) : Meets (fun w => P w ∧ p) m Q E S :=
  fun t ht => h ht.2 t ht.1

theorem kept {I : σ → Prop} (h : Meets P m (fun _ => I) (fun _ => I) I) {t : Tape σ ε}
    (ht : P t.world) : I (m t).2.world := by
  have hend := h t ht
  generalize m t = r at hend ⊢
  obtain ⟨a | e | _, t'⟩ := r <;> exact hend

end Meets

/-- A program that changes nothing, and raises only what `B` has. -/
def Idle (B : ε → Prop) (m : Attempt σ ε α) : Prop :=
  ∀ P : σ → Prop, Meets P m (fun _ => P) (fun e w => B e ∧ P w) P

namespace Idle

variable {B B' : ε → Prop} {P : σ → Prop} {m : Attempt σ ε α} {f : α → Attempt σ ε β}
variable {handle : ε → Attempt σ ε α}

theorem pure (a : α) : Idle B (Pure.pure a : Attempt σ ε α) := fun _ => .pure fun _ h => h

theorem raise {e : ε} (h : B e) : Idle B (raise e : Attempt σ ε α) := fun _ => .raise fun _ hw =>
  ⟨h, hw⟩

theorem look (h : ∀ e, B e) (f : σ → α) : Idle B (look f : Attempt σ ε α) := fun _ =>
  (Meets.look (fun e _ hw => ⟨h e, hw⟩) fun _ hw => hw).imp (fun _ hw => hw) (fun _ _ hw => hw.2)
    (fun _ _ hw => hw) fun _ hw => hw

theorem answer (h : ∀ e, B e) : Idle B (answer : Attempt σ ε Bool) := fun _ =>
  .answer (fun e _ hw => ⟨h e, hw⟩) fun _ hw => hw

theorem skip (h : ∀ e, B e) : Idle B (change id : Attempt σ ε Unit) := fun _ =>
  .change (fun e _ hw => ⟨h e, hw⟩) (fun _ hw => hw) (fun e _ hw => ⟨h e, hw⟩) fun _ hw => hw

theorem bind (hm : Idle B m) (hf : ∀ a, Idle B (f a)) : Idle B (m >>= f) := fun P =>
  (hm P).bind fun a => hf a P

theorem ite {c : Prop} [Decidable c] {m' : Attempt σ ε α} (hm : Idle B m) (hm' : Idle B m') :
    Idle B (if c then m else m') := fun P => .ite (fun _ => hm P) fun _ => hm' P

theorem provided {c : Prop} [Decidable c] {m : Attempt σ ε Unit} (hm : Idle B m) :
    Idle B (provided c m) := ite hm (pure ())

theorem catching (hm : Idle B m) (hhandle : ∀ e, B e → Idle B' (handle e)) :
    Idle B' (catching m handle) := fun P =>
  (hm P).catching fun e t ht => hhandle e ht.1 P t ht.2

theorem meets {E : ε → σ → Prop} {S : σ → Prop} (h : Idle B m) (hE : ∀ e w, B e → P w → E e w)
    (hS : ∀ w, P w → S w) : Meets P m (fun _ => P) E S :=
  (h P).imp (fun _ hw => hw) (fun _ _ hw => hw) (fun e w hw => hE e w hw.1 hw.2) hS

end Idle

end Attempt

end Codexon
