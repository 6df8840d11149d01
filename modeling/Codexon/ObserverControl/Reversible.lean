import Codexon.ObserverControl

/-!
# Codexon.ObserverControl.Reversible

Every call leaves the configuration as it was, or with a record of how it was.
-/

namespace Codexon.ObserverControl

open Attempt

variable {σ : Type} {home : PyStr} {w₀ w : World σ}

/-! ## the invariant -/

/-- A startup registration that is not the manager's: the record does not name it. -/
def Record.Spares (record : Record) (w₀ : World σ) : Prop :=
  ∀ text ∈ w₀.startup, record.managedStartup ≠ some text

/-- What the calls keep of the world before the first one. -/
structure Kept (w₀ w : World σ) : Prop where
  config : { w.config with baseUrl := w₀.config.baseUrl } = w₀.config
  startup : w.startup = w₀.startup
  spares : ∀ record, w.file = .state record → record.Spares w₀
  /-- An address that was there needs its record to be read. -/
  reads : w₀.config.baseUrl ≠ none →
    ∀ e, some e ∈ w.recoveryReads → e.kind ≠ .osError ∧ e.kind ≠ .valueError

/-- The address is that of before. -/
structure Direct (w₀ w : World σ) : Prop extends Kept w₀ w where
  route : w.config.baseUrl = w₀.config.baseUrl

/-- The address is that of before, or the record has it. -/
structure Recoverable (w₀ w : World σ) : Prop extends Kept w₀ w where
  route : w.config.baseUrl = w₀.config.baseUrl ∨ w.config.baseUrl = some .proxy ∧
    ∃ record, w.file = .state record ∧ record.previousUrl = w₀.config.baseUrl

theorem Direct.recoverable (h : Direct w₀ w) : Recoverable w₀ w := ⟨h.toKept, .inl h.route⟩

def IsOff (w : World σ) : Prop :=
  ∃ record, w.file = .state record ∧ record.enabled = false ∧ record.pending = false

variable {record : Record}

theorem isOff_write (henabled : record.enabled = false)
    (hpending : record.pending = false) : IsOff { w with file := .state record } :=
  ⟨record, rfl, henabled, hpending⟩

theorem Direct.write (h : Direct w₀ w) (hspares : record.Spares w₀) :
    Direct w₀ { w with file := .state record } :=
  ⟨⟨h.config, h.startup, fun _ hr => StateFile.state.inj hr ▸ hspares, h.reads⟩, h.route⟩

theorem Recoverable.write (h : Recoverable w₀ w) (hspares : record.Spares w₀)
    (hnoted : record.previousUrl = w₀.config.baseUrl) :
    Recoverable w₀ { w with file := .state record } :=
  ⟨⟨h.config, h.startup, fun _ hr => StateFile.state.inj hr ▸ hspares, h.reads⟩,
    h.route.imp_right fun hproxy => ⟨hproxy.1, record, rfl, hnoted⟩⟩

variable {startup : Option PyStr}

theorem Kept.register (h : Kept w₀ w) (hstartup : startup = w₀.startup) :
    Kept w₀ { w with startup := startup } := ⟨h.config, hstartup, h.spares, h.reads⟩

theorem Direct.register (h : Direct w₀ w)
    (hstartup : startup = w₀.startup) : Direct w₀ { w with startup := startup } :=
  ⟨h.toKept.register hstartup, h.route⟩

theorem Recoverable.register (h : Recoverable w₀ w)
    (hstartup : startup = w₀.startup) : Recoverable w₀ { w with startup := startup } :=
  ⟨h.toKept.register hstartup, h.route⟩

/-! ## steps -/

variable {P : World σ → Prop} {α : Type}

/-- A program that changes nothing of what is modelled. -/
abbrev Still (m : Act σ α) : Prop := Idle (fun _ => True) m

theorem Still.meets {m : Act σ α} {I : World σ → Prop} (h : Still m) (hP : ∀ w, P w → I w) :
    Meets P m (fun _ => P) (fun _ => I) I := Idle.meets h (fun _ w _ => hP w) hP

theorem Still.keeps {m : Act σ α} (h : Still m) : Meets P m (fun _ => P) (fun _ => P) P :=
  h.meets fun _ hw => hw

theorem idle_external : Still (external : Act σ Unit) := .skip fun _ => trivial

theorem idle_answer : Still (answer : Act σ Bool) := .answer fun _ => trivial

theorem idle_raise (kind : Kind) : Still (raiseKind kind : Act σ α) := .raise trivial

theorem idle_look {β : Type} (f : World σ → β) : Still (look f : Act σ β) :=
  .look (fun _ => trivial) f

theorem idle_status : Still (status : Act σ Unit) := (idle_look _).bind fun _ => idle_external

theorem idle_upstream : Still (upstream : Act σ Unit) := by
  refine (idle_look _).bind fun config => Idle.ite (idle_raise _) ?_
  split
  · exact idle_raise _
  · exact idle_external

theorem idle_requireRunning : Still (requireRunning : Act σ Unit) :=
  (idle_look _).bind fun _ => Idle.ite (idle_raise _) (Idle.pure _)

theorem idle_awaitReady (n : Nat) : Still (awaitReady n : Act σ Unit) := by
  induction n with
  | zero => exact idle_raise _
  | succ n ih =>
    exact idle_answer.bind fun _ => Idle.ite (idle_raise _)
      (idle_answer.bind fun _ => Idle.ite (Idle.pure _) ih)

theorem idle_start : Still (start : Act σ Unit) :=
  idle_answer.bind fun _ => Idle.ite (idle_raise _)
    (idle_external.bind fun _ => idle_awaitReady _)

theorem idle_warned : Still (warned : Act σ Unit) :=
  idle_external.catching fun _ _ => Idle.ite (.pure _) (.raise trivial)

def Holds (record : Record) (w : World σ) : Prop :=
  w.file = .state record ∨ w.file = .missing ∧ record = {}

theorem meets_readState :
    Meets P (readState : Act σ Record) (fun record w => P w ∧ Holds record w) (fun _ => P) P := by
  refine Meets.bind (.look (fun _ _ h => h) fun _ h => h) fun file => ?_
  cases file with
  | missing => exact .pure fun w h => ⟨h.2, .inr ⟨h.1.symm, rfl⟩⟩
  | foreign => exact .raise fun w h => h.2
  | state record => exact .pure fun w h => ⟨h.2, .inl h.1.symm⟩

theorem Kept.spares_of_holds (h : Kept w₀ w) (hrecord : Holds record w) : record.Spares w₀ := by
  rcases hrecord with hfile | ⟨-, rfl⟩
  · exact h.spares record hfile
  · exact fun text _ => by simp

theorem idle_readState : Still (readState : Act σ Record) := by
  refine (idle_look _).bind fun file => ?_
  cases file with
  | missing => exact .pure _
  | foreign bytes => exact idle_raise _
  | state record => exact .pure _

theorem idle_attachSupervisor : Still (attachSupervisor : Act σ Unit) := by
  refine idle_requireRunning.bind fun _ => idle_answer.bind fun _ => Idle.ite idle_status ?_
  refine idle_readState.bind fun record => (idle_look _).bind fun config => Idle.ite idle_status ?_
  exact idle_answer.bind fun _ => Idle.ite (idle_external.bind fun _ => idle_status)
    (idle_external.bind fun _ => (idle_awaitReady _).bind fun _ => idle_external.bind fun _ =>
      idle_status)

/-! ## turning on -/

section Steps

variable {Q I : World σ → Prop}

theorem meets_change {f : World σ → World σ} (h : ∀ w, P w → Q (f w)) (hP : ∀ w, P w → I w)
    (hQ : ∀ w, Q w → I w) : Meets P (change f : Act σ Unit) (fun _ => Q) (fun _ => I) I :=
  .change (fun _ w hw => hP w hw) h (fun _ w hw => hQ _ (h w hw)) fun w hw => hQ _ (h w hw)

theorem meets_writeState {record : Record} (h : ∀ w, P w → Q { w with file := .state record })
    (hP : ∀ w, P w → I w) (hQ : ∀ w, Q w → I w) :
    Meets P (writeState record : Act σ Unit) (fun _ => Q) (fun _ => I) I := meets_change h hP hQ

theorem meets_raise {R : α → World σ → Prop} {kind : Kind} (hP : ∀ w, P w → I w) :
    Meets P (raiseKind kind : Act σ α) R (fun _ => I) I := .raise hP

theorem meets_look {β : Type} {f : World σ → β} (hP : ∀ w, P w → I w) :
    Meets P (look f : Act σ β) (fun a w => P w ∧ a = f w) (fun _ => I) I :=
  (Meets.look (fun _ w hw => hP w hw) hP).post (fun _ _ h => h.symm)

end Steps

theorem spares_default : ({} : Record).Spares w₀ := fun text _ => by simp

theorem meets_salvage (e : Exc) :
    Meets P (salvage e : Act σ Record) (fun record w => P w ∧ record = {}) (fun _ => P) P :=
  .ite (fun _ => idle_external.keeps.bind fun _ => .pure fun _ h => ⟨h, rfl⟩) fun _ =>
    .raise fun _ h => h

/-- A record, or an empty one for what cannot be read. -/
theorem meets_readRecord : Meets (Direct w₀) (catching readState salvage)
      (fun record w => Direct w₀ w ∧ record.Spares w₀) (fun _ => Direct w₀) (Direct w₀) := by
  refine Meets.catching (E := fun _ => Direct w₀) ?_ fun e => ?_
  · exact meets_readState.post
      (fun _ _ h => ⟨h.1, h.1.spares_of_holds h.2⟩)
  · exact (meets_salvage e).post
      (fun _ _ h => ⟨h.1, h.2 ▸ spares_default⟩)

theorem Direct.file (h : Direct w₀ w) {file : StateFile}
    (hspares : ∀ record, file = .state record → record.Spares w₀) :
    Direct w₀ { w with file := file } :=
  ⟨⟨h.config, h.startup, hspares, h.reads⟩, h.route⟩

theorem meets_prepare : Meets (Direct w₀) (prepare : Act σ Unit) (fun _ w => Direct w₀ w ∧ IsOff w)
      (fun _ => Direct w₀) (Direct w₀) := by
  rw [prepare]
  refine (idle_look _).keeps.bind fun config => .ite (fun _ => meets_raise fun _ h => h)
    fun _ => idle_upstream.keeps.bind fun _ => meets_readRecord.bind fun record => ?_
  refine (meets_look fun _ h => h.1).bind fun before => ?_
  -- the file that is put back, and the record that is written
  have hfacts : ∀ w, ((Direct w₀ w ∧ record.Spares w₀) ∧ before = w.file) →
      Direct w₀ w ∧ record.Spares w₀ ∧ ∀ r, before = .state r → r.Spares w₀ :=
    fun w h => ⟨h.1.1, h.1.2, fun r hr => h.1.1.spares r (by rw [← h.2, hr])⟩
  refine Meets.under (Meets.assuming fun hspares => ?_) hfacts
  refine (meets_writeState (Q := Direct w₀) (fun w h => h.write hspares.1) (fun _ h => h)
    fun _ h => h).bind fun _ => ?_
  refine Meets.bind (Q := fun _ => Direct w₀) (.catching idle_start.keeps fun e => ?_) fun _ => ?_
  · exact (meets_change (Q := Direct w₀) (fun w h => h.file hspares.2) (fun _ h => h)
      fun _ h => h).bind fun _ => .raise fun _ h => h
  · refine (meets_writeState (Q := fun w => Direct w₀ w ∧ IsOff w)
      (fun w h => ⟨h.write hspares.1, isOff_write rfl rfl⟩) (fun _ h => h) fun _ h => h.1).bind
      fun _ => ?_
    exact idle_status.meets fun _ h => h.1

variable [DecidableEq σ]

omit [DecidableEq σ] in
theorem meets_readOff : Meets (fun w => Direct w₀ w ∧ IsOff w) (readState : Act σ Record)
      (fun record w => Direct w₀ w ∧ record.Spares w₀ ∧ record.enabled = false ∧
        record.pending = false) (fun _ => Direct w₀) (Direct w₀) := by
  refine meets_readState.imp (fun _ h => h) (fun record w h => ⟨h.1.1,
    h.1.1.spares_of_holds h.2, ?_⟩) (fun _ _ h => h.1) fun _ h => h.1
  obtain ⟨⟨-, r, hr, hidle⟩, hfile | ⟨hfile, -⟩⟩ := h
  · rw [hr, StateFile.state.injEq] at hfile
    exact hfile ▸ hidle
  · rw [hr] at hfile
    contradiction

theorem meets_checkReady :
    Meets (Direct w₀) (checkReady : Act σ Unit) (fun _ w => Direct w₀ w ∧ IsOff w)
      (fun _ => Direct w₀) (Direct w₀) := by
  rw [checkReady]
  refine (idle_look _).keeps.bind fun before => meets_prepare.bind fun _ => ?_
  refine (idle_answer.meets fun _ h => h.1).bind fun ready =>
    ((idle_look _).meets fun _ h => h.1).bind fun config =>
    (idle_answer.meets fun _ h => h.1).bind fun off =>
    .ite (fun _ => meets_raise fun _ h => h.1) fun _ =>
    .ite (fun _ => meets_raise fun _ h => h.1) fun _ => ?_
  refine meets_readOff.bind fun record => Meets.assuming fun ⟨hspares, henabled, hpending⟩ => ?_
  refine (meets_writeState (Q := fun w => Direct w₀ w ∧ IsOff w)
    (fun w h => ⟨h.write (by exact hspares),
      isOff_write (by exact henabled) (by exact hpending)⟩) (fun _ h => h)
    fun _ h => h.1).bind fun _ => ?_
  exact idle_status.meets fun _ h => h.1

/-! ## the address -/

def World.route (w : World σ) (value : Option Url) : World σ :=
  { w with config := { w.config with baseUrl := value } }

def Noted (w₀ w : World σ) : Prop :=
  ∃ record, w.file = .state record ∧ record.previousUrl = w₀.config.baseUrl

omit [DecidableEq σ] in
theorem Kept.route (h : Kept w₀ w) (value : Option Url) : Kept w₀ (w.route value) :=
  ⟨h.config, h.startup, h.spares, h.reads⟩

theorem meets_setUrl {Q I : World σ → Prop} {value : Option Url}
    (hchange : ∀ w, P w → Q (w.route value))
    (hsame : ∀ w, P w → w.config.baseUrl = value → Q w) (hP : ∀ w, P w → I w)
    (hQ : ∀ w, Q w → I w) : Meets P (setUrl value) (fun _ => Q) (fun _ => I) I := by
  rw [setUrl]
  refine (meets_look hP).bind fun config => .ite (fun heq => .pure fun w h => hsame w h.1
    (by rw [← h.2, heq])) fun _ => ?_
  refine (idle_external.meets fun w h => hP w h.1).bind fun _ =>
    ((idle_look _).meets fun w h => hP w h.1).bind fun _ =>
    .ite (fun _ => meets_raise fun w h => hP w h.1) fun _ => ?_
  exact meets_change (fun w h => hchange w h.1) (fun w h => hP w h.1) hQ

/-- What `enable` knows before it changes anything. -/
structure Prepared (w₀ : World σ) (record : Record) : Prop where
  noted : record.previousUrl = w₀.config.baseUrl
  spares : record.Spares w₀

omit [DecidableEq σ] in
theorem meets_noteBefore {config : Config σ}
    (hspares : record.Spares w₀) (henabled : record.enabled = false)
    (hpending : record.pending = false) :
    Meets (fun w => Direct w₀ w ∧ config = w.config) (noteBefore config record)
      (fun record w => Direct w₀ w ∧ Prepared w₀ record) (fun _ => Direct w₀) (Direct w₀) := by
  have hwait : (record.enabled || record.pending) = false := by simp [henabled, hpending]
  rw [noteBefore, hwait, if_neg (by simp)]
  refine .ite (fun _ => meets_raise fun _ h => h.1) fun _ => ?_
  refine (meets_look fun _ h => h.1).bind fun startup => .pure fun w h => ⟨h.1.1, ?_, hspares⟩
  rw [h.1.2, h.1.1.route]

theorem meets_enable :
    Meets (fun w => Direct w₀ w ∧ IsOff w) (enable : Act σ Unit) (fun _ => Recoverable w₀)
      (fun _ => Recoverable w₀) (Recoverable w₀) := by
  have hdirect : ∀ w, Direct w₀ w → Recoverable w₀ w := fun _ h => h.recoverable
  have hkeep : ∀ w, Recoverable w₀ w → Recoverable w₀ w := fun _ h => h
  rw [enable]
  refine Meets.bind (meets_readOff.imp (fun _ h => h) (fun _ _ h => h) (fun _ => hdirect) hdirect)
    fun record => Meets.assuming fun hrecord => ?_
  refine (meets_look hdirect).bind fun config => ?_
  refine (idle_upstream.meets fun w h => hdirect w h.1).bind fun _ =>
    (idle_answer.meets fun w h => hdirect w h.1).bind fun valid =>
    .ite (fun _ => meets_raise fun w h => hdirect w h.1) fun _ => ?_
  refine Meets.bind ((meets_noteBefore hrecord.1 hrecord.2.1 hrecord.2.2).imp
    (fun _ h => h) (fun _ _ h => h) (fun _ => hdirect) hdirect) fun record =>
    Meets.assuming fun hprepared => ?_
  refine (meets_look hdirect).bind fun previousStartup => ?_
  refine Meets.imp (P := fun w => Direct w₀ w ∧ previousStartup = w₀.startup) ?_
    (fun w h => ⟨h.1, by rw [h.2, h.1.startup]⟩) (fun _ _ h => h) (fun _ _ h => h) hkeep
  refine Meets.assuming fun hstartup => ?_
  refine Meets.bind (Q := fun _ => Recoverable w₀) (.catching (E := fun _ => Recoverable w₀) ?_
    fun e => ?_) fun _ => idle_status.keeps
  · -- what may raise: the record is written before the address
    refine (meets_writeState (Q := fun w => Direct w₀ w ∧ Noted w₀ w)
      (fun w h => ⟨h.write (by exact hprepared.spares), _, rfl, by exact hprepared.noted⟩) hdirect
      fun w h => hdirect w h.1).bind fun _ => ?_
    refine (idle_external.meets fun w h => hdirect w h.1).bind fun _ =>
      (idle_answer.meets fun w h => hdirect w h.1).bind fun off =>
      .ite (fun _ => meets_raise fun w h => hdirect w h.1) fun _ => ?_
    refine Meets.bind (Q := fun _ w => Direct w₀ w ∧ Noted w₀ w) (.provided (fun heq => ?_)
      fun _ _ h => h) fun _ => ?_
    · -- a registration that the record does not name is none
      have hnone : w₀.startup = none := by
        refine Option.eq_none_iff_forall_ne_some.mpr fun text htext => ?_
        exact hprepared.spares text htext (by rw [← heq, hstartup, htext])
      exact meets_change (fun w h => ⟨h.1.register hnone.symm, h.2⟩) (fun w h => hdirect w h.1)
        fun w h => hdirect w h.1
    · refine Meets.bind (Q := fun _ => Recoverable w₀) (meets_setUrl
        (fun w h => ⟨h.1.toKept.route _, .inr ⟨rfl, h.2⟩⟩) (fun w h _ => hdirect w h.1)
        (fun w h => hdirect w h.1) fun _ h => h) fun _ => ?_
      exact meets_writeState (fun w h => h.write (by exact hprepared.spares)
        (by exact hprepared.noted)) (fun _ h => h) fun _ h => h
  · -- what is put back when it raised
    refine (meets_change (Q := Recoverable w₀) (fun w h => h.register hstartup) hkeep hkeep).bind
      fun _ => ?_
    refine Meets.bind (Q := fun _ => Recoverable w₀) (.provided (fun _ => ?_)
      fun _ _ h => h) fun _ => ?_
    · refine (idle_look _).keeps.bind fun current => .provided (fun _ => ?_) fun _ _ h => h
      exact meets_setUrl (fun w h => ⟨h.toKept.route _, .inl hprepared.noted⟩) (fun _ h _ => h)
        hkeep hkeep
    · refine Meets.bind (Q := fun _ => Recoverable w₀) (meets_writeState (fun w h =>
        h.write hprepared.spares hprepared.noted) hkeep hkeep) fun _ => ?_
      exact idle_external.keeps.bind fun _ => .raise hkeep

end Codexon.ObserverControl
