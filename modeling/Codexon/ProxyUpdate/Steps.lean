import Codexon.ProxyUpdate

/-!
# Codexon.ProxyUpdate.Steps

What may follow what in a trace, and what each step of an update adds to one.
-/

namespace Codexon.ProxyUpdate

open Attempt

/-! ## traces -/

def Event.isStarted : Event → Bool
  | .started .. => true
  | _ => false

def Event.isStopped : Event → Bool
  | .stopped _ => true
  | _ => false

def Event.isChecked : Event → Bool
  | .checked .. => true
  | _ => false

/-- Since the last start of a relay, `source` was found stopped. -/
def FoundStopped (source : Source) (past : List Event) : Prop :=
  .stopped source ∈ past.takeWhile fun e => !e.isStarted

def lastHealth : List Event → Option Health
  | [] => none
  | .health answer :: _ => answer
  | _ :: past => lastHealth past

/-- The last `n` checks found one instance ready. -/
def Streak (role : Role) (inst : Option PyStr) (n : Nat) (past : List Event) : Prop :=
  (past.filter Event.isChecked).take n = List.replicate n (.checked role inst true)

def Ready (role : Role) (past : List Event) : Prop := ∃ inst, Streak role (some inst) 3 past

def cutoverRecorded (before : Journal) : List Event → Bool
  | [] => before.cutoverStarted
  | .published _ cutover :: past => cutover || cutoverRecorded before past
  | _ :: past => cutoverRecorded before past

def rollbackOpen (before : Journal) : List Event → Bool
  | [] => before.rollbackStarted
  | .published phase _ :: past =>
    if phase = .rollback then true else if phase.isTerminal then false
    else rollbackOpen before past
  | _ :: past => rollbackOpen before past

def Justified (before : Journal) (past : List Event) : Event → Prop
  | .started role source owned =>
    FoundStopped source past ∧ (∀ relay ∈ owned, FoundStopped relay past) ∧
      (role = .target → rollbackOpen before past = false)
  | .drain source id =>
    source.controlId = some id ∧ ∃ h, lastHealth past = some h ∧ h.inst = source.inst ∧
      h.controlId = some id ∧ h.responding = 0 ∧ h.unknown = 0
  | .force .. => False
  | .published .complete _ => Ready .target past
  | .published .cancelled _ => cutoverRecorded before past = false
  | _ => True

/-- Each event of a trace was justified by what was before it. -/
inductive Sound (before : Journal) : List Event → Prop where
  | nil : Sound before []
  | cons {e : Event} {past : List Event} :
      Justified before past e → Sound before past → Sound before (e :: past)

/-! ## the invariant -/

structure Inv (before : Journal) (w : World) : Prop where
  sound : Sound before w.trace
  read : ∀ fails ∈ w.unread, fails = false
  cutover : w.journal.cutoverStarted = cutoverRecorded before w.trace
  rollback : w.journal.rollbackStarted = rollbackOpen before w.trace

def At (before : Journal) (F : List Event → Prop) (w : World) : Prop := Inv before w ∧ F w.trace

def Raised (before : Journal) (e : Exc) (w : World) : Prop :=
  Inv before w ∧ (e = .cancelled → cutoverRecorded before w.trace = false)

def Event.isQuiet : Event → Bool
  | .started .. | .published .rollback _ => false
  | _ => true

/-- What stays known of a trace as long as nothing starts or rolls back. -/
def Quiet (F : List Event → Prop) : Prop := ∀ e past, e.isQuiet = true → F past → F (e :: past)

/-- What stays known when a phase is published, but for a rollback. -/
def Lasting (F : List Event → Prop) : Prop :=
  ∀ phase cutover past, phase ≠ .rollback → F past → F (.published phase cutover :: past)

theorem Quiet.lasting {F : List Event → Prop} (hF : Quiet F) : Lasting F := by
  intro phase cutover past hphase h
  refine hF _ _ ?_ h
  cases phase <;> first | rfl | exact absurd rfl hphase

theorem quiet_true : Quiet fun _ => True := fun _ _ _ _ => trivial

theorem FoundStopped.cons {source : Source} {past : List Event} {e : Event}
    (h : FoundStopped source past) (he : e.isStarted = false) :
    FoundStopped source (e :: past) := by
  simp only [FoundStopped, List.takeWhile_cons, he, Bool.not_false, if_true]
  exact List.mem_cons_of_mem _ h

theorem Event.isStarted_of_isQuiet {e : Event} (h : e.isQuiet = true) : e.isStarted = false := by
  cases e <;> simp_all [Event.isQuiet, Event.isStarted]

theorem quiet_foundStopped (source : Source) : Quiet (FoundStopped source) :=
  fun _ _ he h => h.cons (Event.isStarted_of_isQuiet he)

variable {before : Journal}

theorem quiet_closed (p : Prop) : Quiet fun past => p → rollbackOpen before past = false := by
  intro e past he h hp
  cases e with
  | published phase cutover =>
    cases phase <;> simp_all [Event.isQuiet, rollbackOpen, Phase.isTerminal]
  | _ => exact h hp

/-! ## steps -/

variable {F G : List Event → Prop} {α : Type}

/-- What `F` knows of the trace leads to what `G` does, whatever is raised or cut short. -/
abbrev Keeps (before : Journal) (F : List Event → Prop) (m : Act α)
    (G : α → List Event → Prop) : Prop :=
  Meets (At before F) m (fun a => At before (G a)) (Raised before) (Inv before)

abbrev Still (m : Act α) : Prop := Idle (· ≠ .cancelled) m

theorem foreign_ne (e : Exc) : e.foreign ≠ .cancelled := by cases e <;> simp [Exc.foreign]

theorem raised_of_ne {e : Exc} {w : World} (he : e ≠ .cancelled) (h : Inv before w) :
    Raised before e w := ⟨h, fun hc => absurd hc he⟩

theorem still_external : Still external :=
  Idle.catching (B := fun _ => True) (.skip fun _ => trivial) fun e _ => .raise (foreign_ne e)

theorem still_ask : Still ask :=
  Idle.catching (B := fun _ => True) (.answer fun _ => trivial) fun e _ => .raise (foreign_ne e)

theorem Still.meets {m : Act α} {P : World → Prop} (h : Still m)
    (hP : ∀ w, P w → Inv before w) : Meets P m (fun _ => P) (Raised before) (Inv before) :=
  Idle.meets h (fun _ w he hw => raised_of_ne he (hP w hw)) hP

theorem Still.at {m : Act α} (h : Still m) : Keeps before F m fun _ => F :=
  Still.meets h fun _ hw => hw.1

theorem meets_raise {Q : α → World → Prop} {e : Exc} (he : e ≠ .cancelled) :
    Meets (At before F) (raise e : Act α) Q (Raised before) (Inv before) :=
  .raise fun _ h => raised_of_ne he h.1

theorem meets_act {P : World → Prop} {Q : α → World → Prop} {effect : World → α × World}
    (hP : ∀ w, P w → Inv before w) (h : ∀ w, P w → Q (effect w).1 (effect w).2)
    (hQ : ∀ w, P w → Inv before (effect w).2) :
    Meets P (act effect) Q (Raised before) (Inv before) := by
  refine .catching (E := fun _ => Inv before) ?_ fun e => .raise fun w hw =>
    raised_of_ne (foreign_ne e) hw
  exact .step (fun _ w hw => hP w hw) h (fun _ w hw => hQ w hw) hQ

theorem meets_readJournal :
    Meets (At before F) readJournal (fun data w => At before F w ∧ data = w.journal)
      (Raised before) (Inv before) := by
  have hnext : ∀ w, Inv before w → Inv before { w with unread := w.unread.tail } := fun w h =>
    ⟨h.sound, fun b hb => h.read b (List.mem_of_mem_tail hb), h.cutover, h.rollback⟩
  refine meets_act (fun _ h => h.1) (fun w h => ⟨⟨hnext w h.1, h.2⟩, ?_⟩) fun w h => hnext w h.1
  have hread : w.unread.headD false = false := by
    cases hunread : w.unread with
    | nil => rfl
    | cons b rest => exact h.1.read b (by simp [hunread])
  exact if_neg (by simp only [hread, Bool.false_eq_true, not_false_iff])

def Event.isPublished : Event → Bool
  | .published .. => true
  | _ => false

theorem Inv.cons {w : World} (h : Inv before w) {e : Event} (he : e.isPublished = false)
    (hjust : Justified before w.trace e) : Inv before { w with trace := e :: w.trace } := by
  refine ⟨.cons hjust h.sound, h.read, h.cutover.trans ?_, h.rollback.trans ?_⟩ <;>
    cases e <;> simp_all [Event.isPublished, cutoverRecorded, rollbackOpen]

theorem meets_note {e : Event} (he : e.isPublished = false)
    (hjust : ∀ past, F past → Justified before past e) (hG : ∀ past, F past → G (e :: past)) :
    Keeps before F (note e) fun _ => G :=
  meets_act (fun _ h => h.1) (fun _ h => ⟨h.1.cons he (hjust _ h.2), hG _ h.2⟩)
    fun _ h => h.1.cons he (hjust _ h.2)

theorem meets_health (hF : ∀ answer past, F past → F (.health answer :: past)) :
    Keeps before F health fun current past => F past ∧ lastHealth past = current := by
  have hnext : ∀ w, Inv before w → Inv before { w with
      healths := w.healths.tail, trace := .health (w.healths.headD none) :: w.trace } := fun w h =>
    ⟨.cons trivial h.sound, h.read, h.cutover, h.rollback⟩
  exact meets_act (fun _ h => h.1) (fun w h => ⟨hnext w h.1, hF _ _ h.2, rfl⟩)
    fun w h => hnext w h.1

theorem meets_capture (current : Health) : Keeps before F (capture current) fun _ => F := by
  have hnext : ∀ w, Inv before w → Inv before { w with captures := w.captures.tail } := fun w h =>
    ⟨h.sound, h.read, h.cutover, h.rollback⟩
  exact meets_act (fun _ h => h.1) (fun w h => ⟨hnext w h.1, h.2⟩) fun w h => hnext w h.1

theorem meets_stopped (hF : Quiet F) (source : Source) : Keeps before F (stopped source)
    fun found past => F past ∧ (found = true → FoundStopped source past) := by
  refine (Still.at still_ask).bind fun found => .ite (fun _ => ?_) fun _ => .pure fun w h =>
    ⟨h.1, h.2, fun hfound => by contradiction⟩
  refine Meets.bind (Q := fun _ => At before fun past => F past ∧ FoundStopped source past)
    (meets_note rfl (fun _ _ => trivial) fun past h => ⟨hF _ _ rfl h, ?_⟩) fun _ =>
      .pure fun w h => ⟨h.1, h.2.1, fun _ => h.2.2⟩
  simp [FoundStopped, Event.isStarted]

/-! ## the journal -/

/-- What is written beside the phase takes nothing back. -/
def Extends (extra : Journal → Journal) : Prop :=
  ∀ j, (extra j).rollbackStarted = j.rollbackStarted ∧
    (j.cutoverStarted = true → (extra j).cutoverStarted = true)

theorem extends_id : Extends id := fun _ => ⟨rfl, fun h => h⟩

theorem Inv.publish {w : World} (h : Inv before w) {extra : Journal → Journal} {phase : Phase}
    (hextra : Extends extra)
    (hjust : Justified before w.trace (.published phase (extra w.journal).cutoverStarted)) :
    Inv before { w with
      journal := (extra w.journal).published phase
      trace := .published phase (extra w.journal).cutoverStarted :: w.trace } := by
  refine ⟨.cons hjust h.sound, h.read, ?_, ?_⟩
  · rw [cutoverRecorded, ← h.cutover]
    cases hcutover : w.journal.cutoverStarted with
    | true => simp [Journal.published, (hextra _).2 hcutover]
    | false => simp [Journal.published]
  · simp only [Journal.published, rollbackOpen, (hextra _).1, h.rollback]

theorem meets_publish {phase : Phase} {extra : Journal → Journal} (hextra : Extends extra)
    (hjust : ∀ cutover past, F past → Justified before past (.published phase cutover))
    (hG : ∀ cutover past, F past → G (.published phase cutover :: past)) :
    Keeps before F (publish phase extra) fun _ => G := by
  refine (Still.at still_external).bind fun _ => meets_readJournal.bind fun data => ?_
  refine Meets.bind (Q := fun _ => At before G) (meets_act (fun _ h => h.1.1)
    (fun _ h => ?_) fun _ h => ?_) fun _ => (Still.at (Idle.provided still_external))
  · obtain ⟨⟨hinv, hF⟩, rfl⟩ := h
    exact ⟨hinv.publish hextra (hjust _ _ hF), hG _ _ hF⟩
  · obtain ⟨⟨hinv, hF⟩, rfl⟩ := h
    exact hinv.publish hextra (hjust _ _ hF)

def Phase.isPlain : Phase → Bool
  | .rollback | .complete | .cancelled => false
  | _ => true

theorem meets_announce (hF : Lasting F) {phase : Phase} {extra : Journal → Journal}
    (hphase : phase.isPlain = true) (hextra : Extends extra) :
    Keeps before F (publish phase extra) fun _ => F := by
  refine meets_publish hextra (fun cutover past h => ?_) fun cutover past h => hF _ _ _ ?_ h
  · cases phase <;> trivial
  · rintro rfl
    exact absurd hphase (by decide)

theorem meets_publishRollback
    (hG : ∀ cutover past, F past → G (.published .rollback cutover :: past)) :
    Keeps before F (publish .rollback) fun _ => G :=
  meets_publish extends_id (fun _ _ _ => trivial) hG

theorem meets_allowed : Keeps before F allowed fun _ => F := by
  refine meets_readJournal.bind fun data => .ite (fun _ => .pure fun _ h => h.1) fun hcutover => ?_
  -- what may be cancelled has no cutover
  have hopen : ∀ w, At before F w ∧ data = w.journal →
      At before F w ∧ cutoverRecorded before w.trace = false := by
    rintro w ⟨h, rfl⟩
    exact ⟨h, by rw [← h.1.cutover]; simpa using hcutover⟩
  refine Meets.under (P := fun w => At before F w ∧ cutoverRecorded before w.trace = false) ?_ hopen
  have hinv : ∀ w, At before F w ∧ cutoverRecorded before w.trace = false → Inv before w :=
    fun _ h => h.1.1
  have hcancel : Meets (fun w => At before F w ∧ cutoverRecorded before w.trace = false)
      (raise .cancelled : Act Unit) (fun _ => At before F) (Raised before) (Inv before) :=
    .raise fun _ h => ⟨h.1.1, fun _ => h.2⟩
  refine Meets.bind (Still.meets (Idle.ite still_ask (.pure _)) hinv) fun _ =>
    .ite (fun _ => hcancel) fun _ => (Still.meets still_ask hinv).bind fun _ =>
    .ite (fun _ => hcancel) fun _ => (Still.meets still_ask hinv).bind fun _ =>
    .ite (fun _ => .pure fun _ h => h.1) fun _ => hcancel

theorem meets_beginSwitch (hF : Lasting F) : Keeps before F beginSwitch fun _ => F := by
  refine (Still.at still_external).bind fun _ => meets_allowed.bind fun _ =>
    meets_readJournal.bind fun data => ?_
  have hinv : ∀ w, At before F w ∧ data = w.journal → Inv before w := fun _ h => h.1.1
  have hextra : Extends fun data => { data with cutoverStarted := true } := fun _ =>
    ⟨rfl, fun _ => rfl⟩
  have hswitch : Meets (fun w => At before F w ∧ data = w.journal)
      (publish .switching fun data => { data with cutoverStarted := true })
      (fun _ => At before F) (Raised before) (Inv before) :=
    (meets_announce hF rfl hextra).under (fun _ h => h.1)
  by_cases hask : (data.operation && !data.cutoverStarted) = true
  · rw [if_pos hask]
    refine Meets.bind (Still.meets (still_external.bind fun _ => still_ask) hinv) fun refused =>
      .ite (fun _ => .raise fun w h => ⟨h.1.1, fun _ => ?_⟩) fun _ => hswitch
    rw [Bool.and_eq_true, Bool.not_eq_true'] at hask
    rw [← h.1.1.cutover, ← h.2, hask.2]
  · rw [if_neg hask]
    refine Meets.bind (Q := fun refused w => (At before F w ∧ data = w.journal) ∧ refused = false)
      (.pure fun _ h => ⟨h, rfl⟩) fun refused => Meets.assuming fun hrefused => ?_
    exact .ite (fun h => by rw [hrefused] at h; contradiction) fun _ => hswitch

end Codexon.ProxyUpdate
