import Codexon.ObserverControl.Reversible

/-!
# Codexon.ObserverControl.Recovery

After any calls of `turn_on` and `turn_off`, the next `recover_direct` that returns brings back
what was there before the first.
-/

namespace Codexon.ObserverControl

open Attempt

variable {σ : Type} {home : PyStr} {w₀ w : World σ}

/-- What may be there before the first call: no address, or an official one, and no startup
registration of the manager. -/
structure Ordinary (home : PyStr) (w₀ : World σ) : Prop where
  url : w₀.config.baseUrl ∈ [none, some .openai, some .chatgpt]
  startup : ∀ text ∈ w₀.startup, mentionsProxy home text = false
  spares : ∀ record, w₀.file = .state record → record.Spares w₀
  reads : w₀.config.baseUrl ≠ none →
    ∀ e, some e ∈ w₀.recoveryReads → e.kind ≠ .osError ∧ e.kind ≠ .valueError

namespace Ordinary

theorem direct (h : Ordinary home w₀) : Direct w₀ w₀ := ⟨⟨rfl, rfl, h.spares, h.reads⟩, rfl⟩

theorem official_url (h : Ordinary home w₀) : official w₀.config.baseUrl = w₀.config.baseUrl := by
  have hurl := h.url
  simp only [List.mem_cons, List.not_mem_nil, or_false] at hurl
  rcases hurl with hurl | hurl | hurl <;> simp [official, hurl]

theorem ne_proxy (h : Ordinary home w₀) : w₀.config.baseUrl ≠ some .proxy := by
  have hurl := h.url
  rintro heq
  simp [heq] at hurl

end Ordinary

/-! ## turning off -/

/-- With this record, the address of before is known. -/
structure Restores (w₀ : World σ) (record : Record) (w : World σ) : Prop where
  recoverable : Recoverable w₀ w
  spares : record.Spares w₀
  official : w.config.baseUrl = some .proxy →
    official record.previousUrl = w₀.config.baseUrl

/-- An exception after which an empty record stands for what could not be read. -/
def Unread (w₀ : World σ) (e : Exc) (w : World σ) : Prop :=
  Recoverable w₀ w ∧ (e.kind = .valueError ∨ e.kind = .osError →
    w.config.baseUrl = some .proxy → w₀.config.baseUrl = none)

theorem meets_readForRecovery (hbefore : Ordinary home w₀) :
    Meets (Recoverable w₀) (readForRecovery : Act σ Record) (Restores w₀) (Unread w₀)
      (Recoverable w₀) := by
  intro t h
  have hreads : Recoverable w₀ { t.world with recoveryReads := t.world.recoveryReads.tail } :=
    ⟨⟨h.config, h.startup, h.spares,
      fun hurl e he => h.reads hurl e (List.mem_of_mem_tail he)⟩, h.route⟩
  rw [readForRecovery]
  cases hfault : t.world.recoveryReads.head?.join with
  | some e =>
    refine ⟨hreads, fun hkind _ => by_contra fun hurl => ?_⟩
    have hmem : some e ∈ t.world.recoveryReads :=
      List.mem_of_mem_head? (Option.join_eq_some_iff.mp hfault)
    have hother := h.reads hurl e hmem
    simp [hother.1, hother.2] at hkind
  | none =>
    cases hfile : t.world.file with
    | missing =>
      simp only [StateFile.read]
      exact ⟨hreads, spares_default, fun hproxy => by
        rcases h.route with hroute | ⟨-, record, hrecord, -⟩
        · exact absurd (hroute ▸ hproxy) hbefore.ne_proxy
        · simp [hfile] at hrecord⟩
    | foreign bytes =>
      simp only [StateFile.read]
      exact ⟨hreads, fun _ hproxy => by
        rcases h.route with hroute | ⟨-, record, hrecord, -⟩
        · exact absurd (hroute ▸ hproxy) hbefore.ne_proxy
        · simp [hfile] at hrecord⟩
    | state record =>
      simp only [StateFile.read]
      refine ⟨hreads, h.spares record hfile, fun hproxy => ?_⟩
      rcases h.route with hroute | ⟨-, r, hr, hnoted⟩
      · exact absurd (hroute ▸ hproxy) hbefore.ne_proxy
      · rw [hfile, StateFile.state.injEq] at hr
        rw [hr, hnoted, hbefore.official_url]

theorem meets_disableResume :
    Meets (Recoverable w₀) (disableResume : Act σ Unit) (fun _ => Recoverable w₀)
      (fun _ => Recoverable w₀) (Recoverable w₀) :=
  meets_change (fun _ h => ⟨⟨h.config, h.startup, h.spares, h.reads⟩, h.route⟩) (fun _ h => h)
    fun _ h => h

theorem Ordinary.isManaged_eq_false (h : Ordinary home w₀) {record : Record}
    (hspares : record.Spares w₀) {text : PyStr} (htext : text ∈ w₀.startup) :
    isManaged home record text = false := by
  simp [isManaged, h.startup text htext, hspares text htext]

variable [DecidableEq σ]

theorem meets_recoverDirect (hbefore : Ordinary home w₀) :
    Meets (Recoverable w₀) (recoverDirect home : Act σ Unit) (fun _ w => Direct w₀ w ∧ IsOff w)
      (fun _ => Recoverable w₀) (Recoverable w₀) := by
  have hdirect : ∀ w, Direct w₀ w → Recoverable w₀ w := fun _ h => h.recoverable
  have hkeep : ∀ w, Recoverable w₀ w → Recoverable w₀ w := fun _ h => h
  rw [recoverDirect]
  refine meets_disableResume.bind fun _ => ?_
  refine Meets.bind (Q := Restores w₀) (.catching (meets_readForRecovery hbefore) fun e => ?_)
    fun record => ?_
  · refine .ite (fun hkind => ?_) fun _ => .raise fun w h => h.1
    refine (idle_external.meets fun w h => h.1).bind fun _ => .pure fun w h => ?_
    exact ⟨h.1, spares_default, fun hproxy => (h.2 hkind hproxy).symm⟩
  have hrestores : ∀ w, Restores w₀ record w → Recoverable w₀ w := fun _ h => h.recoverable
  refine (meets_look hrestores).bind fun config => ?_
  refine Meets.bind (Q := fun _ w => Direct w₀ w ∧ record.Spares w₀) (.provided (fun hproxy => ?_)
    fun hother w h => ?_) fun _ => Meets.assuming fun hspares => ?_
  · refine meets_setUrl (fun w h => ?_) (fun w h hsame => ?_) (fun w h => h.1.recoverable)
      fun w h => hdirect w h.1
    · rw [decide_eq_true_eq] at hproxy
      exact ⟨⟨h.1.recoverable.toKept.route _, h.1.official (by rw [← h.2, hproxy])⟩, h.1.spares⟩
    · rw [decide_eq_true_eq] at hproxy
      exact ⟨⟨h.1.recoverable.toKept, by
        rw [hsame, h.1.official (by rw [← h.2, hproxy])]⟩, h.1.spares⟩
  · rw [decide_eq_true_eq, h.2] at hother
    exact ⟨⟨h.1.recoverable.toKept, h.1.recoverable.route.resolve_right fun hr => hother hr.1⟩,
      h.1.spares⟩
  refine (meets_look hdirect).bind fun current => ?_
  refine Meets.bind (Q := fun _ => Direct w₀) (.provided (fun hmanaged => ?_) fun _ w h => h.1)
    fun _ => ?_
  · -- the registration of before is not the manager's
    refine Meets.under
      (Meets.assuming (P := Direct w₀) (p := current = w₀.startup) fun hcurrent => ?_)
      (fun w h => ⟨h.1, by rw [h.2, h.1.startup]⟩)
    obtain ⟨text, htext, hmanaged⟩ := (Option.any_eq_true _ _).mp hmanaged
    have hother := hbefore.isManaged_eq_false hspares (hcurrent ▸ htext : text ∈ w₀.startup)
    simp [hother] at hmanaged
  · refine (idle_warned.meets hdirect).bind fun _ => (idle_warned.meets hdirect).bind fun _ =>
      (idle_warned.meets hdirect).bind fun _ => ?_
    refine (meets_writeState (Q := fun w => Direct w₀ w ∧ IsOff w)
      (fun w h => ⟨h.write (by exact hspares), isOff_write rfl rfl⟩) hdirect
      fun w h => hdirect w h.1).bind fun _ => ?_
    exact idle_status.meets fun w h => hdirect w h.1

theorem meets_turnOff (hbefore : Ordinary home w₀) :
    Meets (Recoverable w₀) (turnOff home : Act σ Unit) (fun _ => Recoverable w₀)
      (fun _ => Recoverable w₀) (Recoverable w₀) := by
  rw [turnOff]
  refine idle_external.keeps.bind fun _ => idle_answer.keeps.bind fun busy =>
    .ite (fun _ => meets_raise fun _ h => h) fun _ => meets_disableResume.bind fun _ => ?_
  exact (meets_recoverDirect hbefore).post (fun _ _ h => h.1.recoverable)

/-! ## turning on -/

/-- Unless a recovery failed, the address is that of before. -/
def Undone (w₀ : World σ) (e : Exc) (w : World σ) : Prop :=
  Recoverable w₀ w ∧ (e.recovery = false → Direct w₀ w)

omit [DecidableEq σ] in
theorem Direct.undone (h : Direct w₀ w) (e : Exc) : Undone w₀ e w := ⟨h.recoverable, fun _ => h⟩

omit [DecidableEq σ] in
theorem Recoverable.rewrite (h : Recoverable w₀ w) {record record' : Record}
    (hrecord : Holds record w) (hurl : record'.previousUrl = record.previousUrl)
    (hmanaged : record'.managedStartup = record.managedStartup) :
    Recoverable w₀ { w with file := .state record' } := by
  have hspares : record'.Spares w₀ := fun text htext =>
    hmanaged ▸ h.spares_of_holds hrecord text htext
  refine ⟨⟨h.config, h.startup, fun _ hr => StateFile.state.inj hr ▸ hspares, h.reads⟩,
    h.route.imp_right fun hproxy => ⟨hproxy.1, record', rfl, ?_⟩⟩
  obtain ⟨-, r, hr, hnoted⟩ := hproxy
  rcases hrecord with hfile | ⟨hfile, -⟩
  · rw [hr, StateFile.state.injEq] at hfile
    rw [hurl, ← hfile, hnoted]
  · rw [hr] at hfile
    contradiction

theorem meets_afterFailure (hbefore : Ordinary home w₀) (e : Exc) :
    Meets (Recoverable w₀) (afterFailure home e : Act σ Unit) (fun _ => Recoverable w₀)
      (Undone w₀) (Recoverable w₀) := by
  have hdirect : ∀ w, Direct w₀ w → Recoverable w₀ w := fun _ h => h.recoverable
  rw [afterFailure]
  refine Meets.bind (Q := fun _ => Direct w₀) (.catching (E := fun _ => Recoverable w₀)
    ((meets_recoverDirect hbefore).post fun _ _ h => h.1) fun _ =>
      .catching (E := fun _ => Recoverable w₀) ?_ fun e => ?_) fun _ => ?_
  · refine meets_readState.bind fun record => ?_
    refine Meets.bind (Q := fun _ => Recoverable w₀) (meets_writeState
      (fun w h => h.1.rewrite h.2 rfl rfl) (fun _ h => h.1) fun _ h => h) fun _ => ?_
    exact meets_raise fun _ h => h
  · exact .raise fun w h => ⟨h, fun hrecovery => Bool.noConfusion hrecovery⟩
  · have hend : Meets (Direct w₀) (do
          let off ← cancelled
          let record ← readState
          writeState { record with phase := if off then .off else .failed }
          raise e : Act σ Unit) (fun _ => Recoverable w₀) (fun _ => Direct w₀) (Direct w₀) := by
      refine idle_answer.keeps.bind fun off => meets_readState.bind fun record => ?_
      refine Meets.bind (Q := fun _ => Direct w₀) (meets_writeState (fun w h => h.1.write
        (by exact (h.1.spares_of_holds h.2 : record.Spares w₀))) (fun _ h => h.1)
        fun _ h => h) fun _ => ?_
      exact .raise fun _ h => h
    exact hend.imp (fun _ h => h) (fun _ _ h => h) (fun e w h => h.undone e) hdirect

theorem meets_turnOn (hbefore : Ordinary home w₀) :
    Meets (Direct w₀) (turnOn home : Act σ Unit) (fun _ => Recoverable w₀) (Undone w₀)
      (Recoverable w₀) := by
  have hdirect : ∀ w, Direct w₀ w → Recoverable w₀ w := fun _ h => h.recoverable
  have hundone : ∀ e w, Direct w₀ w → Undone w₀ e w := fun e _ h => h.undone e
  have hkeep : ∀ w, Recoverable w₀ w → Recoverable w₀ w := fun _ h => h
  rw [turnOn]
  refine Meets.bind (idle_external.keeps.imp (fun _ h => h) (fun _ _ h => h) hundone hdirect)
    fun _ => Meets.bind (idle_requireRunning.keeps.imp (fun _ h => h) (fun _ _ h => h) hundone
      hdirect) fun _ => Meets.bind ((idle_look _).keeps.imp (fun _ h => h) (fun _ _ h => h) hundone
      hdirect) fun config => .ite (fun _ => ?_) fun _ => ?_
  · exact idle_attachSupervisor.keeps.imp (fun _ h => h) (fun _ => hdirect) hundone hdirect
  · refine .catching (E := fun _ => Recoverable w₀) ?_ (meets_afterFailure hbefore)
    refine Meets.bind (meets_checkReady.imp (fun _ h => h) (fun _ _ h => h) (fun _ => hdirect)
      hdirect) fun _ => ?_
    refine (idle_answer.meets fun w h => hdirect w h.1).bind fun off =>
      .ite (fun _ => meets_raise fun w h => hdirect w h.1) fun _ => meets_enable.bind fun _ => ?_
    exact (idle_answer.meets hkeep).bind fun off =>
      .ite (fun _ => meets_raise hkeep) fun _ => .pure hkeep

theorem meets_turnOn_again :
    Meets (fun w => Recoverable w₀ w ∧ w.config.baseUrl = some .proxy) (turnOn home : Act σ Unit)
      (fun _ => Recoverable w₀) (fun _ => Recoverable w₀) (Recoverable w₀) := by
  rw [turnOn]
  refine (idle_external.meets fun _ h => h.1).bind fun _ =>
    (idle_requireRunning.meets fun _ h => h.1).bind fun _ =>
    (meets_look fun _ h => h.1).bind fun config => .ite (fun _ => ?_) fun hother => ?_
  · exact idle_attachSupervisor.keeps.under (fun _ h => h.1.1)
  · exact fun t h => absurd (h.2 ▸ h.1.2) hother

/-! ## runs -/

/-- The worlds that calls lead to, each of which may raise or be the last of its process. -/
inductive Run (home : PyStr) (w₀ : World σ) : World σ → Prop where
  | start : Run home w₀ w₀
  | turnOn {w : World σ} (faults : List (Fault Exc)) (answers : List Bool) :
      Run home w₀ w → Run home w₀ (turnOn home ⟨w, faults, answers⟩).2.world
  | turnOff {w : World σ} (faults : List (Fault Exc)) (answers : List Bool) :
      Run home w₀ w → Run home w₀ (turnOff home ⟨w, faults, answers⟩).2.world
  | recoverDirect {w : World σ} (faults : List (Fault Exc)) (answers : List Bool) :
      Run home w₀ w → Run home w₀ (recoverDirect home ⟨w, faults, answers⟩).2.world

theorem Recoverable.turnOn (hbefore : Ordinary home w₀) (h : Recoverable w₀ w)
    (faults : List (Fault Exc)) (answers : List Bool) :
    Recoverable w₀ (turnOn home ⟨w, faults, answers⟩).2.world := by
  rcases h.route with hroute | ⟨hproxy, -⟩
  · refine Meets.kept ((meets_turnOn hbefore).imp (fun _ h => h) (fun _ _ h => h)
      (fun _ _ h => h.1) fun _ h => h) ?_
    exact ⟨h.toKept, hroute⟩
  · exact Meets.kept meets_turnOn_again ⟨h, hproxy⟩

theorem Run.recoverable (hbefore : Ordinary home w₀) (h : Run home w₀ w) : Recoverable w₀ w := by
  induction h with
  | start => exact hbefore.direct.recoverable
  | turnOn faults answers _ ih => exact ih.turnOn hbefore faults answers
  | turnOff faults answers _ ih => exact Meets.kept (meets_turnOff hbefore) ih
  | recoverDirect faults answers _ ih =>
    exact Meets.kept ((meets_recoverDirect hbefore).post (fun _ _ h => h.1.recoverable)) ih

omit [DecidableEq σ] in
theorem Direct.config_eq (h : Direct w₀ w) : w.config = w₀.config := by
  rw [← h.config, ← h.route]

/-- After any calls, a `recover_direct` that returns brings all back; and a `turn_on` that
raises without a recovery that failed has brought the address back. -/
theorem turn_on_reversible (hbefore : Ordinary home w₀) (hrun : Run home w₀ w)
    (faults : List (Fault Exc)) (answers : List Bool) :
    (∀ t, recoverDirect home ⟨w, faults, answers⟩ = (.returned (), t) →
      t.world.config = w₀.config ∧ t.world.startup = w₀.startup ∧ IsOff t.world) ∧
    (w.config.baseUrl ≠ some .proxy →
      ∀ e t, turnOn home ⟨w, faults, answers⟩ = (.raised e, t) → e.recovery = false →
        t.world.config.baseUrl = w₀.config.baseUrl) := by
  have h := hrun.recoverable hbefore
  refine ⟨fun t ht => ?_, fun hother e t ht hrecovery => ?_⟩
  · have hend := meets_recoverDirect hbefore ⟨w, faults, answers⟩ h
    rw [ht] at hend
    exact ⟨hend.1.config_eq, hend.1.startup, hend.2⟩
  · have hdirect : Direct w₀ w := ⟨h.toKept, h.route.resolve_right fun hr => hother hr.1⟩
    have hend := meets_turnOn hbefore ⟨w, faults, answers⟩ hdirect
    rw [ht] at hend
    exact (hend.2 hrecovery).route

/-! ### a run -/

/-- An official address, and nothing else. -/
def direct : World Unit := { config := { baseUrl := some .openai, settings := () } }

/-- The next read of the state file in `recover_direct` raises. -/
def unread : World Unit := { direct with recoveryReads := [some { kind := .osError }] }

/-- The registration of an earlier version of the manager. -/
def legacy : World Unit := { direct with startup := some (py "--model-proxy codex") }

/-- After a `turn_on` in which all goes well. -/
def turnedOn (w : World Unit) : World Unit :=
  (turnOn (py "codex") ⟨w, [], [false, false, true, true, false, false, true]⟩).2.world

theorem ordinary_direct : Ordinary (py "codex") direct :=
  ⟨by decide, by simp [direct], by simp [direct], by simp [direct]⟩

theorem run_turnedOn : Run (py "codex") direct (turnedOn direct) := .turnOn _ _ .start

theorem turn_on_reversible_direct :
    (turnedOn direct).config.baseUrl = some .proxy ∧
    (∀ t, recoverDirect (py "codex") ⟨turnedOn direct, [], []⟩ = (.returned (), t) →
      t.world.config = direct.config ∧ t.world.startup = direct.startup ∧ IsOff t.world) :=
  ⟨by decide +kernel, (turn_on_reversible ordinary_direct run_turnedOn [] []).1⟩

/-- A second `turn_on`, which raises, leaves the address at the proxy; a record that could not be
read loses the address of before; and a registration that names the relay of this home is gone. -/
theorem turn_on_not_reversible :
    ((turnOn (py "codex") ⟨turnedOn direct, [], [false, false, true]⟩).1 =
        .raised { kind := .runtimeError } ∧
      (turnOn (py "codex")
        ⟨turnedOn direct, [], [false, false, true]⟩).2.world.config.baseUrl = some .proxy) ∧
    ((recoverDirect (py "codex") ⟨turnedOn unread, [], []⟩).1 = .returned () ∧
      (recoverDirect (py "codex") ⟨turnedOn unread, [], []⟩).2.world.config.baseUrl = none) ∧
    (recoverDirect (py "codex") ⟨legacy, [], []⟩).1 = .returned () ∧
      (recoverDirect (py "codex") ⟨legacy, [], []⟩).2.world.startup = none := by
  decide +kernel

end Codexon.ObserverControl
