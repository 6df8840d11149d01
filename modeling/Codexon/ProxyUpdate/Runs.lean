import Codexon.ProxyUpdate.Steps

/-!
# Codexon.ProxyUpdate.Runs

Runs of `replace`, each of which may be cut off anywhere: every event of theirs is justified by
what was before it.
-/

namespace Codexon.ProxyUpdate

open Attempt

variable {before : Journal} {F : List Event → Prop}

/-! ## readiness -/

variable {inst : Option PyStr} {past : List Event} {role : Role}

theorem Streak.cons {n : Nat}
    (h : Streak role inst n past) : Streak role inst (n + 1) (.checked role inst true :: past) := by
  rw [Streak] at h ⊢
  rw [List.filter_cons_of_pos (by rfl), List.take_succ_cons, h, List.replicate_succ]

theorem streak_zero (role : Role) (inst : Option PyStr) (past : List Event) :
    Streak role inst 0 past := by simp [Streak]

/-- What is known when a check is noted. -/
def Counted (role : Role) (last : Option PyStr) (consecutive : Nat) (past : List Event) : Prop :=
  Streak role last consecutive past ∧ (consecutive ≠ 0 → last.isSome = true)

variable {consecutive : Nat} {last : Option PyStr}

theorem Counted.next {valid : Bool}
    (h : Counted role last consecutive past)
    (hvalid : valid = true → inst.isSome = true) :
    Counted role inst (if valid && inst = last then consecutive + 1 else if valid then 1 else 0)
      (.checked role inst valid :: past) := by
  cases valid with
  | false => exact ⟨streak_zero _ _ _, fun hne => absurd rfl hne⟩
  | true =>
    refine ⟨?_, fun _ => hvalid rfl⟩
    by_cases hlast : inst = last
    · subst hlast
      simpa using h.1.cons
    · simpa [hlast] using (streak_zero role inst past).cons

theorem meets_targetReady (hF : Quiet F) (current : Option Health) (source : Source) :
    Keeps before (fun past => F past ∧ Counted role last consecutive past)
      (targetReady role current source) fun valid past => F past ∧ Counted role (current.map Health.inst)
        (if valid && current.map Health.inst = last then consecutive + 1
          else if valid then 1 else 0) past := by
  refine Meets.bind (Q := fun valid w => At before (fun past => F past ∧
      Counted role last consecutive past) w ∧ (valid = true → current.isSome = true)) ?_
    fun valid => Meets.assuming fun hvalid => ?_
  · cases current with
    | none => exact .pure fun _ h => ⟨h, fun hfalse => by contradiction⟩
    | some h =>
      refine .ite (fun _ => .pure fun _ h => ⟨h, fun _ => rfl⟩) fun _ => ?_
      exact (Still.at still_ask).post (fun _ _ h => ⟨h, fun _ => rfl⟩)
  · refine Meets.bind (meets_note rfl (fun _ _ => trivial) fun past h => ⟨hF _ _ rfl h.1,
      h.2.next (by simpa using hvalid)⟩) fun _ => .pure fun _ h => h

theorem Streak.of_le {m n : Nat}
    (h : Streak role inst n past) (hle : m ≤ n) : Streak role inst m past := by
  rw [Streak] at h ⊢
  rw [← Nat.min_eq_left hle, ← List.take_take, h, List.take_replicate]

theorem Counted.ready
    (h : Counted role last consecutive past) (hthree : 3 ≤ consecutive) : Ready role past := by
  obtain ⟨inst, rfl⟩ := Option.isSome_iff_exists.mp (h.2 (by omega))
  exact ⟨inst, h.1.of_le hthree⟩

theorem meets_readyLoop (hF : Quiet F) (role : Role) (source : Source) (n consecutive : Nat)
    (last : Option PyStr) :
    Keeps before (fun past => F past ∧ Counted role last consecutive past)
      (readyLoop role source n consecutive last)
      fun _ past => F past ∧ Ready role past := by
  induction n generalizing consecutive last with
  | zero => exact .halt fun _ h => h.1
  | succ n ih =>
    refine (Still.at still_ask).bind fun late => .ite (fun _ => meets_raise (by simp)) fun _ => ?_
    refine meets_allowed.bind fun _ => (meets_health fun _ _ h => ⟨hF _ _ rfl h.1, h.2⟩).bind
      fun current => ?_
    refine Meets.bind ((meets_targetReady hF current source).under fun _ h => ⟨h.1, h.2.1⟩)
      fun valid => ?_
    refine .ite (fun hthree => .pure fun w h => ⟨h.1, h.2.1, h.2.2.ready hthree⟩) fun _ => ?_
    exact (Still.at still_external).bind fun _ => ih _ _

theorem meets_ready (hF : Quiet F) (fuel : Nat) (role : Role) (source : Source) :
    Keeps before F (ready fuel role source) fun _ past => F past ∧ Ready role past :=
  (meets_readyLoop hF role source fuel 0 none).under
    (fun _ h => ⟨h.1, h.2, streak_zero _ _ _, fun hne => absurd rfl hne⟩)

/-! ## draining -/

theorem meets_orderDrain (hF : Quiet F) {h : Health} {source : Source}
    (hinst : h.inst = source.inst) :
    Keeps before (fun past => F past ∧ lastHealth past = some h) (orderDrain false h source)
      fun _ => F := by
  have hlast : Lasting fun past => F past ∧ lastHealth past = some h :=
    fun phase cutover past hphase hp => ⟨hF.lasting _ _ _ hphase hp.1, hp.2⟩
  have hwait : Keeps before (fun past => F past ∧ lastHealth past = some h) (do
      publish .waiting
      external
      return false) fun _ => F :=
    (meets_announce hlast rfl extends_id).bind fun _ => (Still.at still_external).bind fun _ =>
      .pure fun w hw => ⟨hw.1, hw.2.1⟩
  rw [orderDrain]
  refine .ite (fun _ => hwait) fun hknown => .ite (fun _ => hwait) fun hsilent => ?_
  refine .ite (fun _ => meets_raise (by simp)) fun hid => .ite (fun _ => meets_raise (by simp))
    fun hsame => ?_
  refine (meets_beginSwitch hlast).bind fun _ => (meets_announce hlast rfl extends_id).bind
    fun _ => ?_
  refine Meets.bind (Q := fun _ => At before fun past => F past ∧ lastHealth past = some h)
    (.provided (fun _ => ?_) fun _ _ hw => hw) fun _ => ?_
  · exact (Still.at still_external).bind fun _ => meets_allowed.bind fun _ =>
      Still.at still_external
  · refine (meets_note rfl (fun past hp => ?_) fun past hp => hF _ _ rfl hp.1).bind fun _ =>
      .pure fun _ hw => hw
    -- the order is for the relay that answered last
    have hcontrol : h.controlId = some (h.controlId.getD []) := by
      cases hnone : h.controlId with
      | none => simp [hnone, isControlId] at hid
      | some id => rfl
    refine ⟨?_, h, hp.2, hinst, hcontrol, by simpa using hsilent, by simpa using hknown⟩
    rw [← hcontrol]
    exact (not_not.mp hsame).symm

theorem meets_settled (current : Option Health) : Keeps before F (settled current) fun _ => F := by
  refine (Still.at still_ask).bind fun exited => .ite (fun _ => .pure fun _ h => h) fun _ => ?_
  cases current with
  | none => exact Still.at still_ask
  | some h => exact .pure fun _ hw => hw

theorem meets_finishRound (hF : Quiet F) {again : Bool → Bool → Bool → Act Bool}
    (hagain : ∀ drainSent forceSent deadline, Keeps before F (again drainSent forceSent deadline)
      fun _ => F)
    (current : Option Health) (drainSent forceSent deadline : Bool) :
    Keeps before F (finishRound again current drainSent forceSent deadline) fun _ => F := by
  refine (meets_settled current).bind fun done => .ite (fun _ => ?_) fun _ => ?_
  · refine (meets_announce hF.lasting rfl extends_id).bind fun _ => (Still.at still_ask).bind
      fun late => .ite (fun _ => meets_raise (by simp)) fun _ => ?_
    exact (Still.at still_external).bind fun _ => hagain _ _ _
  · refine (meets_announce hF.lasting (by split <;> rfl) extends_id).bind fun _ => ?_
    exact (Still.at still_external).bind fun _ => hagain _ _ _

theorem meets_drainLoop (hF : Quiet F) (source : Source) (n : Nat)
    (drainSent forceSent deadline : Bool) :
    Keeps before F (drainLoop (pure false) false source n drainSent forceSent deadline)
      fun _ => F := by
  induction n generalizing drainSent forceSent deadline with
  | zero => exact .halt fun _ h => h.1
  | succ n ih =>
    refine meets_allowed.bind fun _ => (meets_stopped hF source).bind fun found =>
      .ite (fun _ => .pure fun w h => ⟨h.1, h.2.1⟩) fun _ => ?_
    refine Meets.under (P := At before F) ?_ (fun _ h => ⟨h.1, h.2.1⟩)
    refine Meets.bind (Still.at (Idle.ite still_ask (.pure _))) fun released =>
      .ite (fun _ => .pure fun _ h => h) fun _ => ?_
    refine (meets_health fun _ _ h => hF _ _ rfl h).bind fun current =>
      .ite (fun _ => meets_raise (by simp)) fun hsame => ?_
    -- nobody asks for force
    refine Meets.bind (Q := fun force w => At before (fun past => F past ∧
      lastHealth past = current) w ∧ force = false) (.pure fun _ h => ⟨h, rfl⟩)
      fun force => Meets.assuming fun hforce => ?_
    subst hforce
    cases current with
    | none =>
      exact (meets_finishRound hF ih none drainSent forceSent deadline).under
        (fun _ h => ⟨h.1, h.2.1⟩)
    | some h =>
      have hinst : h.inst = source.inst := by simpa using hsame
      refine Meets.bind (Q := fun _ => At before fun past => F past ∧ lastHealth past = some h)
        (.provided (fun hforce => by simp at hforce) fun _ _ hw => hw) fun _ => ?_
      refine Meets.bind (Q := fun _ => At before F) (.ite (fun _ => .pure fun _ hw =>
        ⟨hw.1, hw.2.1⟩) fun _ => meets_orderDrain hF hinst) fun sent => .ite (fun _ => ?_)
        fun _ => ih _ _ _
      exact .ite (fun hforce => by simp at hforce) fun _ =>
        meets_finishRound hF ih (some h) true forceSent deadline

theorem meets_drain (hF : Quiet F) (fuel : Nat) (source : Source) :
    Keeps before F (drain fuel source) fun _ => F :=
  (meets_drainLoop hF source fuel false false false).bind fun _ => .pure fun _ h => h

/-! ## starting -/

def Cleared (before : Journal) (role : Role) (owned : Option Source) (past : List Event) : Prop :=
  (∀ relay ∈ owned, FoundStopped relay past) ∧
    (role = .target → rollbackOpen before past = false)

theorem quiet_cleared (role : Role) (owned : Option Source) :
    Quiet (Cleared before role owned) := fun e past he h =>
  ⟨fun relay hrelay => quiet_foundStopped relay e past he (h.1 relay hrelay),
    quiet_closed _ e past he h.2⟩

/-- Nothing is known of the trace. -/
abbrev Any (_ : List Event) : Prop := True

theorem at_any {w : World} (h : Inv before w) : At before Any w := ⟨h, trivial⟩

theorem meets_start (role : Role) (command : Command) (source : Source) (owned : Option Source) :
    Keeps before (Cleared before role owned) (start role command source owned) fun _ => Any := by
  refine meets_allowed.bind fun _ => (meets_stopped (quiet_cleared _ _) source).bind
    fun found => .ite (fun hfound => ?_) fun _ => meets_raise (by simp)
  refine (Still.at still_external).bind fun _ => meets_allowed.bind fun _ =>
    (Still.at (Idle.provided still_external)).bind fun _ =>
    (Still.at (Idle.provided still_external)).bind fun _ => ?_
  exact meets_note rfl (fun past h => ⟨h.2 hfound, h.1.1, h.1.2⟩) fun _ _ => trivial

theorem meets_restore (fuel : Nat) (source : Source) (owned : Option Source) :
    Keeps before (fun past => ∀ relay ∈ owned, FoundStopped relay past) (restore fuel source owned)
      fun _ => Any := by
  refine Meets.bind (Q := fun _ => At before (Cleared before .former owned))
    (meets_publishRollback fun cutover past h => ⟨fun relay hrelay => (h relay hrelay).cons rfl,
      fun hrole => by contradiction⟩) fun _ => ?_
  refine (meets_start _ _ _ _).bind fun _ => (meets_ready quiet_true _ _ _).bind fun _ => ?_
  exact (meets_announce quiet_true.lasting rfl extends_id).under (fun _ h => at_any h.1)

theorem meets_targetReady_any (role : Role) (current : Option Health) (source : Source) :
    Keeps before Any (targetReady role current source) fun _ => Any :=
  (meets_targetReady quiet_true current source).imp
    (fun _ h => ⟨h.1, trivial, streak_zero role none _, fun hne => absurd rfl hne⟩)
    (fun _ _ h => at_any h.1) (fun _ _ h => h) fun _ h => h

theorem meets_alreadyRestored (fuel : Nat) (current : Health) (source : Source) :
    Keeps before Any (alreadyRestored fuel current source) fun _ => Any := by
  refine .ite (fun _ => .pure fun _ h => h) fun _ => .catching (E := Raised before) ?_ fun e => ?_
  · refine (meets_targetReady_any _ _ _).bind fun valid => .ite (fun _ => ?_)
      fun _ => .pure fun _ h => h
    refine (meets_ready quiet_true _ _ _).bind fun _ => Meets.bind (Q := fun _ => At before Any)
      ((meets_announce quiet_true.lasting rfl extends_id).under fun _ h => at_any h.1) fun _ =>
        .pure fun _ h => h
  · cases e with
    | cancelled => exact .raise fun _ h => h
    | runtimeError busy => exact .pure fun _ h => at_any h.1
    | osError => exact .pure fun _ h => at_any h.1
    | other => exact .raise fun _ h => h

theorem meets_rollback (fuel : Nat) (data : Journal) :
    Keeps before Any (rollback fuel data) fun _ => Any := by
  refine meets_allowed.bind fun _ => ?_
  cases data.source with
  | none => exact meets_raise (by simp)
  | some source =>
    refine Meets.bind (Still.at (Idle.ite still_ask (.pure _))) fun broken =>
      .ite (fun _ => meets_raise (by simp)) fun _ => ?_
    refine Meets.bind (Q := fun _ => At before Any) (meets_publishRollback fun _ _ _ => trivial)
      fun _ => (meets_health fun _ _ _ => trivial).bind fun current => ?_
    refine Meets.under (P := At before Any) ?_ (fun _ h => at_any h.1)
    cases current with
    | none =>
      exact (meets_restore fuel source none).under (fun _ h => ⟨h.1, by simp⟩)
    | some h =>
      refine (meets_alreadyRestored fuel h source).bind fun restored =>
        .ite (fun _ => .pure fun _ hw => hw) fun _ => (meets_capture h).bind fun owned => ?_
      cases data.command with
      | none => exact meets_raise (by simp)
      | some command =>
        refine .ite (fun _ => meets_raise (by simp)) fun _ =>
          (meets_drain quiet_true fuel owned).bind fun _ =>
          (meets_stopped quiet_true owned).bind fun found => .ite (fun hfound => ?_)
          fun _ => meets_raise (by simp)
        exact (meets_restore fuel source (some owned)).under
          (fun w hw => ⟨hw.1, by simpa using hw.2.2 hfound⟩)

/-! ## replacing -/

theorem Meets.any {m : Act Unit} (h : Keeps before Any m fun _ => Any) :
    Keeps before F m fun _ => Any :=
  h.imp (fun _ hw => at_any hw.1) (fun _ _ hw => hw) (fun _ _ hw => hw) fun _ hw => hw

theorem meets_readyComplete (fuel : Nat) (source : Source) : Keeps before F (do
        ready fuel .target source
        publish .complete) fun _ => Any :=
  Meets.any ((meets_ready quiet_true _ _ _).bind fun _ =>
    meets_publish extends_id (fun _ _ h => h.2) fun _ _ _ => trivial)

theorem meets_publishCancelled :
    Meets (Raised before .cancelled) (publish .cancelled) (fun _ => At before Any)
      (Raised before) (Inv before) := by
  have hpublish : Keeps before (fun past => cutoverRecorded before past = false) (publish .cancelled)
    fun _ => Any :=
    meets_publish extends_id (fun _ _ h => h) fun _ _ _ => trivial
  exact hpublish.under (fun _ h => ⟨h.1, h.2 rfl⟩)

abbrev Closed (before : Journal) (past : List Event) : Prop := rollbackOpen before past = false

theorem quiet_noRollback : Quiet (Closed before) := fun e past he h =>
  quiet_closed True e past he (fun _ => h) trivial

theorem meets_switch (fuel : Nat) (command : Command) (source : Source) :
    Keeps before (Closed before) (switch fuel command source) fun _ => Any := by
  refine meets_allowed.bind fun _ => (meets_beginSwitch quiet_noRollback.lasting).bind fun _ =>
    (meets_announce quiet_noRollback.lasting rfl extends_id).bind fun _ => ?_
  refine .catching (E := Raised before) ?_ fun e => ?_
  · refine Meets.bind ((meets_start .target command source none).under
      (fun _ h => ⟨h.1, by simp, fun _ => h.2⟩))
      fun _ => (meets_announce quiet_true.lasting rfl extends_id).bind fun _ => ?_
    exact meets_readyComplete fuel source
  · have hrollback : Meets (Inv before) (do
        publish .rollback
        rollback fuel (← readJournal)) (fun _ => At before Any) (Raised before) (Inv before) := by
      refine Meets.under (P := At before Any) ?_ (fun _ h => at_any h)
      refine Meets.bind (Q := fun _ => At before Any) (meets_publishRollback fun _ _ _ => trivial)
        fun _ => meets_readJournal.bind fun data => ?_
      exact (meets_rollback fuel data).under (fun _ h => h.1)
    have hraised : ∀ e w, Raised before e w → Inv before w := fun _ _ h => h.1
    cases e with
    | cancelled => exact .raise fun _ h => h
    | _ => exact hrollback.under (hraised _)

theorem meets_resume (fuel : Nat) (command : Command) (source : Source) :
    Keeps before Any (resume fuel command source) fun _ => Any := by
  refine meets_readJournal.bind fun data => .ite (fun _ => ?_) fun hclosed => ?_
  · exact (meets_rollback fuel data).under (fun _ h => h.1)
  have hnone : data.rollbackStarted = false := by
    rw [Bool.or_eq_true, not_or] at hclosed
    simpa using hclosed.2
  refine Meets.under (P := At before (Closed before)) ?_
    (fun w h => ⟨h.1.1, by rw [Closed, ← h.1.1.rollback, ← h.2, hnone]⟩)
  refine (meets_health fun _ _ h => quiet_noRollback _ _ rfl h).bind fun current => ?_
  refine Meets.under (P := At before (Closed before)) ?_ (fun _ h => ⟨h.1, h.2.1⟩)
  have hdrain : Keeps before (Closed before) (do
      drain fuel source
      switch fuel command source) fun _ => Any :=
    (meets_drain quiet_noRollback fuel source).bind fun _ => meets_switch fuel command source
  cases current with
  | none =>
    refine (meets_stopped quiet_noRollback source).bind fun found => Meets.under
      (P := At before (Closed before)) (.ite (fun _ => meets_switch fuel command source)
      fun _ => hdrain) (fun _ h => ⟨h.1, h.2.1⟩)
  | some h =>
    refine .ite (fun _ => ?_) fun _ => hdrain
    refine .catching (E := Raised before) (meets_readyComplete fuel source) fun e => ?_
    have hraised : ∀ e w, Raised before e w → At before Any w := fun _ _ h => at_any h.1
    cases e with
    | cancelled => exact .raise fun _ h => h
    | _ =>
      exact (meets_rollback fuel data).under (hraised _)

variable (scope : PyStr) (replacement : Source → Command)

theorem meets_begin (fuel : Nat) (data : Journal) :
    Keeps before Any (begin scope replacement fuel data) fun _ => Any := by
  refine (meets_health fun _ _ _ => trivial).bind fun current => ?_
  refine Meets.under (P := At before Any) ?_ (fun _ h => at_any h.1)
  cases current with
  | none => exact meets_raise (by simp)
  | some h =>
    refine .ite (fun _ => meets_raise (by simp)) fun _ => (meets_capture h).bind fun source =>
      (Still.at still_external).bind fun _ => (meets_targetReady_any _ _ _).bind fun valid =>
      .ite (fun _ => meets_readyComplete fuel _) fun _ =>
      .ite (fun _ => meets_raise (by simp)) fun _ => ?_
    have hextra : Extends fun data => { data with
        source := some source, command := some (replacement source), scope := some scope } :=
      fun _ => ⟨rfl, fun h => h⟩
    exact (meets_announce quiet_true.lasting rfl hextra).bind fun _ => meets_resume fuel _ _

theorem meets_republish {phase : Phase} {extra : Journal → Journal} (hextra : Extends extra)
    (hphase : phase.isTerminal = false) : Keeps before Any (publish phase extra) fun _ => Any := by
  refine meets_publish hextra (fun cutover past _ => ?_) fun _ _ _ => trivial
  cases phase <;> trivial

theorem meets_attempt (fuel : Nat) {data : Journal}
    (hphase : (data.phase.getD .queued).isTerminal = false) :
    Keeps before Any (attempt scope replacement fuel data) fun _ => Any := by
  have hextra : Extends fun data => { data with scope := some scope } := fun _ => ⟨rfl, fun h => h⟩
  refine meets_allowed.bind fun _ => .ite (fun _ => meets_raise (by simp)) fun _ =>
    (Still.at still_external).bind fun _ => (meets_republish hextra hphase).bind fun _ =>
    meets_allowed.bind fun _ => ?_
  cases data.source with
  | none => exact meets_begin scope replacement fuel data
  | some source => exact meets_resume fuel _ source

theorem meets_recovers (fuel : Nat) (saved : Journal) :
    Keeps before Any (recovers fuel saved) fun _ => Any := by
  rw [recovers]
  cases saved.source with
  | none => exact .pure fun _ h => h
  | some source =>
    refine .ite (fun _ => .pure fun _ h => h) fun _ => .catching (E := Raised before) ?_
      fun e => ?_
    · refine (meets_stopped quiet_true source).bind fun found => .ite (fun _ => ?_)
        fun _ => .pure fun _ h => at_any h.1
      exact (Meets.any (meets_rollback fuel saved)).bind fun _ => .pure fun _ h => h
    · have hraise : e ≠ .cancelled → Meets (Raised before e) (do
          publish .rollback
          raise e : Act Bool) (fun _ => At before Any) (Raised before) (Inv before) := by
        intro he
        refine Meets.under (P := At before Any) ?_ (fun _ h => at_any h.1)
        exact Meets.bind (Q := fun _ => At before Any)
          (meets_publishRollback fun _ _ _ => trivial) fun _ => meets_raise he
      cases e with
      | cancelled => exact meets_publishCancelled.bind fun _ => .pure fun _ h => h
      | _ => exact hraise (by simp)

theorem meets_handle (fuel : Nat) (e : Exc) :
    Meets (Raised before e) (handle fuel e) (fun _ => At before Any) (Raised before)
      (Inv before) := by
  have hrest : e ≠ .cancelled → Meets (Raised before e) (do
      let saved ← readJournal
      if ← recovers fuel saved then return ()
      else
        let now ← readJournal
        if now.phase = some .rollback then
          publish .rollback
          raise e
        else publish .failed) (fun _ => At before Any) (Raised before) (Inv before) := by
    intro he
    refine Meets.under (P := At before Any) ?_ (fun _ h => at_any h.1)
    refine meets_readJournal.bind fun saved => Meets.under (P := At before Any) ?_ (fun _ h => h.1)
    refine (meets_recovers fuel saved).bind fun done => .ite (fun _ => .pure fun _ h => h) fun _ =>
      meets_readJournal.bind fun now => Meets.under (P := At before Any) ?_ (fun _ h => h.1)
    refine .ite (fun _ => ?_) fun _ => meets_announce quiet_true.lasting rfl extends_id
    exact Meets.bind (Q := fun _ => At before Any) (meets_publishRollback fun _ _ _ => trivial)
      fun _ => meets_raise he
  cases e with
  | cancelled => exact meets_publishCancelled
  | _ => exact hrest (by simp)

theorem meets_replace (fuel : Nat) :
    Meets (Inv before) (replace scope replacement fuel) (fun _ => Inv before)
      (fun _ => Inv before) (Inv before) := by
  refine .catching (E := Raised before) ?_ fun e => ?_
  · refine Meets.imp (P := At before Any) (Q := fun _ => At before Any) ?_ (fun _ h => at_any h)
      (fun _ _ h => h.1) (fun _ _ h => h) fun _ h => h
    refine (Still.at still_external).bind fun _ => meets_readJournal.bind fun data =>
      Meets.under (P := At before Any) ?_ (fun _ h => h.1)
    refine .ite (fun _ => Still.at still_external) fun hopen => ?_
    have hphase : (data.phase.getD .queued).isTerminal = false := by
      cases hphase : data.phase with
      | none => rfl
      | some phase => simpa [hphase] using hopen
    exact (meets_republish extends_id hphase).bind fun _ =>
      (meets_attempt scope replacement fuel hphase).catching (meets_handle fuel)
  · split
    · exact .pure fun _ h => h.1
    · exact .raise fun _ h => h.1

/-! ## runs -/

/-- The worlds that runs of `replace` lead to, each of which may be cut off anywhere. -/
inductive Run (scope : PyStr) (replacement : Source → Command) (w₀ : World) : World → Prop where
  | start : Run scope replacement w₀ w₀
  | replace {w : World} (fuel : Nat) (faults : List (Fault Exc)) (answers : List Bool) :
      Run scope replacement w₀ w →
        Run scope replacement w₀ (replace scope replacement fuel ⟨w, faults, answers⟩).2.world

theorem Run.inv {w₀ w : World} (h : Run scope replacement w₀ w)
    (hbegin : Inv w₀.journal w₀) : Inv w₀.journal w := by
  induction h with
  | start => exact hbegin
  | replace fuel faults answers _ ih => exact (meets_replace scope replacement fuel).kept ih

/-- As long as the journal can be read, every event of every run is justified by what was before
it. -/
theorem replacement_justified {w₀ w : World} (htrace : w₀.trace = [])
    (hread : ∀ fails ∈ w₀.unread, fails = false) (h : Run scope replacement w₀ w) :
    Sound w₀.journal w.trace :=
  (h.inv scope replacement ⟨htrace ▸ .nil, hread, by simp [htrace, cutoverRecorded],
    by simp [htrace, rollbackOpen]⟩).sound

/-! ### runs -/

def relay : Source := { inst := py "old" }

def unread : World :=
  { journal := { phase := some .switching, source := some relay, cutoverStarted := true }
    unread := [false, false, true] }

def rolledBack : World :=
  { journal := { phase := some .rollback, source := some relay, cutoverStarted := true
                 rollbackStarted := true } }

/-- The former relay is started again. -/
def restarted : World := (replace [] Source.command 0 ⟨rolledBack, [], [true]⟩).2.world

theorem run_restarted : Run [] Source.command rolledBack restarted := .replace 0 [] _ .start

theorem replacement_justified_restarted :
    restarted.trace.head? = some (.started .former relay none) ∧
    Sound rolledBack.journal restarted.trace :=
  ⟨by decide +kernel, @replacement_justified [] Source.command rolledBack restarted rfl
    (by simp [rolledBack]) run_restarted⟩

/-- A journal that cannot be read once is one without a cutover, which is cancelled; and a
rollback starts the former relay when the new one does not answer, stopped or not. -/
theorem replacement_unjustified :
    ((replace [] Source.command 0 ⟨unread, [], [true]⟩).2.world.trace =
        [.published .cancelled true, .published .switching true] ∧
      ¬ Sound unread.journal
        (replace [] Source.command 0 ⟨unread, [], [true]⟩).2.world.trace) ∧
    restarted.trace.filter (fun e => e.isStarted || e.isStopped) =
      [.started .former relay none, .stopped relay] := by
  have htrace : (replace [] Source.command 0 ⟨unread, [], [true]⟩).2.world.trace =
      [.published .cancelled true, .published .switching true] := by decide +kernel
  refine ⟨⟨htrace, ?_⟩, by decide +kernel⟩
  rw [htrace]
  rintro (_ | ⟨hcancelled, -⟩)
  simp [Justified, cutoverRecorded] at hcancelled

end Codexon.ProxyUpdate
