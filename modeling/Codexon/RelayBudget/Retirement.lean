import Codexon.RelayBudget.History

/-!
# Codexon.RelayBudget.Retirement

No relayed connection is retired while it owes anything, and the number of
connections stays in the budget, over every interleaving of the handlers, the
relays and the loop that retires.

A marked connection never accepts another frame and has none on its way, so it
stays as it was marked (`Good`).
-/

namespace Codexon.Relay

/-! ## one connection -/

def Conn.sends (c : Conn) : Int :=
  (if (c.sending true).isSome then 1 else 0) + if (c.sending false).isSome then 1 else 0

theorem Conn.sends_nonneg (c : Conn) : 0 ≤ c.sends := by
  unfold sends
  split <;> split <;> omega

/-- What holds of each connection. -/
structure Conn.Good (c : Conn) : Prop where
  forwarding : c.activity.forwarding = inFlight c.log
  sends : c.sends ≤ c.activity.forwarding
  reads : c.phase ≠ .released → c.activity.Reads c.known c.log
  retired : c.activity.closing = true →
    c.activity.connectedAt.isSome = true ∧ c.activity.forwarding = 0 ∧ Settled c.known c.log
  idle : c.activity.connectedAt.isSome = true → c.activity.busy = false →
    c.activity.idleSince.isSome = true
  fresh : c.phase = .absent → c.activity.connectedAt = none

namespace Activity

theorem settle_eq (a : Activity) (now : Time) :
    ∃ since, a.settle now = { a with idleSince := since } ∧ (a.busy = false → since.isSome = true) := by
  unfold settle
  cases hbusy : a.busy with
  | true => exact ⟨none, rfl, nofun⟩
  | false =>
    cases hsince : a.idleSince with
    | none => exact ⟨some now, by simp, fun _ => rfl⟩
    | some since => exact ⟨a.idleSince, by simp, fun _ => by simp [hsince]⟩

theorem busy_of_forwarding {a : Activity} (h : a.forwarding ≠ 0) : a.busy = true := by
  simp [busy, h]

theorem of_idle {a : Activity} (h : a.state = .idle) :
    a.connectedAt.isSome = true ∧ a.busy = false := by
  unfold state at h
  cases hconnected : a.connectedAt <;> cases hbusy : a.busy <;> cases hclosing : a.closing <;>
    cases hunknown : a.unknown <;> cases hconnecting : a.connecting <;> simp_all

theorem begin_fields {a : Activity} {f : Frame} {outbound : Bool}
    (h : (a.begin f outbound).1 = true) :
    (a.begin f outbound).2.forwarding = a.forwarding + 1 ∧ a.closing = false ∧
      (a.begin f outbound).2.closing = false := by
  unfold «begin» at h ⊢
  cases hclosing : a.closing with
  | true => simp [hclosing] at h
  | false =>
    simp only [Bool.false_eq_true, if_false, unclassified]
    split
    · split
      · exact ⟨rfl, trivial, rfl⟩
      · split
        · exact ⟨rfl, trivial, rfl⟩
        · split
          · exact ⟨rfl, trivial, rfl⟩
          · exact ⟨rfl, trivial, rfl⟩
    · exact ⟨rfl, trivial, rfl⟩

/-- `delivered` but for the settling: the counters and the lanes. -/
theorem received_fields (a : Activity) (f : Frame) :
    (a.received f).forwarding = a.forwarding ∧ (a.received f).closing = a.closing ∧
      (a.received f).connectedAt = a.connectedAt := by
  unfold received
  split
  · unfold responded
    dsimp only
    split <;> split <;> exact ⟨rfl, rfl, rfl⟩
  · split
    · unfold failed
      split
      · exact ⟨rfl, rfl, rfl⟩
      · split
        · exact ⟨rfl, rfl, rfl⟩
        · split <;> exact ⟨rfl, rfl, rfl⟩
    · split <;> exact ⟨rfl, rfl, rfl⟩

theorem delivered_fields (a : Activity) (f : Frame) (outbound : Bool) (now : Time) :
    (a.delivered f outbound now).forwarding = a.forwarding - 1 ∧
      (a.delivered f outbound now).closing = a.closing ∧
      (a.delivered f outbound now).connectedAt = a.connectedAt ∧
      ((a.delivered f outbound now).busy = false →
        (a.delivered f outbound now).idleSince.isSome = true) := by
  unfold delivered
  dsimp only
  obtain ⟨since, heq, hsince⟩ := settle_eq { (if outbound then a else a.received f) with
    forwarding := (if outbound then a else a.received f).forwarding - 1 } now
  rw [heq]
  obtain ⟨hforwarding, hclosing, hconnected⟩ := received_fields a f
  refine ⟨?_, ?_, ?_, hsince⟩
  · cases outbound
    · simp [hforwarding]
    · rfl
  · cases outbound
    · simp [hclosing]
    · rfl
  · cases outbound
    · simp [hconnected]
    · rfl

end Activity

namespace Conn.Good

theorem new (known : Bool) : Conn.Good { activity := Activity.new known, known } where
  forwarding := rfl
  sends := by simp [Conn.sends, Activity.new]
  reads := fun _ => Activity.reads_new known
  retired := nofun
  idle := nofun
  fresh := fun _ => rfl

variable {c : Conn}

section

variable (h : c.Good) (hphase : c.phase ≠ .released)

include h hphase

theorem phase (phase : Phase) (hnext : phase ≠ .absent) : Conn.Good { c with phase } :=
  ⟨h.forwarding, h.sends, fun _ => h.reads hphase, h.retired, h.idle, fun hnew => absurd hnew hnext⟩

theorem close (hidle : c.activity.state = .idle) :
    Conn.Good { c with activity := { c.activity with closing := true } } := by
  have hstate := Activity.of_idle hidle
  have hreads := h.reads hphase
  have hsettled := hreads.settled h.forwarding hstate.2
  exact ⟨h.forwarding, h.sends,
    fun _ => ⟨hreads.pending, hreads.active, hreads.completed, hreads.cancelling, hreads.unknown⟩,
    fun _ => ⟨hstate.1, h.forwarding.trans hsettled.delivered, hsettled⟩,
    fun _ _ => h.idle hstate.1 hstate.2, h.fresh⟩

theorem enter :
    Conn.Good { c with activity := { c.activity with connecting := true }, phase := .admitted } := by
  have hreads := h.reads hphase
  exact ⟨h.forwarding, h.sends,
    fun _ => ⟨hreads.pending, hreads.active, hreads.completed, hreads.cancelling, hreads.unknown⟩,
    h.retired, h.idle, nofun⟩

theorem connected (clock : Nat → Time) :
    Conn.Good { c with activity := c.activity.connected clock, phase := .connected } := by
  unfold Activity.connected
  obtain ⟨since, heq, hsince⟩ :=
    Activity.settle_eq { c.activity with connectedAt := some (clock 0) } (clock 1)
  rw [heq]
  have hreads := h.reads hphase
  exact ⟨h.forwarding, h.sends,
    fun _ => ⟨hreads.pending, hreads.active, hreads.completed, hreads.cancelling, hreads.unknown⟩,
    fun hclosing => ⟨rfl, (h.retired hclosing).2⟩, fun _ => hsince, nofun⟩

end

theorem begin (h : c.Good) (hphase : c.phase = .connected) {f : Frame} {outbound : Bool}
    (hfree : c.sending outbound = none) (haccepted : (c.activity.begin f outbound).1 = true) :
    Conn.Good { c with
      activity := (c.activity.begin f outbound).2
      sending := fun d => if d = outbound then some f else c.sending d
      log := .begun f outbound :: c.log } := by
  obtain ⟨hforwarding, hopen, hclosing⟩ := Activity.begin_fields haccepted
  have hpositive : (c.activity.begin f outbound).2.forwarding ≠ 0 := by
    have := h.sends
    have := c.sends_nonneg
    omega
  refine ⟨?_, ?_, fun hlive => (h.reads hlive).begin haccepted, fun hmarked => ?_,
    fun _ hquiet => ?_, fun hnew => ?_⟩
  · dsimp only
    rw [hforwarding, h.forwarding]
    simp only [inFlight, List.countP_cons, Event.isBegun]
    simp
    omega
  · have hsends := h.sends
    dsimp only
    rw [hforwarding]
    revert hsends
    cases outbound with
    | true =>
      simp only [Conn.sends, hfree]
      simp
      omega
    | false =>
      simp only [Conn.sends, hfree]
      simp
  · rw [hclosing] at hmarked
    cases hmarked
  · rw [Activity.busy_of_forwarding hpositive] at hquiet
    cases hquiet
  · rw [hphase] at hnew
    cases hnew

theorem delivered (h : c.Good) {f : Frame} {outbound : Bool}
    (hsending : c.sending outbound = some f)
    (now : Time) :
    Conn.Good { c with
      activity := c.activity.delivered f outbound now
      sending := fun d => if d = outbound then none else c.sending d
      log := .delivered f outbound :: c.log } := by
  obtain ⟨hforwarding, hclosing, hconnected, hidle⟩ := Activity.delivered_fields c.activity f outbound now
  have hcount : 1 ≤ c.sends := by
    unfold Conn.sends
    cases outbound <;> simp [hsending] <;> split <;> omega
  have hsends := h.sends
  refine ⟨?_, ?_, fun hphase => (h.reads hphase).delivered f outbound now, fun hmarked => ?_,
    fun _ => hidle, fun hnew => hconnected.trans (h.fresh hnew)⟩
  · dsimp only
    rw [hforwarding, h.forwarding]
    simp only [inFlight, List.countP_cons, Event.isBegun]
    simp
    omega
  · dsimp only
    rw [hforwarding]
    revert hsends
    cases outbound <;> simp [Conn.sends, hsending] <;> split <;> omega
  · rw [hclosing] at hmarked
    have := (h.retired hmarked).2.1
    omega

theorem broken (h : c.Good) (outbound : Bool) :
    Conn.Good { c with sending := fun d => if d = outbound then none else c.sending d } := by
  refine ⟨h.forwarding, ?_, h.reads, h.retired, h.idle, h.fresh⟩
  have hsends := h.sends
  revert hsends
  unfold Conn.sends
  dsimp only
  cases outbound <;> simp <;> split <;> omega

theorem release (h : c.Good) (completed : Finset Scalar) :
    Conn.Good { c with activity := { c.activity with completed }, phase := .released } :=
  ⟨h.forwarding, h.sends, fun hphase => absurd rfl hphase, h.retired, h.idle, nofun⟩

end Conn.Good

/-! ## retiring -/

namespace World

variable {κ : Type} [DecidableEq κ]

/-- Some idle connections with an entry are marked; nothing else happens. -/
structure Retires (w w' : World κ) : Prop where
  entries : w'.entries = w.entries
  waiting : w'.waiting = w.waiting
  draining : w'.draining = w.draining
  conns : ∀ j, w'.conns j = w.conns j ∨
    ((w.entries.get? j).isSome = true ∧ (w.conns j).activity.state = .idle ∧
      w'.conns j = { w.conns j with activity := { (w.conns j).activity with closing := true } })

theorem mem_idle {w : World κ} {j : κ} (h : j ∈ w.idle) :
    (w.entries.get? j).isSome = true ∧ (w.conns j).activity.state = .idle := by
  rw [idle, List.mem_insertionSort, List.mem_filter] at h
  obtain ⟨e, he, rfl⟩ := List.mem_map.mp h.1
  have hget := Dict.get?_eq_some.mpr (List.mem_filter.mp he).1
  exact ⟨by rw [hget]; rfl, by simpa using h.2⟩

variable (policy : ConnectionPolicy)

theorem reap_retires (w : World κ) (incoming : Nat) (exclude : Option κ) (now : Time) :
    Retires w (w.reap policy incoming exclude now) := by
  have hidle (j : κ) (h : j ∈ w.idle) := mem_idle h
  unfold reap
  generalize w.idle.length = remaining
  generalize w.entries.entries.countP _ = closing
  generalize w.idle = js at hidle
  -- the world reached after some turns of the loop
  suffices hfold : ∀ (t : World κ × Nat × Nat), Retires w t.1 →
      Retires w (js.foldl (retire policy incoming exclude now) t).1 from
    hfold (w, remaining, closing) ⟨rfl, rfl, rfl, fun _ => Or.inl rfl⟩
  induction js with
  | nil => exact fun t h => h
  | cons j js ih =>
    intro t h
    refine ih (fun j' hj' => hidle j' (List.mem_cons_of_mem _ hj')) _ ?_
    obtain ⟨w', remaining, closing⟩ := t
    unfold retire
    dsimp only
    split
    · exact h
    · split
      · refine ⟨h.entries, h.waiting, h.draining, fun j' => ?_⟩
        by_cases hj : j' = j
        · subst hj
          obtain ⟨hentry, hstate⟩ := hidle j' List.mem_cons_self
          refine Or.inr ⟨hentry, hstate, ?_⟩
          rcases h.conns j' with hsame | ⟨-, -, hmarked⟩
          · simp only [setActivity, setConn, if_true]
            rw [hsame]
          · simp only [setActivity, setConn, if_true]
            rw [hmarked]
        · simpa only [setActivity, setConn, if_neg hj] using h.conns j'
      · exact h

theorem Retires.good {w w' : World κ} (h : Retires w w') (hgood : ∀ i, (w.conns i).Good)
    (hentered : ∀ i, (w.entries.get? i).isSome = true → (w.conns i).phase ≠ .released) (i : κ) :
    (w'.conns i).Good := by
  rcases h.conns i with hsame | ⟨hentry, hstate, hmarked⟩
  · rw [hsame]
    exact hgood i
  · rw [hmarked]
    exact (hgood i).close (hentered i hentry) hstate

theorem Retires.phase {w w' : World κ} (h : Retires w w') (i : κ) :
    (w'.conns i).phase = (w.conns i).phase := by
  rcases h.conns i with hsame | ⟨-, -, hmarked⟩
  · rw [hsame]
  · rw [hmarked]

/-! ## runs -/

def Waits (w : World κ) (i : κ) : Prop := ∃ deadline, (w.conns i).phase = .waiting deadline

/-- What holds of every reachable state. -/
structure Inv (w : World κ) : Prop where
  good : ∀ i, (w.conns i).Good
  entered : ∀ i, (w.entries.get? i).isSome = true → (w.conns i).phase ≠ .released
  admitted : ∀ i, (w.conns i).phase = .admitted → (w.entries.get? i).isSome = true
  room : w.entries.entries.length ≤ policy.budget
  limit : w.waiting ≤ policy.waiters
  waiters : ∀ s : Finset κ, (∀ i ∈ s, w.Waits i) → (s.card : Int) ≤ w.waiting

variable {policy} {w : World κ}

theorem Inv.retires {w' : World κ} (h : w.Inv policy) (hretires : Retires w w') : w'.Inv policy
    where
  good := hretires.good h.good h.entered
  entered := fun i => by
    rw [hretires.entries, hretires.phase]
    exact h.entered i
  admitted := fun i => by
    rw [hretires.entries, hretires.phase]
    exact h.admitted i
  room := hretires.entries ▸ h.room
  limit := hretires.waiting ▸ h.limit
  waiters := fun s hs => by
    rw [hretires.waiting]
    refine h.waiters s fun i hi => ?_
    obtain ⟨deadline, hdeadline⟩ := hs i hi
    exact ⟨deadline, (hretires.phase i).symm.trans hdeadline⟩

theorem Inv.setConn (h : w.Inv policy) {i : κ} {c : Conn} (hc : c.Good)
    (hentered : (w.entries.get? i).isSome = true → c.phase ≠ .released)
    (hadmitted : c.phase = .admitted → (w.entries.get? i).isSome = true)
    (hwaits : ∀ deadline, c.phase = .waiting deadline → w.Waits i) : (w.setConn i c).Inv policy :=
    by
  have hconn (j : κ) : (w.setConn i c).conns j = if j = i then c else w.conns j := rfl
  refine ⟨fun j => ?_, fun j => ?_, fun j => ?_, h.room, h.limit, fun s hs => h.waiters s fun j hj => ?_⟩
  · rw [hconn]
    split
    · exact hc
    · exact h.good j
  · rw [hconn]
    split
    · next hji => exact hji ▸ hentered
    · exact h.entered j
  · rw [hconn]
    split
    · next hji => exact hji ▸ hadmitted
    · exact h.admitted j
  · obtain ⟨deadline, hdeadline⟩ := hs j hj
    rw [hconn] at hdeadline
    split at hdeadline
    · next hji => exact hji ▸ hwaits deadline hdeadline
    · exact ⟨deadline, hdeadline⟩

theorem Inv.setSame (h : w.Inv policy) {i : κ} {c : Conn} (hc : c.Good)
    (hphase : c.phase = (w.conns i).phase) : (w.setConn i c).Inv policy :=
  h.setConn hc (hphase ▸ h.entered i) (hphase ▸ h.admitted i)
    fun deadline hdeadline => ⟨deadline, hphase ▸ hdeadline⟩

/-- `waiting` counts one handler more than those that wait. -/
structure Extra (policy : ConnectionPolicy) (w : World κ) (i : κ) : Prop where
  good : ∀ j, (w.conns j).Good
  entered : ∀ j, (w.entries.get? j).isSome = true → (w.conns j).phase ≠ .released
  admitted : ∀ j, j ≠ i → (w.conns j).phase = .admitted → (w.entries.get? j).isSome = true
  room : w.entries.entries.length ≤ policy.budget
  limit : w.waiting ≤ policy.waiters
  waiters : ∀ s : Finset κ, i ∉ s → (∀ j ∈ s, w.Waits j) → (s.card : Int) + 1 ≤ w.waiting
  live : (w.conns i).phase ≠ .released

theorem Extra.retires {w' : World κ} {i : κ} (h : Extra policy w i) (hretires : Retires w w') :
    Extra policy w' i where
  good := hretires.good h.good h.entered
  entered := fun j => by
    rw [hretires.entries, hretires.phase]
    exact h.entered j
  admitted := fun j => by
    rw [hretires.entries, hretires.phase]
    exact h.admitted j
  room := hretires.entries ▸ h.room
  limit := hretires.waiting ▸ h.limit
  waiters := fun s hi hs => by
    rw [hretires.waiting]
    refine h.waiters s hi fun j hj => ?_
    obtain ⟨deadline, hdeadline⟩ := hs j hj
    exact ⟨deadline, (hretires.phase j).symm.trans hdeadline⟩
  live := by
    rw [hretires.phase]
    exact h.live

theorem Extra.leave {i : κ} (h : Extra policy w i) {c : Conn} (hc : c.Good) {waiting : Int}
    (hphase : c.phase ≠ .released)
    (hadmitted : c.phase = .admitted → (w.entries.get? i).isSome = true)
    (hwaiting : waiting = w.waiting ∨
      waiting = w.waiting - 1 ∧ ∀ deadline, c.phase ≠ .waiting deadline) :
    Inv policy { w.setConn i c with waiting } := by
  have hconn (j : κ) : (w.setConn i c).conns j = if j = i then c else w.conns j := rfl
  refine ⟨fun j => ?_, fun j => ?_, fun j => ?_, h.room, ?_, fun s hs => ?_⟩
  · dsimp only
    rw [hconn]
    split
    · exact hc
    · exact h.good j
  · dsimp only
    rw [hconn]
    split
    · exact fun _ => hphase
    · exact h.entered j
  · dsimp only
    rw [hconn]
    split
    · next hji => exact hji ▸ hadmitted
    · next hji => exact h.admitted j hji
  · have := h.limit
    dsimp only
    omega
  · have hothers (j : κ) (hj : j ∈ s.erase i) : w.Waits j := by
      rw [Finset.mem_erase] at hj
      obtain ⟨deadline, hdeadline⟩ := hs j hj.2
      dsimp only at hdeadline
      rw [hconn, if_neg hj.1] at hdeadline
      exact ⟨deadline, hdeadline⟩
    have hcount := h.waiters (s.erase i) (Finset.notMem_erase i s) hothers
    dsimp only
    by_cases hi : i ∈ s
    · obtain ⟨deadline, hdeadline⟩ := hs i hi
      dsimp only at hdeadline
      rw [hconn, if_pos rfl] at hdeadline
      have hcard := Finset.card_erase_add_one hi
      rcases hwaiting with rfl | ⟨-, hno⟩
      · omega
      · exact absurd hdeadline (hno deadline)
    · rw [Finset.erase_eq_of_notMem hi] at hcount
      rcases hwaiting with rfl | ⟨rfl, -⟩ <;> omega

theorem Extra.admission {i : κ} (h : Extra policy w i) (deadline now now' : Time) :
    (World.admission policy w i deadline now now').Inv policy := by
  have hrefuse : (w.refuse i).Inv policy :=
    h.leave ((h.good i).phase h.live .refused (by simp)) (by simp) (by simp)
      (Or.inr ⟨rfl, by simp⟩)
  unfold World.admission
  by_cases hfull : w.entries.entries.length ≥ policy.budget
  · rw [if_pos hfull]
    split
    · exact hrefuse
    · split
      · exact hrefuse
      · exact h.leave ((h.good i).phase h.live (.waiting deadline) (by simp)) (by simp) (by simp)
          (Or.inl rfl)
  · rw [if_neg hfull]
    split
    · exact hrefuse
    · have hentry (j : κ) : ((w.entries.set i false).get? j).isSome = true ↔
          j = i ∨ (w.entries.get? j).isSome = true := by
        rw [Dict.get?_set]
        split <;> simp [*]
      have hset : Extra policy { w with entries := w.entries.set i false } i := by
        refine ⟨h.good, fun j hj => ?_, fun j hji hphase => ?_, ?_, h.limit, h.waiters, h.live⟩
        · rcases (hentry j).mp hj with rfl | hj
          · exact h.live
          · exact h.entered j hj
        · exact (hentry j).mpr (Or.inr (h.admitted j hji hphase))
        · dsimp only
          rw [Dict.length_set]
          split <;> omega
      have hretires := reap_retires policy { w with entries := w.entries.set i false } 0 none now'
      have hreaped := hset.retires hretires
      have hin : ((World.reap policy { w with entries := w.entries.set i false } 0 none now').entries.get?
          i).isSome = true := by
        rw [hretires.entries]
        exact (hentry i).mpr (Or.inl rfl)
      exact hreaped.leave ((hreaped.good i).enter hreaped.live) (by simp) (fun _ => hin)
        (Or.inr ⟨rfl, by simp⟩)

theorem Inv.extra {i : κ} (h : w.Inv policy) {deadline : Time}
    (hphase : (w.conns i).phase = .waiting deadline) : Extra policy w i where
  good := h.good
  entered := h.entered
  admitted := fun j _ => h.admitted j
  room := h.room
  limit := h.limit
  waiters := fun s hi hs => by
    have := h.waiters (insert i s) fun j hj => by
      rcases Finset.mem_insert.mp hj with rfl | hj
      · exact ⟨deadline, hphase⟩
      · exact hs j hj
    rw [Finset.card_insert_of_notMem hi] at this
    omega
  live := by simp [hphase]

theorem Inv.reserve (h : w.Inv policy) {i : κ} (hphase : (w.conns i).phase = .absent) (known : Bool)
    (clock : Nat → Time) : (w.step policy (.reserve i known clock)).Inv policy := by
  have hnew : (w.setConn i { activity := Activity.new known, known }).Inv policy :=
    h.setSame (Conn.Good.new known) hphase.symm
  have hretires := reap_retires policy (w.setConn i { activity := Activity.new known, known }) 1 none
    (clock 0)
  have hreaped := hnew.retires hretires
  have hlive : ((World.reap policy (w.setConn i { activity := Activity.new known, known }) 1 none
      (clock 0)).conns i).phase = .absent := by
    rw [hretires.phase]
    simp [World.setConn]
  simp only [World.step, hphase]
  generalize World.reap policy (w.setConn i { activity := Activity.new known, known }) 1 none
    (clock 0) = w' at hreaped hlive ⊢
  split
  · exact hreaped.setConn ((hreaped.good i).phase (by simp [hlive]) .refused nofun) nofun nofun nofun
  · next hroom =>
    have hextra : Extra policy { w' with waiting := w'.waiting + 1 } i := by
      refine ⟨hreaped.good, hreaped.entered, fun j _ => hreaped.admitted j, hreaped.room,
        ?_, fun s _ hs => ?_, by simp [hlive]⟩
      · dsimp only
        omega
      · have := hreaped.waiters s hs
        dsimp only
        omega
    exact hextra.admission _ _ _

theorem Inv.connected (h : w.Inv policy) {i : κ} (hphase : (w.conns i).phase = .admitted)
    (clock : Nat → Time) : (w.step policy (.connected i clock)).Inv policy := by
  have hin := h.admitted i hphase
  have hentry (j : κ) : ((w.entries.set i true).get? j).isSome = (w.entries.get? j).isSome := by
    rw [Dict.get?_set]
    split
    · next hji => simp [hji, hin]
    · rfl
  have hset : Inv policy { w with entries := w.entries.set i true } := by
    refine ⟨h.good, fun j => ?_, fun j => ?_, ?_, h.limit, h.waiters⟩
    · rw [hentry]
      exact h.entered j
    · rw [hentry]
      exact h.admitted j
    · dsimp only
      rw [Dict.length_set, if_pos hin]
      exact h.room
  simp only [World.step, hphase]
  refine Inv.retires (hset.setConn ((hset.good i).connected (by simp [hphase]) clock) (by simp)
    (by simp) (by simp)) (reap_retires policy _ _ _ _)

theorem Inv.release (h : w.Inv policy) (i : κ) : (w.step policy (.release i)).Inv policy := by
  have hend (completed : Finset Scalar) : Inv policy { w.setConn i { w.conns i with
      activity := { (w.conns i).activity with completed }, phase := .released } with
      entries := w.entries.erase i } := by
    have hset := h.good
    refine ⟨fun j => ?_, fun j hj => ?_, fun j hj => ?_, ?_, h.limit, fun s hs => h.waiters s fun j hj => ?_⟩
    · dsimp only [World.setConn]
      split
      · exact (h.good i).release completed
      · exact h.good j
    · dsimp only [World.setConn] at hj ⊢
      rw [Dict.get?_erase] at hj
      split at hj
      · cases hj
      · next hji =>
        rw [if_neg hji]
        exact h.entered j hj
    · dsimp only [World.setConn] at hj ⊢
      split at hj
      · cases hj
      · next hji =>
        rw [Dict.get?_erase, if_neg hji]
        exact h.admitted j hj
    · exact (List.length_filter_le _ _).trans h.room
    · obtain ⟨deadline, hdeadline⟩ := hs j hj
      dsimp only [World.setConn] at hdeadline
      split at hdeadline
      · cases hdeadline
      · exact ⟨deadline, hdeadline⟩
  simp only [World.step]
  split
  · exact h
  · exact h
  · split
    · exact hend ∅
    · exact hend (w.conns i).activity.completed

theorem Inv.step (h : w.Inv policy) (action : Action κ) : (w.step policy action).Inv policy := by
  cases action with
  | reserve i known clock =>
    cases hphase : (w.conns i).phase with
    | absent => exact h.reserve hphase known clock
    | _ => simpa only [World.step, hphase] using h
  | wake i clock =>
    cases hphase : (w.conns i).phase with
    | waiting deadline =>
      simp only [World.step, hphase]
      exact ((h.extra hphase).retires (reap_retires policy w 1 none (clock 0))).admission _ _ _
    | _ => simpa only [World.step, hphase] using h
  | abandon i =>
    cases hphase : (w.conns i).phase with
    | waiting deadline =>
      simp only [World.step, hphase]
      have hextra := h.extra hphase
      exact hextra.leave ((h.good i).phase hextra.live .refused nofun) nofun nofun (Or.inr ⟨rfl, nofun⟩)
    | _ => simpa only [World.step, hphase] using h
  | connected i clock =>
    cases hphase : (w.conns i).phase with
    | admitted => exact h.connected hphase clock
    | _ => simpa only [World.step, hphase] using h
  | begin i f outbound =>
    simp only [World.step]
    split
    · next hphase hfree =>
      split
      · next a hbegin =>
        have hgood := (h.good i).begin hphase hfree (f := f) (by rw [hbegin])
        rw [hbegin] at hgood
        exact h.setSame hgood rfl
      · next a hbegin =>
        have hsame : a = (w.conns i).activity := by
          have := congrArg Prod.snd hbegin
          unfold Activity.begin at this hbegin
          split at hbegin
          · exact (Prod.mk.inj hbegin).2.symm
          · simp at hbegin
        exact h.setSame (c := { w.conns i with activity := a }) (hsame ▸ h.good i) rfl
    · exact h
  | delivered i outbound clock =>
    simp only [World.step]
    split
    · next f hsending =>
      exact Inv.retires (h.setSame ((h.good i).delivered hsending (clock 0)) rfl)
        (reap_retires policy _ _ _ _)
    · exact h
  | broken i outbound => exact h.setSame ((h.good i).broken outbound) rfl
  | reap clock => exact h.retires (reap_retires policy w 0 none (clock 0))
  | release i => exact h.release i
  | drain => exact ⟨h.good, h.entered, h.admitted, h.room, h.limit, h.waiters⟩

theorem inv_empty : Inv policy ({} : World κ) where
  good := fun _ => Conn.Good.new true
  entered := fun i hi => by simp [Dict.get?] at hi
  admitted := nofun
  room := Nat.zero_le _
  limit := by simp
  waiters := fun s hs => by
    rcases s.eq_empty_or_nonempty with rfl | ⟨i, hi⟩
    · simp
    · obtain ⟨deadline, hdeadline⟩ := hs i hi
      cases hdeadline

/-- The capacity is kept, and no connection is retired that owes anything: one
that is marked is connected, its history is settled and it takes no frame. -/
structure Safe (policy : ConnectionPolicy) (w : World κ) : Prop where
  entries : w.entries.entries.length ≤ policy.budget
  waiting : w.waiting ≤ policy.waiters
  waiters : ∀ s : Finset κ, (∀ i ∈ s, w.Waits i) → s.card ≤ policy.waiters
  forwarding : ∀ i, (w.conns i).activity.forwarding = inFlight (w.conns i).log
  retired : ∀ i, (w.conns i).activity.closing = true →
    (w.conns i).activity.connectedAt.isSome = true ∧ Settled (w.conns i).known (w.conns i).log
  refuses : ∀ i, (w.conns i).activity.closing = true → ∀ f outbound,
    (w.conns i).activity.begin f outbound = (false, (w.conns i).activity)
  idle : ∀ i, (w.conns i).activity.state = .idle → (w.conns i).activity.idleSince.isSome = true

theorem Inv.safe (h : w.Inv policy) : w.Safe policy where
  entries := h.room
  waiting := h.limit
  waiters := fun s hs => by
    have := h.waiters s hs
    have := h.limit
    omega
  forwarding := fun i => (h.good i).forwarding
  retired := fun i hi => ⟨((h.good i).retired hi).1, ((h.good i).retired hi).2.2⟩
  refuses := fun i hi f outbound => by simp [Activity.begin, hi]
  idle := fun i hi => by
    obtain ⟨hconnected, hquiet⟩ := Activity.of_idle hi
    exact (h.good i).idle hconnected hquiet

/-! ### a marked connection stays marked -/

theorem closing_setConn {i j : κ} {c : Conn} (hi : (w.conns i).activity.closing = true)
    (hc : i = j → c.activity.closing = true) :
    ((w.setConn j c).conns i).activity.closing = true := by
  simp only [World.setConn]
  split
  · next hij => exact hc hij
  · exact hi

theorem closing_reap (policy : ConnectionPolicy) {i : κ} (hi : (w.conns i).activity.closing = true)
    (incoming : Nat) (exclude : Option κ) (now : Time) :
    ((w.reap policy incoming exclude now).conns i).activity.closing = true := by
  rcases (reap_retires policy w incoming exclude now).conns i with hsame | ⟨-, -, hmarked⟩
  · rw [hsame]
    exact hi
  · rw [hmarked]

theorem closing_admission {i j : κ} (hi : (w.conns i).activity.closing = true)
    (deadline now now' : Time) :
    ((World.admission policy w j deadline now now').conns i).activity.closing = true := by
  have hrefuse : ((w.refuse j).conns i).activity.closing = true :=
    closing_setConn hi fun hij => hij ▸ hi
  unfold World.admission
  split
  · split
    · exact hrefuse
    · split
      · exact hrefuse
      · exact closing_setConn hi fun hij => hij ▸ hi
  · split
    · exact hrefuse
    · have hreaped := @closing_reap κ _ { w with entries := w.entries.set j false } policy i
        hi 0 none now'
      exact closing_setConn hreaped fun hij => hij ▸ hreaped

theorem Inv.closing_step (h : w.Inv policy) {i : κ} (hi : (w.conns i).activity.closing = true)
    (action : Action κ) : ((w.step policy action).conns i).activity.closing = true := by
  cases action with
  | reserve j known clock =>
    simp only [World.step]
    split
    · next hphase =>
      have hnew : ((w.setConn j { activity := Activity.new known, known }).conns
          i).activity.closing = true :=
        closing_setConn hi fun hij => by
          have hconnected := ((h.good i).retired hi).1
          rw [(h.good i).fresh (hij ▸ hphase)] at hconnected
          cases hconnected
      have hreaped := closing_reap policy hnew 1 none (clock 0)
      generalize World.reap policy (w.setConn j { activity := Activity.new known, known }) 1 none
        (clock 0) = w' at hreaped ⊢
      split
      · exact closing_setConn hreaped fun hij => hij ▸ hreaped
      · exact @closing_admission κ _ policy { w' with waiting := w'.waiting + 1 } i j hreaped _ _ _
    · exact hi
  | wake j clock =>
    simp only [World.step]
    split
    · exact closing_admission (closing_reap policy hi 1 none (clock 0)) _ _ _
    · exact hi
  | abandon j =>
    simp only [World.step]
    split
    · exact closing_setConn hi fun hij => hij ▸ hi
    · exact hi
  | connected j clock =>
    simp only [World.step]
    split
    · refine closing_reap policy ?_ _ _ _
      refine closing_setConn hi fun hij => ?_
      subst hij
      obtain ⟨since, heq, -⟩ :=
        Activity.settle_eq { (w.conns i).activity with connectedAt := some (clock 0) } (clock 1)
      dsimp only [Activity.connected]
      rw [heq]
      exact hi
    · exact hi
  | begin j f outbound =>
    simp only [World.step]
    split
    · split
      · next a hbegin =>
        refine closing_setConn hi fun hij => ?_
        subst hij
        have hopen := (@Activity.begin_fields (w.conns i).activity f outbound (by rw [hbegin])).2.1
        rw [hi] at hopen
        cases hopen
      · next a hbegin =>
        refine closing_setConn hi fun hij => ?_
        subst hij
        simp only [Activity.begin, hi, if_true] at hbegin
        exact (Prod.mk.inj hbegin).2 ▸ hi
    · exact hi
  | delivered j outbound clock =>
    simp only [World.step]
    split
    · next f hsending =>
      refine closing_reap policy (closing_setConn hi fun hij => ?_) _ _ _
      subst hij
      exact (Activity.delivered_fields _ f outbound _).2.1.trans hi
    · exact hi
  | broken j outbound => exact closing_setConn hi fun hij => hij ▸ hi
  | reap clock => exact closing_reap policy hi 0 none (clock 0)
  | release j =>
    simp only [World.step]
    split
    · exact hi
    · exact hi
    · refine closing_setConn hi fun hij => ?_
      subst hij
      dsimp only
      split <;> exact hi
  | drain => exact hi

end World

/-- Over every run: capacity is never exceeded, no connection that owes anything
is retired, and one that is retired stays so. -/
theorem relay_safe {κ : Type} [DecidableEq κ] (policy : ConnectionPolicy)
    (actions later : List (Action κ)) : (run (World.step policy) {} actions).Safe policy ∧
      ∀ i, ((run (World.step policy) {} actions).conns i).activity.closing = true →
        ((run (World.step policy) {} (actions ++ later)).conns i).activity.closing = true := by
  have hinv : (run (World.step policy) {} actions).Inv policy :=
    run_inv (fun _ action h => h.step action) World.inv_empty actions
  refine ⟨hinv.safe, fun i hi => ?_⟩
  rw [run_append]
  have hstep (w : World κ) (action : Action κ)
      (h : w.Inv policy ∧ (w.conns i).activity.closing = true) :
      (w.step policy action).Inv policy ∧ ((w.step policy action).conns i).activity.closing = true :=
    ⟨h.1.step action, h.1.closing_step h.2 action⟩
  exact (run_inv hstep ⟨hinv, hi⟩ later).2

/-- A connection that has been idle for five minutes is retired. -/
example : ((run (World.step {}) ({} : World Unit)
    [.reserve () true fun _ => 0, .connected () fun _ => 1,
      .begin () { type := some (.str (py "response.create")) } true, .delivered () true fun _ => 2,
      .reap fun _ => 1000,
      .begin () { type := some (.str (py "response.completed")), response := some (.str (py "r")) } false,
      .delivered () false fun _ => 1001, .reap fun _ => 1301]).conns ()).activity.closing = true := by
  decide +kernel

end Codexon.Relay
