import Codexon.Tracking
import Codexon.Run
import Mathlib.Data.List.Chain

/-!
# Codexon.Tracking.Segments

What the tracker's segments are worth, over whole runs of `observe` and
`close` calls: inside a segment sequence numbers strictly increase, receive
times do not decrease, the allowance does not increase and the epochs differ
in their reset time only; and the segments partition the accepted
observations, up to the candidates a recovery discards.

`close` forgets the last observation, so nothing compares the first value
accepted after a caller's `close` with what came before it.  Order and
disjointness *across* segments therefore hold under `Resumes`, which asks
for exactly that comparison; `replay` feeds rows in receive order.

The invariant (`Coherent`) is kept by each exit of `observe`
(`observe_cases`) and by `close`, and `run_inv` carries it to every
reachable state.
-/

namespace Codexon

open List

variable {α : Type}

/-! ## the orders between observations -/

theorem pairwise_concat {R : α → α → Prop} [IsTrans α R] {xs : List α} {v : α}
    (h : xs.Pairwise R) (hv : ∀ l ∈ xs.getLast?, R l v) : (xs ++ [v]).Pairwise R := by
  rw [← isChain_iff_pairwise] at h ⊢
  rw [isChain_append]
  refine ⟨h, .singleton v, fun l hl y hy => ?_⟩
  obtain rfl : v = y := by simpa using hy
  exact hv l hl

/-- Later in sequence and not earlier in time. -/
structure Later (a b : Observation α) : Prop where
  sequence : a.sequence < b.sequence
  received : a.receivedAt ≤ b.receivedAt

/-- Equal in every component but the reset time. -/
def AgreeExceptReset (a b : List α) : Prop :=
  a.length = b.length ∧ ∀ i, i ≠ 3 → a[i]? = b[i]?

/-- The order of observations inside one segment. -/
structure Follows (a b : Observation α) : Prop extends Later a b where
  remaining : b.remaining ≤ a.remaining
  epoch : AgreeExceptReset a.epoch b.epoch

instance : IsTrans (Observation α) Later :=
  ⟨fun _ _ _ h g => ⟨h.sequence.trans g.sequence, PyFloat.le_trans h.received g.received⟩⟩

instance : IsTrans (Observation α) Follows :=
  ⟨fun _ _ _ h g =>
    { sequence := h.sequence.trans g.sequence
      received := PyFloat.le_trans h.received g.received
      remaining := PyFloat.le_trans g.remaining h.remaining
      epoch := ⟨h.epoch.1.trans g.epoch.1, fun i hi => (h.epoch.2 i hi).trans (g.epoch.2 i hi)⟩ }⟩

theorem agreeExceptReset_of_sameLimitEpoch [DecidableEq α] {a b : List α}
    (h : TrackingState.sameLimitEpoch a b = true) : AgreeExceptReset a b := by
  simp only [TrackingState.sameLimitEpoch, Bool.or_eq_true, Bool.and_eq_true,
    decide_eq_true_eq] at h
  rcases h with rfl | ⟨⟨hb, ha⟩, hcut⟩
  · exact ⟨rfl, fun _ _ => rfl⟩
  have hlen : a.length = b.length := by
    have := congrArg List.length hcut
    simp only [length_append, length_take, length_drop] at this
    omega
  refine ⟨hlen, fun i hi => ?_⟩
  -- Position `i` survives the cut at `i` or, past the reset time, at `i - 1`.
  rcases Nat.lt_or_gt_of_ne hi with hlt | hgt
  · have := congrArg (·[i]?) hcut
    simpa [List.getElem?_append_left, length_take, List.getElem?_take, hlt,
      show i < a.length by omega, show i < b.length by omega] using this
  · have := congrArg (·[i - 1]?) hcut
    have h3 : 3 ≤ i - 1 := by omega
    simp only [List.getElem?_append, length_take, List.getElem?_drop] at this
    simpa [show ¬ i - 1 < min 3 a.length by omega, show ¬ i - 1 < min 3 b.length by omega,
      show min 3 a.length = 3 by omega, show min 3 b.length = 3 by omega,
      show ¬ i - 1 < 3 by omega, show 4 + (i - 1 - 3) = i by omega] using this

/-! ## the invariant -/

/-- A segment as `close` must leave it. -/
structure Segment.WellFormed (c : Segment α) : Prop where
  start : c.observations.head? = some c.start
  stop : c.observations.getLast? = some c.stop
  ordered : c.observations.Pairwise Follows

/-- The state invariant: the three pointers describe the open list, open and
closed segments are ordered, and a recovering tracker has seen one allowance
since the recovery began. -/
structure TrackingState.Coherent (s : TrackingState α) : Prop where
  baseline : s.baseline = s.observations.head?
  endpoint : s.endpoint = s.observations.getLast?
  last : s.last = s.observations.getLast?
  ordered : s.observations.Pairwise Follows
  numbers : ∀ o ∈ s.observations, o.receivedAt.IsNum ∧ o.remaining.IsNum
  closed : ∀ c ∈ s.closed, c.WellFormed
  recovering : s.resets.recovering = true → ∀ o ∈ s.observations,
    ∃ r ∈ s.resets.remaining, o.remaining ≤ r ∧ r ≤ o.remaining

namespace TrackingState

/-- All observations that sit in a segment, in order of the segments. -/
def collected (s : TrackingState α) : List (Observation α) :=
  s.closed.flatMap (·.observations) ++ s.observations

theorem start_coherent (activatedAt : PyFloat) :
    ({ activatedAt } : TrackingState α).Coherent where
  baseline := rfl
  endpoint := rfl
  last := rfl
  ordered := .nil
  numbers := by simp
  closed := by simp
  recovering := by simp

variable {s : TrackingState α}

theorem Coherent.collected_close (hs : s.Coherent) (reason : CloseReason)
    (keepReset : Bool) : (s.close reason keepReset).collected = s.collected := by
  cases hobs : s.observations with
  | nil =>
    have hb : s.baseline = none := by simp [hs.baseline, hobs]
    simp [collected, close, hb, hobs]
  | cons o os =>
    have hb : s.baseline = some o := by simp [hs.baseline, hobs]
    have he : s.endpoint = some ((o :: os).getLast (by simp)) := by
      rw [hs.endpoint, hobs, getLast?_eq_getLast_of_ne_nil]
    simp [collected, close, hb, he, hobs]

theorem Coherent.close (hs : s.Coherent) (reason : CloseReason)
    (keepReset : Bool) : (s.close reason keepReset).Coherent where
  baseline := rfl
  endpoint := rfl
  last := rfl
  ordered := .nil
  numbers := by simp [TrackingState.close]
  closed := by
    simp only [TrackingState.close]
    cases hb : s.baseline with
    | none => simpa using hs.closed
    | some b =>
      cases he : s.endpoint with
      | none => simpa using hs.closed
      | some e =>
        intro c hc
        rcases mem_append.mp hc with hc | hc
        · exact hs.closed c hc
        · obtain rfl := mem_singleton.mp hc
          exact ⟨by rw [← hb, hs.baseline], by rw [← he, hs.endpoint], hs.ordered⟩
  recovering := by simp [TrackingState.close]

variable {v : Observation α}

theorem isNum_of_invalid (h : s.invalid v = false) : v.remaining.IsNum := by
  simp only [invalid, Bool.or_eq_false_iff, Bool.not_eq_false'] at h
  exact PyFloat.isNum_of_isfinite h.1.1.1

theorem later_of_stale {l : Observation α} (h : s.stale v = false)
    (hl : s.last = some l) (hlnum : l.receivedAt.IsNum) (hv : v.receivedAt.IsNum) : Later l v := by
  simp only [stale, hl, Option.any_some, Bool.or_eq_false_iff, decide_eq_false_iff_not] at h
  exact ⟨Int.not_le.mp h.1, PyFloat.le_of_not_lt hv hlnum h.2⟩

theorem Coherent.extend_of_nil (hs : s.Coherent) (hv : v.receivedAt.IsNum ∧ v.remaining.IsNum)
    (hnil : s.observations = [])
    (hr : s.resets.recovering = true → s.resets.remaining = some v.remaining) :
    (s.extend v).Coherent where
  baseline := by
    have hb : s.baseline = none := by simp [hs.baseline, hnil]
    simp [TrackingState.extend, hnil, hb]
  endpoint := by simp [TrackingState.extend]
  last := by simp [TrackingState.extend]
  ordered := by simp [TrackingState.extend, hnil]
  numbers := by simpa [TrackingState.extend, hnil] using hv
  closed := hs.closed
  recovering h o ho := by
    obtain rfl : o = v := by simpa [TrackingState.extend, hnil] using ho
    exact ⟨o.remaining, hr h, PyFloat.le_refl hv.2, PyFloat.le_refl hv.2⟩

theorem Coherent.extend (hs : s.Coherent) (hv : v.receivedAt.IsNum ∧ v.remaining.IsNum)
    (hfollows : ∀ l ∈ s.observations.getLast?, Follows l v)
    (hr : s.resets.recovering = true → s.resets.remaining = some v.remaining) :
    (s.extend v).Coherent where
  baseline := by
    rw [TrackingState.extend, hs.baseline]
    cases s.observations <;> rfl
  endpoint := by simp [TrackingState.extend]
  last := by simp [TrackingState.extend]
  ordered := pairwise_concat hs.ordered hfollows
  numbers o ho := by
    rcases mem_append.mp ho with ho | ho
    · exact hs.numbers o ho
    · rw [mem_singleton.mp ho]; exact hv
  closed := hs.closed
  recovering h o ho := by
    refine ⟨v.remaining, hr h, ?_⟩
    rcases mem_append.mp ho with ho | ho
    · obtain ⟨r, hrem, hle⟩ := hs.recovering h o ho
      obtain rfl : v.remaining = r := by
        have := (hr h).symm.trans (Option.mem_def.mp hrem)
        exact Option.some.inj this
      exact hle
    · rw [mem_singleton.mp ho]
      exact ⟨PyFloat.le_refl hv.2, PyFloat.le_refl hv.2⟩

variable [DecidableEq α]

@[simp] theorem advance_closed (s : TrackingState α) (v : Observation α) :
    (s.advance v).2.closed = s.closed := rfl

@[simp] theorem advance_observations (s : TrackingState α) (v : Observation α) :
    (s.advance v).2.observations = s.observations := rfl

/-- Advancing the reset tracker alone keeps the segment part of the invariant;
the recovery part is restored by the exit taken. -/
theorem Coherent.advance (hs : s.Coherent) (v : Observation α)
    (hr : (s.advance v).2.resets.recovering = true → ∀ o ∈ s.observations,
      o.remaining ≤ v.remaining ∧ v.remaining ≤ o.remaining) :
    (s.advance v).2.Coherent where
  baseline := hs.baseline
  endpoint := hs.endpoint
  last := hs.last
  ordered := hs.ordered
  numbers := hs.numbers
  closed := hs.closed
  recovering h o ho := ⟨v.remaining, rfl, hr h o ho⟩

theorem Coherent.recovering_stands (hs : s.Coherent) (hv : v.remaining.IsNum)
    (hevent : (s.advance v).1 = none) (hfall : ∀ e ∈ s.endpoint, ¬ e.remaining < v.remaining)
    (h : (s.advance v).2.resets.recovering = true) :
    ∀ o ∈ s.observations, o.remaining ≤ v.remaining ∧ v.remaining ≤ o.remaining := by
  obtain ⟨-, hrec, hkeep⟩ := ResetTracker.observe_recovering hevent h
  intro o ho
  obtain ⟨e, he⟩ : ∃ e, s.observations.getLast? = some e :=
    ⟨_, getLast?_eq_some_getLast (ne_nil_of_mem ho)⟩
  have hemem : e ∈ s.observations := mem_of_getLast? he
  obtain ⟨r, hr, hor⟩ := hs.recovering hrec o ho
  obtain ⟨r', hr', her⟩ := hs.recovering hrec e hemem
  obtain rfl : r = r' := Option.some.inj ((Option.mem_def.mp hr).symm.trans hr')
  -- The tracker saw no fall, the segment no rise: both bounds meet at `r`.
  have hup : v.remaining ≤ e.remaining :=
    PyFloat.le_of_not_lt (hs.numbers e hemem).2 hv
      (hfall e (by rw [hs.endpoint, he]; exact rfl))
  have hdown : r ≤ v.remaining := PyFloat.le_of_not_lt hv hor.2.1 (hkeep r hr)
  exact ⟨PyFloat.le_trans hor.1 hdown, PyFloat.le_trans (PyFloat.le_trans hup her.1) hor.2⟩

/-- **Every exit of `observe` keeps the invariant.** -/
theorem Coherent.accepts {s' : TrackingState α} (hs : s.Coherent) (hinvalid : s.invalid v = false)
    (hstale : s.stale v = false) (hv : v.receivedAt.IsNum) (h : Accepts s v s') : s'.Coherent := by
  have hnum : v.receivedAt.IsNum ∧ v.remaining.IsNum := ⟨hv, isNum_of_invalid hinvalid⟩
  cases h with
  | opened reason keepReset =>
    refine Coherent.extend_of_nil ?_ hnum rfl ?_
    · have hclosed : ((s.advance v).2.close reason keepReset).Coherent :=
        { (hs.close reason keepReset) with recovering := by simp [TrackingState.close] }
      exact hclosed
    · cases keepReset with
      | true => exact fun _ => rfl
      | false => exact fun hrec => by simp [TrackingState.close] at hrec
  | rebased =>
    exact
      { baseline := rfl
        endpoint := rfl
        last := rfl
        ordered := pairwise_singleton _ _
        numbers := by simpa [rebase] using hnum
        closed := hs.closed
        recovering := fun _ o ho => by
          obtain rfl : o = v := by simpa [rebase] using ho
          exact ⟨o.remaining, rfl, PyFloat.le_refl hnum.2, PyFloat.le_refl hnum.2⟩ }
  | extended _ hevent hlimit hfall =>
    have hstands := hs.recovering_stands hnum.2 hevent hfall
    refine (hs.advance v hstands).extend hnum (fun l hl => ?_) fun _ => rfl
    have hl : s.observations.getLast? = some l := hl
    have hlnum := hs.numbers l (mem_of_getLast? hl)
    have hlater : Later l v := later_of_stale hstale (hs.last.trans hl) hlnum.1 hv
    refine { hlater with remaining := ?_, epoch := ?_ }
    · exact PyFloat.le_of_not_lt hlnum.2 hnum.2 (hfall l (hs.endpoint.trans hl))
    · refine agreeExceptReset_of_sameLimitEpoch ?_
      simpa [sameLimit, hs.last, hl] using hlimit

end TrackingState

/-! ## runs -/

namespace Tracking

/-- A call of the two methods that change segments. -/
inductive Call (α : Type) where
  | observe (value : Observation α)
  | close (reason : CloseReason) (keepReset : Bool)

/-- The receive time of an observed value is not `nan`. -/
def Call.Timed : Call α → Prop
  | .observe value => value.receivedAt.IsNum
  | .close .. => True

/-- A run so far: the tracker, the values it accepted, and the candidates each
recovery discarded.  The last two are bookkeeping of the run only. -/
structure History (α : Type) where
  state : TrackingState α
  accepted : List (Observation α) := []
  replaced : List (List (Observation α)) := []

/-- A fresh `TrackingState(activated_at)`. -/
def History.start (activatedAt : PyFloat) : History α := { state := { activatedAt } }

variable [DecidableEq α]

/-- One call.  An `IndexError` (an empty epoch) leaves the tracker unchanged. -/
def History.step (h : History α) : Call α → History α
  | .close reason keepReset => { h with state := h.state.close reason keepReset }
  | .observe value => match h.state.observe value with
    | .error _ => h
    | .ok (false, s) => { h with state := s }
    | .ok (true, s) =>
      { state := s
        accepted := h.accepted ++ [value]
        replaced := if h.state.replaces value then h.replaced ++ [h.state.observations]
          else h.replaced }

/-- The first value accepted after a `close` comes after the last one accepted
before it. -/
def History.Resumes (h : History α) : Call α → Prop
  | .observe value => h.state.last = none → h.state.invalid value = false →
      ∀ a ∈ h.accepted.getLast?, Later a value
  | .close .. => True

/-- What holds after every call: the tracker is coherent, its segments hold the
accepted values that no recovery discarded, in order of acceptance, and each
discarded batch is of one allowance. -/
structure History.Accounts (h : History α) : Prop where
  coherent : h.state.Coherent
  last : ∀ l ∈ h.state.last, h.accepted.getLast? = some l
  sublist : h.state.collected.Sublist h.accepted
  perm : h.accepted.Perm (h.state.collected ++ h.replaced.flatten)
  batches : ∀ batch ∈ h.replaced, ∃ r : PyFloat, ∀ o ∈ batch, o.remaining ≤ r ∧ r ≤ o.remaining

omit [DecidableEq α] in
theorem History.start_accounts (activatedAt : PyFloat) :
    (History.start activatedAt : History α).Accounts where
  coherent := TrackingState.start_coherent activatedAt
  last := by simp [History.start]
  sublist := by simp [History.start, TrackingState.collected]
  perm := by simp [History.start, TrackingState.collected]
  batches := by simp [History.start]

theorem collected_accepts {s s' : TrackingState α} (hs : s.Coherent) {v : Observation α}
    (h : s.Accepts v s') :
    s'.last = some v ∧
      if s.replaces v then s'.collected = s.closed.flatMap (·.observations) ++ [v]
      else s'.collected = s.collected ++ [v] := by
  cases h with
  | opened reason keepReset h =>
    refine ⟨rfl, ?_⟩
    have hclose : ((s.advance v).2.close reason keepReset).collected = s.collected :=
      hs.collected_close reason keepReset
    rw [h, ← hclose]
    simp [TrackingState.collected, TrackingState.extend, TrackingState.close]
  | rebased h =>
    refine ⟨rfl, ?_⟩
    rw [h]
    simp [TrackingState.collected, TrackingState.rebase]
  | extended h =>
    refine ⟨rfl, ?_⟩
    rw [h]
    simp [TrackingState.collected, TrackingState.extend]

theorem replaced_level {s : TrackingState α} (hs : s.Coherent) {v : Observation α}
    (h : s.replaces v = true) :
    ∃ r : PyFloat, ∀ o ∈ s.observations, o.remaining ≤ r ∧ r ≤ o.remaining := by
  simp only [TrackingState.replaces, Bool.and_eq_true, Option.isNone_iff_eq_none,
    TrackingState.recovers] at h
  obtain ⟨-, hrec, -⟩ := ResetTracker.observe_recovering h.1 h.2.1.1
  cases hrem : s.resets.remaining with
  | none =>
    refine ⟨.nan, fun o ho => ?_⟩
    obtain ⟨r, hr, -⟩ := hs.recovering hrec o ho
    simp [hrem] at hr
  | some r =>
    refine ⟨r, fun o ho => ?_⟩
    obtain ⟨r', hr', hor⟩ := hs.recovering hrec o ho
    obtain rfl : r = r' := by simpa [hrem] using hr'
    exact hor

/-- **Step lemma**: every call keeps the accounts. -/
theorem History.Accounts.step {h : History α} (hh : h.Accounts) (c : Call α) (hc : c.Timed) :
    (h.step c).Accounts := by
  cases c with
  | close reason keepReset =>
    have hcol := hh.coherent.collected_close reason keepReset
    exact
      { coherent := hh.coherent.close reason keepReset
        last := by simp [History.step, TrackingState.close]
        sublist := by simpa only [History.step, hcol] using hh.sublist
        perm := by simpa only [History.step, hcol] using hh.perm
        batches := hh.batches }
  | observe v =>
    cases hobs : h.state.observe v with
    | error e => simpa only [History.step, hobs] using hh
    | ok result =>
      obtain ⟨accepted, s'⟩ := result
      rcases TrackingState.observe_cases hobs with ⟨rfl, rfl⟩ | ⟨rfl, hinv, hstale, hacc⟩
      · simpa only [History.step, hobs] using hh
      obtain ⟨hlast, hcol⟩ := collected_accepts hh.coherent hacc
      simp only [History.step, hobs]
      refine
        { coherent := hh.coherent.accepts hinv hstale hc hacc
          last := fun l hl => ?_
          sublist := ?_
          perm := ?_
          batches := ?_ }
      · obtain rfl : v = l := Option.some.inj (hlast.symm.trans hl)
        simp
      · have hsub : (h.state.closed.flatMap (·.observations)).Sublist h.accepted :=
          (sublist_append_left _ _).trans hh.sublist
        split at hcol
        · rw [hcol]; exact hsub.append (List.Sublist.refl [v])
        · rw [hcol]; exact hh.sublist.append (List.Sublist.refl [v])
      · -- The new value joins the segments; a recovery moves the open ones aside.
        have hperm := hh.perm.append_right [v]
        refine hperm.trans ?_
        split at hcol
        · next hrep =>
          rw [hcol, if_pos hrep]
          simp only [TrackingState.collected, flatten_append, flatten_singleton, append_assoc]
          refine List.Perm.append_left _ (perm_append_comm.trans ?_)
          rw [append_assoc]
          exact perm_append_comm_assoc _ _ _
        · next hrep =>
          rw [hcol, if_neg hrep]
          simp only [append_assoc]
          exact List.Perm.append_left _ perm_append_comm
      · split
        · next hrep =>
          intro batch hb
          rcases mem_append.mp hb with hb | hb
          · exact hh.batches batch hb
          · rw [mem_singleton.mp hb]
            exact replaced_level hh.coherent hrep
        · exact hh.batches

theorem History.Accounts.step_later {h : History α} (hh : h.Accounts) (c : Call α)
    (hc : c.Timed) (hresumes : h.Resumes c) (hlater : h.accepted.Pairwise Later) :
    (h.step c).accepted.Pairwise Later := by
  cases c with
  | close => exact hlater
  | observe v =>
    cases hobs : h.state.observe v with
    | error e => simpa only [History.step, hobs] using hlater
    | ok result =>
      obtain ⟨accepted, s'⟩ := result
      rcases TrackingState.observe_cases hobs with ⟨rfl, rfl⟩ | ⟨rfl, hinv, hstale, -⟩
      · simpa only [History.step, hobs] using hlater
      simp only [History.step, hobs]
      refine pairwise_concat hlater fun a ha => ?_
      cases hl : h.state.last with
      | none => exact hresumes hl hinv a ha
      | some l =>
        obtain rfl : a = l :=
          Option.some.inj ((Option.mem_def.mp ha).symm.trans (hh.last l hl))
        have hmem : a ∈ h.state.observations :=
          mem_of_getLast? (by rw [← hh.coherent.last, hl])
        exact TrackingState.later_of_stale hstale hl (hh.coherent.numbers a hmem).1 hc

def History.segments (h : History α) : List (List (Observation α)) :=
  h.state.closed.map (·.observations) ++ [h.state.observations]

omit [DecidableEq α] in
theorem History.flatten_segments (h : History α) : h.segments.flatten = h.state.collected := by
  simp [History.segments, TrackingState.collected, flatMap_def]

/-- **Segment invariant**, over every run of `observe` and `close` calls whose
receive times are numbers:

* the pointers of the open segment are its first and last observation, and it
  is ordered;
* every closed segment is nonempty and ordered;
* the accepted values are exactly the observations in the segments and the
  candidates recoveries discarded, each batch of which is of one allowance;
* if the first value accepted after each `close` comes after the last one
  accepted before it, the segments are pairwise disjoint and in time order. -/
theorem segments_of_run (activatedAt : PyFloat) (calls : List (Call α))
    (htimed : ∀ c ∈ calls, c.Timed) :
    let h := run History.step (History.start activatedAt) calls
    (h.state.baseline = h.state.observations.head? ∧
        h.state.endpoint = h.state.observations.getLast? ∧
        h.state.last = h.state.observations.getLast? ∧
        h.state.observations.Pairwise Follows) ∧
      (∀ c ∈ h.state.closed, c.WellFormed) ∧
      h.accepted.Perm (h.segments.flatten ++ h.replaced.flatten) ∧
      (∀ batch ∈ h.replaced, ∃ r : PyFloat, ∀ o ∈ batch, o.remaining ≤ r ∧ r ≤ o.remaining) ∧
      (Along History.step History.Resumes (History.start activatedAt) calls →
        h.segments.Pairwise fun xs ys => xs.Disjoint ys ∧ ∀ x ∈ xs, ∀ y ∈ ys, Later x y) := by
  intro h
  have haccounts : h.Accounts :=
    run_inv_along (P := fun _ c => c.Timed) (fun h c hh hc => hh.step c hc)
      (History.start_accounts activatedAt) (along_of_forall htimed)
  refine ⟨⟨haccounts.coherent.baseline, haccounts.coherent.endpoint, haccounts.coherent.last,
    haccounts.coherent.ordered⟩, haccounts.coherent.closed, ?_, haccounts.batches, ?_⟩
  · rw [History.flatten_segments]
    exact haccounts.perm
  · intro hresumes
    have hlater : h.Accounts ∧ h.accepted.Pairwise Later := by
      refine run_inv_along (P := fun (h : History α) (c : Call α) => c.Timed ∧ h.Resumes c)
        (I := fun h : History α => h.Accounts ∧ h.accepted.Pairwise Later)
        (fun h c hh hc => ⟨hh.1.step c hc.1, hh.1.step_later c hc.1 hc.2 hh.2⟩)
        ⟨History.start_accounts activatedAt, .nil⟩ ?_
      exact along_and (along_of_forall htimed) hresumes
    have hcollected := hlater.2.sublist haccounts.sublist
    rw [← History.flatten_segments, pairwise_flatten] at hcollected
    refine hcollected.2.imp fun hxy => ⟨fun a ha hb => ?_, hxy⟩
    exact lt_irrefl _ (hxy a ha a hb).sequence

def sample (sequence : Int) (time remaining : PyFloat) : Observation String :=
  { sequence, requestedAt := time, receivedAt := time, remaining, epoch := ["account", "week"] }

/-- The segment invariant on a run with a reset and a caller's close. -/
theorem segments_of_run_reset :
    let calls : List (Call String) := [.observe (sample 1 10 50), .observe (sample 2 20 40),
      .observe (sample 3 30 90), .close .monitoringOff false, .observe (sample 4 40 80)]
    let h := run History.step (History.start 0) calls
    h.segments = [[sample 1 10 50, sample 2 20 40], [sample 3 30 90], [sample 4 40 80]] ∧
      h.segments.Pairwise fun xs ys => xs.Disjoint ys ∧ ∀ x ∈ xs, ∀ y ∈ ys, Later x y := by
  intro calls h
  refine ⟨by decide +kernel, (segments_of_run 0 calls ?_).2.2.2.2 ?_⟩
  · intro c hc
    simp only [calls, mem_cons, not_mem_nil, or_false] at hc
    rcases hc with rfl | rfl | rfl | rfl | rfl <;> first | rfl | trivial
  · refine ⟨?_, ?_, ?_, trivial, ?_, trivial⟩
    · intro _ _ a ha; cases ha
    · intro hl; exact absurd hl (by decide +kernel)
    · intro hl; exact absurd hl (by decide +kernel)
    · intro _ _ a ha
      have hlast : (run History.step (History.start 0) (calls.take 4)).accepted.getLast? =
          some (sample 3 30 90) := by decide +kernel
      obtain rfl : sample 3 30 90 = a := Option.some.inj (hlast.symm.trans ha)
      exact ⟨by decide, by decide +kernel⟩

/-- Without these conditions the segments need not be disjoint, nor a segment
in time order: a caller's `close` lets the same observation be accepted again,
and a receive time that is `nan` compares with no other. -/
theorem segments_of_run_unordered : (∃ calls : List (Call String),
      ¬ (run History.step (History.start 0) calls).segments.Pairwise fun xs ys => xs.Disjoint ys) ∧
    (∃ calls : List (Call String),
      ¬ (run History.step (History.start 0) calls).state.observations.Pairwise
        fun a b => a.receivedAt ≤ b.receivedAt) := by
  constructor
  · refine ⟨[.observe (sample 1 10 50), .close .monitoringOff false, .observe (sample 1 10 50)], ?_⟩
    have hsegments : (run History.step (History.start 0) [Call.observe (sample 1 10 50),
        .close .monitoringOff false, .observe (sample 1 10 50)]).segments =
        [[sample 1 10 50], [sample 1 10 50]] := by decide +kernel
    rw [hsegments]
    simp
  · refine ⟨[.observe (sample 1 10 50), .observe (sample 2 .nan 50)], ?_⟩
    have hopen : (run History.step (History.start 0) [Call.observe (sample 1 10 50),
        .observe (sample 2 .nan 50)]).state.observations =
        [sample 1 10 50, sample 2 .nan 50] := by decide +kernel
    rw [hopen]
    simp [sample, PyFloat.le_def, PyFloat.IsNum]

end Tracking

end Codexon
