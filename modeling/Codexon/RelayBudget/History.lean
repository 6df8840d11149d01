import Codexon.RelayBudget

/-!
# Codexon.RelayBudget.History

What a connection still owes, told from its history alone: the requests nobody
has answered, the responses under way and whether anything was seen that cannot
be told.  The first frame of a response answers the oldest request of its lane;
an error outside a response refuses the only request of a lane where nothing
runs and nothing is being cancelled.  `Activity` keeps exactly this (`Reads`).

Histories have their last event first.
-/

namespace Codexon.Relay

open List Dict

/-! ## responses -/

def frames (log : List Event) (rid : Scalar) : List Frame :=
  log.filterMap fun
    | .delivered f false => if f.rid = some rid then some f else none
    | _ => none

def ended (log : List Event) (rid : Scalar) : Bool := (frames log rid).any Frame.terminal

def running (log : List Event) (rid : Scalar) : Option Scalar :=
  if ended log rid then none else (frames log rid).getLast?.map Frame.lane

def responses (log : List Event) : List Scalar :=
  log.filterMap fun
    | .delivered f false => f.rid
    | _ => none

def busyLane (log : List Event) (lane : Scalar) : Bool :=
  (responses log).any fun rid => running log rid = some lane

def anyRunning (log : List Event) : Bool := (responses log).any fun rid => (running log rid).isSome

/-- The response a frame belongs to, unless it has ended. -/
def owner (log : List Event) (f : Frame) : Option Scalar := f.rid.filter fun rid => !ended log rid

/-! ## requests -/

/-- A cancellation is under way in the lane: no response of it has ended since. -/
def cancelled : List Event → Scalar → Bool
  | [], _ => false
  | .begun f true :: log, lane =>
    cancelled log lane || (!f.asks && f.cancels && f.lane = lane)
  | .delivered f false :: log, lane =>
    match owner log f with
    | some rid => cancelled log lane && !(f.terminal && (running log rid).getD f.lane = lane)
    | none => cancelled log lane
  | .begun _ false :: log, lane | .delivered _ true :: log, lane => cancelled log lane

/-- The `event_id`s of the requests of a lane that nobody has answered, the
oldest first. -/
def outstanding : List Event → Scalar → List Scalar
  | [], _ => []
  | .begun f true :: log, lane =>
    if f.asks ∧ f.lane = lane then outstanding log lane ++ [f.eventId.getD (.str [])]
    else outstanding log lane
  | .delivered f false :: log, lane =>
    match owner log f with
    | some rid =>
      if (running log rid).isNone ∧ f.lane = lane then (outstanding log lane).tail
      else outstanding log lane
    | none =>
      if f.named ["error"] ∧ f.lane = lane ∧ ¬ cancelled log lane ∧
          (outstanding log lane).length = 1 ∧ ¬ busyLane log lane then []
      else outstanding log lane
  | .begun _ false :: log, lane | .delivered _ true :: log, lane => outstanding log lane

def refuses (log : List Event) (f : Frame) : Bool :=
  (outstanding log f.lane).length = 1 && !busyLane log f.lane

/-- Something was seen that cannot be told: the connection is not a known one, a
type is new, or an error may concern any of several requests. -/
def unclear (known : Bool) : List Event → Bool
  | [] => !known
  | .begun f true :: log => unclear known log || !(f.asks || f.cancels || f.controls)
  | .delivered f false :: log =>
    unclear known log || (owner log f).isNone &&
      if f.named ["error"] then
        !cancelled log f.lane && !refuses log f &&
          (outstanding log f.lane != [] || anyRunning log)
      else !f.notifies
  | .begun _ false :: log | .delivered _ true :: log => unclear known log

/-- A frame is accepted. -/
def Event.isBegun : Event → Bool
  | .begun _ _ => true
  | .delivered _ _ => false

def inFlight (log : List Event) : Int :=
  log.countP Event.isBegun - log.countP fun e => !e.isBegun

/-- Nothing is owed. -/
structure Settled (known : Bool) (log : List Event) : Prop where
  delivered : inFlight log = 0
  answered : ∀ lane, outstanding log lane = []
  ended : ∀ rid, running log rid = none
  clear : unclear known log = false

/-! ## what the accounting knows -/

/-- The accounting tells what the history owes. -/
structure Activity.Reads (known : Bool) (log : List Event) (a : Activity) : Prop where
  pending : ∀ lane, a.queue lane = outstanding log lane
  active : ∀ rid, a.active.get? rid = running log rid
  completed : ∀ rid, rid ∈ a.completed ↔ ended log rid = true
  cancelling : ∀ lane, lane ∈ a.cancelling ↔ cancelled log lane = true
  unknown : a.unknown = unclear known log

variable {log : List Event}

theorem frames_cons {f : Frame} {outbound : Bool} (rid : Scalar) :
    frames (.delivered f outbound :: log) rid =
      if outbound = false ∧ f.rid = some rid then f :: frames log rid else frames log rid := by
  unfold frames
  cases outbound <;> by_cases h : f.rid = some rid <;> simp [h]

theorem ended_delivered {f : Frame} (rid : Scalar) :
    ended (.delivered f false :: log) rid =
      (ended log rid || (owner log f = some rid && f.terminal)) := by
  simp only [ended, owner, frames_cons, Option.filter_eq_some_iff]
  by_cases h : f.rid = some rid
  · cases hended : (frames log rid).any Frame.terminal <;> simp [h, hended]
  · simp [h]

theorem running_delivered {f : Frame} (rid : Scalar) :
    running (.delivered f false :: log) rid =
      if owner log f = some rid then
        if f.terminal then none else some ((running log rid).getD f.lane)
      else running log rid := by
  by_cases howner : owner log f = some rid
  · obtain ⟨hrid, hended⟩ := Option.filter_eq_some_iff.mp howner
    have hended : ended log rid = false := by simpa using hended
    simp only [running, ended_delivered, howner, hended, frames_cons, hrid]
    cases hframes : frames log rid with
    | nil => simp
    | cons g gs => simp [getLast?_eq_some_getLast]
  · rw [if_neg howner]
    by_cases hrid : f.rid = some rid
    · have hended : ended log rid = true := by
        by_contra hne
        exact howner (Option.filter_eq_some_iff.mpr ⟨hrid, by simpa using hne⟩)
      simp [running, ended_delivered, hended]
    · simp [running, ended_delivered, howner, frames_cons, hrid]

theorem mem_responses {rid : Scalar} {lane : Scalar}
    (h : running log rid = some lane) : rid ∈ responses log := by
  unfold running at h
  split at h
  · cases h
  · obtain ⟨f, hf, -⟩ := Option.map_eq_some_iff.mp h
    obtain ⟨e, he, hef⟩ := mem_filterMap.mp (mem_of_getLast? hf)
    refine mem_filterMap.mpr ⟨e, he, ?_⟩
    cases e with
    | begun g outbound => cases hef
    | delivered g outbound =>
      cases outbound with
      | true => cases hef
      | false =>
        dsimp only at hef ⊢
        split at hef
        · assumption
        · cases hef

theorem busyLane_iff {lane : Scalar} :
    busyLane log lane = true ↔ ∃ rid, running log rid = some lane := by
  simp only [busyLane, any_eq_true, decide_eq_true_eq]
  exact ⟨fun ⟨rid, _, h⟩ => ⟨rid, h⟩, fun ⟨rid, h⟩ => ⟨rid, mem_responses h, h⟩⟩

theorem anyRunning_iff : anyRunning log = true ↔ ∃ rid lane, running log rid = some lane := by
  simp only [anyRunning, any_eq_true, Option.isSome_iff_exists]
  exact ⟨fun ⟨rid, _, lane, h⟩ => ⟨rid, lane, h⟩, fun ⟨rid, lane, h⟩ => ⟨rid, mem_responses h, lane, h⟩⟩

namespace Activity

variable {known : Bool} {log : List Event} {a : Activity}

theorem reads_new (known : Bool) : (Activity.new known).Reads known [] where
  pending := fun _ => rfl
  active := fun _ => rfl
  completed := by simp [Activity.new, ended, frames]
  cancelling := by simp [Activity.new, cancelled]
  unknown := rfl

theorem Reads.owner (h : a.Reads known log) (f : Frame) :
    f.rid.filter (· ∉ a.completed) = owner log f := by
  unfold Relay.owner
  congr 1
  funext rid
  simp [h.completed rid]

theorem Reads.busyLane (h : a.Reads known log) (lane : Scalar) :
    a.active.entries.any (fun e => e.2 = lane) = busyLane log lane := by
  rw [Bool.eq_iff_iff, busyLane_iff, any_eq_true]
  simp only [decide_eq_true_eq, ← h.active, get?_eq_some]
  constructor
  · rintro ⟨e, he, hlane⟩
    exact ⟨e.1, hlane ▸ he⟩
  · rintro ⟨rid, hrid⟩
    exact ⟨_, hrid, rfl⟩

theorem Reads.anyRunning (h : a.Reads known log) :
    (!a.active.entries.isEmpty) = anyRunning log := by
  rw [Bool.eq_iff_iff, anyRunning_iff]
  simp only [← h.active, get?_eq_some, Bool.not_eq_true', isEmpty_eq_false_iff]
  constructor
  · intro hne
    obtain ⟨e, he⟩ := exists_mem_of_ne_nil _ hne
    exact ⟨e.1, e.2, he⟩
  · rintro ⟨rid, lane, hmem⟩
    exact ne_nil_of_mem hmem

theorem queue_set (a : Activity) (lane lane' : Scalar) (ids : List Scalar) :
    ((a.pending.set lane ids).get? lane').getD [] = if lane' = lane then ids else a.queue lane' :=
    by
  rw [get?_set]
  split <;> rfl

theorem queue_erase (a : Activity) (lane lane' : Scalar) :
    ((a.pending.erase lane).get? lane').getD [] = if lane' = lane then [] else a.queue lane' := by
  rw [get?_erase]
  split <;> rfl

theorem queue_pop (a : Activity) (lane lane' : Scalar) :
    ((if a.queue lane = [] then a.pending
      else if (a.queue lane).tail = [] then a.pending.erase lane
      else a.pending.set lane (a.queue lane).tail).get? lane').getD [] =
        if lane' = lane then (a.queue lane).tail else a.queue lane' := by
  by_cases hempty : a.queue lane = []
  · rw [if_pos hempty, hempty]
    split
    · next hlane => rw [hlane]; exact hempty
    · rfl
  · rw [if_neg hempty]
    split
    · next htail => rw [queue_erase, htail]
    · rw [queue_set]

theorem asked_eq_false : a.asked = false ↔ ∀ lane, a.queue lane = [] := by
  simp only [asked, any_eq_false, Bool.not_eq_true', isEmpty_eq_false_iff, queue, ne_eq, not_not]
  constructor
  · intro hall lane
    cases hget : a.pending.get? lane with
    | none => rfl
    | some ids => exact hall (lane, ids) (get?_eq_some.mp hget)
  · intro hall e he
    have := hall e.1
    rwa [get?_eq_some.mpr he] at this

theorem Reads.settle (h : a.Reads known log) (now : Time) : (a.settle now).Reads known log := by
  unfold Activity.settle
  split
  · exact ⟨h.pending, h.active, h.completed, h.cancelling, h.unknown⟩
  · split
    · exact ⟨h.pending, h.active, h.completed, h.cancelling, h.unknown⟩
    · exact h

theorem Reads.begin (h : a.Reads known log) {f : Frame} {outbound : Bool}
    (haccepted : (a.begin f outbound).1 = true) :
    (a.begin f outbound).2.Reads known (.begun f outbound :: log) := by
  unfold Activity.begin at haccepted ⊢
  split at haccepted
  · cases haccepted
  next hclosing =>
  rw [if_neg hclosing]
  cases outbound with
  | false => exact ⟨h.pending, h.active, h.completed, h.cancelling, h.unknown⟩
  | true =>
    simp only [if_true]
    by_cases hasks : f.asks
    · rw [if_pos hasks]
      refine ⟨fun lane => ?_, h.active, h.completed, fun lane => ?_, ?_⟩
      · refine (queue_set a f.lane lane (a.queue f.lane ++ [f.eventId.getD (.str [])])).trans ?_
        simp only [outstanding, hasks, true_and]
        by_cases hlane : lane = f.lane
        · simp [hlane, h.pending]
        · simp [hlane, Ne.symm hlane, h.pending]
      · simpa [cancelled, hasks] using h.cancelling lane
      · simpa [unclear, hasks] using h.unknown
    · rw [if_neg hasks]
      have hpending (lane : Scalar) : a.queue lane = outstanding (.begun f true :: log) lane := by
        simpa [outstanding, hasks] using h.pending lane
      by_cases hcancels : f.cancels
      · rw [if_pos hcancels]
        refine ⟨hpending, h.active, h.completed, fun lane => ?_, ?_⟩
        · by_cases hlane : lane = f.lane
          · simp [cancelled, hasks, hcancels, hlane]
          · simp [cancelled, hlane, Ne.symm hlane, h.cancelling lane]
        · simpa [unclear, hcancels] using h.unknown
      · rw [if_neg hcancels]
        have hcancelling (lane : Scalar) :
            lane ∈ a.cancelling ↔ cancelled (.begun f true :: log) lane = true := by
          simpa [cancelled, hcancels] using h.cancelling lane
        by_cases hcontrols : f.controls
        · rw [if_pos hcontrols]
          exact ⟨hpending, h.active, h.completed, hcancelling, by
            simpa [unclear, hcontrols] using h.unknown⟩
        · rw [if_neg hcontrols]
          exact ⟨hpending, h.active, h.completed, hcancelling, by
            simp [unclassified, unclear, hasks, hcancels, hcontrols]⟩

theorem Reads.responded (h : a.Reads known log) {f : Frame} {rid : Scalar}
    (howner : Relay.owner log f = some rid) :
    (a.responded f rid).Reads known (.delivered f false :: log) := by
  generalize hb : (if (a.active.get? rid).isSome then a
    else
      { a with
        pending :=
          if a.queue f.lane = [] then a.pending
          else if (a.queue f.lane).tail = [] then a.pending.erase f.lane
          else a.pending.set f.lane (a.queue f.lane).tail
        active := a.active.set rid f.lane }) = b
  -- before the terminal frame is looked at
  have hpending (lane : Scalar) : b.queue lane = outstanding (.delivered f false :: log) lane := by
    simp only [outstanding, howner, ← h.active]
    rw [← hb]
    cases hactive : a.active.get? rid with
    | some lane' => simpa using h.pending lane
    | none =>
      refine (queue_pop a f.lane lane).trans ?_
      by_cases hlane : lane = f.lane
      · simp [hlane, h.pending]
      · simp [hlane, Ne.symm hlane, h.pending]
  have hactive (rid' : Scalar) : b.active.get? rid' =
      if rid' = rid then some ((running log rid).getD f.lane) else running log rid' := by
    rw [← hb]
    cases hactive : a.active.get? rid with
    | some lane =>
      rw [h.active] at hactive
      by_cases hrid : rid' = rid
      · simp [hrid, h.active, hactive]
      · simp [hrid, h.active]
    | none =>
      rw [h.active] at hactive
      by_cases hrid : rid' = rid
      · simp [hrid, get?_set, hactive]
      · simp [hrid, get?_set, h.active]
  have hsame : b.completed = a.completed ∧ b.cancelling = a.cancelling ∧ b.unknown = a.unknown := by
    rw [← hb]
    split <;> exact ⟨rfl, rfl, rfl⟩
  have hunclear : b.unknown = unclear known (.delivered f false :: log) := by
    rw [hsame.2.2, h.unknown]
    simp [unclear, howner]
  have hresponded : a.responded f rid = if f.terminal then
      { b with
        active := b.active.erase rid
        cancelling := match b.active.get? rid with
          | some lane => b.cancelling.erase lane
          | none => b.cancelling
        completed := insert rid b.completed } else b := by
    rw [← hb]
    rfl
  rw [hresponded]
  by_cases hterminal : f.terminal
  · rw [if_pos hterminal]
    refine ⟨hpending, fun rid' => ?_, fun rid' => ?_, fun lane => ?_, hunclear⟩
    · rw [get?_erase, running_delivered, howner, hactive]
      by_cases hrid : rid' = rid
      · simp [hrid, hterminal]
      · simp [hrid, Ne.symm hrid]
    · rw [ended_delivered, howner]
      by_cases hrid : rid' = rid
      · simp [hsame.1, hterminal, hrid]
      · simp [hsame.1, h.completed rid', hrid, Ne.symm hrid]
    · simp only [hactive, if_true, hsame.2.1, Finset.mem_erase, h.cancelling lane, cancelled, howner,
        hterminal, Bool.true_and]
      generalize (running log rid).getD f.lane = ending
      by_cases hlane : lane = ending
      · simp [hlane]
      · simp [hlane, Ne.symm hlane]
  · rw [if_neg hterminal]
    refine ⟨hpending, fun rid' => ?_, fun rid' => ?_, fun lane => ?_, hunclear⟩
    · rw [running_delivered, howner, hactive]
      by_cases hrid : rid' = rid
      · simp [hrid, hterminal]
      · simp [hrid, Ne.symm hrid]
    · rw [ended_delivered, howner]
      simp [hsame.1, h.completed rid', hterminal]
    · simp [hsame.2.1, h.cancelling lane, cancelled, howner, hterminal]

theorem running_unowned {f : Frame} (howner : Relay.owner log f = none) (rid : Scalar) :
    running (.delivered f false :: log) rid = running log rid ∧
      ended (.delivered f false :: log) rid = ended log rid := by
  simp [running_delivered, ended_delivered, howner]

theorem Reads.failed (h : a.Reads known log) {f : Frame} (howner : Relay.owner log f = none)
    (herror : f.named ["error"] = true) : (a.failed f).Reads known (.delivered f false :: log) := by
  have hactive (rid : Scalar) : a.active.get? rid = running (.delivered f false :: log) rid :=
    (h.active rid).trans (running_unowned howner rid).1.symm
  have hcompleted (rid : Scalar) :
      rid ∈ a.completed ↔ ended (.delivered f false :: log) rid = true := by
    rw [(running_unowned howner rid).2]
    exact h.completed rid
  have hcancelling (lane : Scalar) :
      lane ∈ a.cancelling ↔ cancelled (.delivered f false :: log) lane = true := by
    simpa [cancelled, howner] using h.cancelling lane
  have hbusy := h.busyLane f.lane
  have hlength : (a.queue f.lane).length = (outstanding log f.lane).length := by rw [h.pending]
  unfold Activity.failed
  by_cases hcancelled : f.lane ∈ a.cancelling
  · -- the cancellation may be what failed
    rw [if_pos hcancelled]
    rw [h.cancelling] at hcancelled
    refine ⟨fun lane => ?_, hactive, hcompleted, hcancelling, ?_⟩
    · rw [h.pending]
      simp only [outstanding, howner]
      rw [if_neg (fun hall => hall.2.2.1 (hall.2.1 ▸ hcancelled))]
    · simp [unclear, howner, herror, hcancelled, h.unknown]
  · rw [if_neg hcancelled]
    rw [h.cancelling, Bool.not_eq_true] at hcancelled
    by_cases hrefuses : (a.queue f.lane).length = 1 ∧ ¬ a.active.entries.any (fun e => e.2 = f.lane)
    · rw [if_pos hrefuses]
      rw [hbusy, hlength] at hrefuses
      refine ⟨fun lane => ?_, hactive, hcompleted, hcancelling, ?_⟩
      · refine (queue_erase a f.lane lane).trans ?_
        simp only [outstanding, howner]
        by_cases hlane : lane = f.lane
        · simp [hlane, herror, hcancelled, hrefuses.1, hrefuses.2]
        · simp [hlane, Ne.symm hlane, h.pending]
      · simp [unclear, howner, herror, refuses, hrefuses.1, hrefuses.2, h.unknown]
    · rw [if_neg hrefuses]
      rw [hbusy, hlength] at hrefuses
      have hpending (lane : Scalar) :
          a.queue lane = outstanding (.delivered f false :: log) lane := by
        rw [h.pending]
        simp only [outstanding, howner]
        split
        · next hall =>
          obtain ⟨-, rfl, -, hone, hquiet⟩ := hall
          exact absurd ⟨hone, hquiet⟩ hrefuses
        · rfl
      have hnot : refuses log f = false := by
        simpa [refuses] using hrefuses
      have hany := h.anyRunning
      by_cases hdoubt : a.queue f.lane ≠ [] ∨ ¬ a.active.entries.isEmpty
      · rw [if_pos hdoubt]
        refine ⟨hpending, hactive, hcompleted, hcancelling, ?_⟩
        rw [h.pending] at hdoubt
        have hdoubt : (outstanding log f.lane != [] || Relay.anyRunning log) = true := by
          rw [← hany]
          simpa using hdoubt
        simp only [unclear, howner, herror, hcancelled, hnot, unclassified, hdoubt]
        simp
      · rw [if_neg hdoubt]
        refine ⟨hpending, hactive, hcompleted, hcancelling, ?_⟩
        rw [h.pending] at hdoubt
        have hdoubt : (outstanding log f.lane != [] || Relay.anyRunning log) = false := by
          rw [← hany]
          simpa [Classical.not_imp] using hdoubt
        rw [h.unknown]
        simp only [unclear, herror, if_true, hdoubt, Bool.and_false, Bool.or_false]

theorem Reads.received (h : a.Reads known log) (f : Frame) :
    (a.received f).Reads known (.delivered f false :: log) := by
  unfold Activity.received
  rw [h.owner]
  cases howner : Relay.owner log f with
  | some rid => exact h.responded howner
  | none =>
    dsimp only
    by_cases herror : f.named ["error"] = true
    · rw [if_pos herror]
      exact h.failed howner herror
    · rw [if_neg herror]
      have hpending (lane : Scalar) :
          a.queue lane = outstanding (.delivered f false :: log) lane := by
        simpa [outstanding, howner, herror] using h.pending lane
      have hactive (rid : Scalar) : a.active.get? rid = running (.delivered f false :: log) rid :=
        (h.active rid).trans (running_unowned howner rid).1.symm
      have hcompleted (rid : Scalar) :
          rid ∈ a.completed ↔ ended (.delivered f false :: log) rid = true := by
        rw [(running_unowned howner rid).2]
        exact h.completed rid
      have hcancelling (lane : Scalar) :
          lane ∈ a.cancelling ↔ cancelled (.delivered f false :: log) lane = true := by
        simpa [cancelled, howner] using h.cancelling lane
      by_cases hnotifies : f.notifies
      · rw [if_pos hnotifies]
        exact ⟨hpending, hactive, hcompleted, hcancelling, by
          simp [unclear, howner, herror, hnotifies, h.unknown]⟩
      · rw [if_neg hnotifies]
        exact ⟨hpending, hactive, hcompleted, hcancelling, by
          simp [unclassified, unclear, howner, herror, hnotifies]⟩

theorem Reads.delivered (h : a.Reads known log) (f : Frame) (outbound : Bool) (now : Time) :
    (a.delivered f outbound now).Reads known (.delivered f outbound :: log) := by
  have hfinish {b : Activity} {e : Event} (hb : b.Reads known (e :: log)) :
      Reads known (e :: log) (Activity.settle { b with forwarding := b.forwarding - 1 } now) := by
    have hless : Reads known (e :: log) { b with forwarding := b.forwarding - 1 } :=
      ⟨hb.pending, hb.active, hb.completed, hb.cancelling, hb.unknown⟩
    exact hless.settle now
  cases outbound with
  | true =>
    have hsent : a.Reads known (.delivered f true :: log) :=
      ⟨h.pending, h.active, h.completed, h.cancelling, h.unknown⟩
    exact hfinish hsent
  | false => exact hfinish (h.received f)

theorem Reads.settled (h : a.Reads known log) (hforwarding : a.forwarding = inFlight log)
    (hidle : a.busy = false) : Settled known log := by
  simp only [busy, Bool.or_eq_false_iff, bne_eq_false_iff_eq] at hidle
  obtain ⟨⟨⟨hunknown, hzero⟩, hactive⟩, hasked⟩ := hidle
  refine ⟨hforwarding ▸ hzero, fun lane => ?_, fun rid => ?_, h.unknown ▸ hunknown⟩
  · rw [← h.pending]
    exact asked_eq_false.mp hasked lane
  · have hnone : Relay.anyRunning log = false := h.anyRunning ▸ hactive
    by_contra hne
    obtain ⟨lane, hlane⟩ := Option.ne_none_iff_exists'.mp hne
    rw [anyRunning_iff.mpr ⟨rid, lane, hlane⟩] at hnone
    cases hnone

end Activity

end Codexon.Relay
