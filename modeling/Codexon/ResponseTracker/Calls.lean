import Codexon.ResponseTracker.Ledger

/-!
# Codexon.ResponseTracker.Calls

The calls of the tracker on its ledger.  A request enters a new record, an error
without id drops the oldest record of its lane, the first event of a response
activates one, and the events of the response keep it until it completes.  The
queue of a lane is a suffix of the requests of the lane (`Ordered`).
-/

namespace Codexon.ResponseTracker

open List Dict

/-! ## the order of a lane -/

def requestsOf (s : State) (lane : PyStr) : List Nat :=
  (s.requested.filter (·.2 = lane)).map Prod.fst

/-- The queues keep the order of the requests, which have attempts of their own. -/
structure Ordered (s : State) : Prop where
  suffix : ∀ lane, (queue s lane).map Record.attempt <:+ requestsOf s lane
  nodup : (s.requested.map Prod.fst).Nodup
  below : ∀ x ∈ s.requested, x.1 < s.attempts

theorem ordered_init : Ordered {} where
  suffix _ := suffix_refl _
  nodup := .nil
  below _ h := nomatch h

variable {s : State}

theorem Ordered.requestsOf_nodup (h : Ordered s) (lane : PyStr) : (requestsOf s lane).Nodup :=
  h.nodup.sublist (filter_sublist.map Prod.fst)

theorem Ordered.distinct (h : Ordered s) (lane : PyStr) :
    ((queue s lane).map Record.attempt).Nodup :=
  (h.requestsOf_nodup lane).sublist (h.suffix lane).sublist

variable {s' : State}

theorem Ordered.shorten (h : Ordered s) (hrequested : s'.requested = s.requested)
    (hattempts : s.attempts ≤ s'.attempts)
    (hqueue : ∀ lane, queue s' lane <:+ queue s lane) : Ordered s' where
  suffix lane := by
    have hrequests : requestsOf s' lane = requestsOf s lane := by
      simp only [requestsOf, hrequested]
    rw [hrequests]
    exact ((hqueue lane).map Record.attempt).trans (h.suffix lane)
  nodup := hrequested ▸ h.nodup
  below x hx := (h.below x (hrequested ▸ hx)).trans_le hattempts

/-! ## moving one record -/

variable {ledger : Ledger} {record : Record}

theorem Kept.unique (h : Kept s ledger) {record' : Record}
    {place place' : Place} (hrecord : Holds s record place) (hrecord' : Holds s record' place')
    (hsame : record'.attempt = record.attempt) : place' = place ∧ record' = record := by
  have hledger := (h.holds place record).mp hrecord
  have hledger' := (h.holds place' record').mp hrecord'
  rw [hsame, hledger, Option.some.injEq] at hledger'
  exact ⟨(Prod.mk.inj hledger').1.symm, (Prod.mk.inj hledger').2.symm⟩

theorem Kept.elsewhere (h : Kept s ledger) {record' : Record}
    (place place' : Place) (hrecord : Holds s record place) (hrecord' : Holds s record' place')
    (hplace : place' ≠ place) : record'.attempt ≠ record.attempt :=
  fun hsame => hplace (h.unique hrecord hrecord' hsame).1

theorem Kept.below (h : Kept s ledger) (place : Place) (hrecord : Holds s record place) :
    record.attempt < s.attempts := by
  rw [← h.placed, (h.holds place record).mp hrecord]
  rfl

theorem ne_head {head : Record} {rest : List Record}
    (hdistinct : ((head :: rest).map Record.attempt).Nodup) (hrecord : record ∈ rest) :
    record.attempt ≠ head.attempt := by
  rw [map_cons, nodup_cons] at hdistinct
  intro hsame
  exact hdistinct.1 (List.mem_map.mpr ⟨record, hrecord, hsame⟩)

/-! ## requests -/

theorem queue_request (env : Env) (obj : Members) (s : State) (lane : PyStr) :
    queue (request env obj s) lane =
      if lane = laneOf obj then queue s lane ++ [marked env (requestRecord s.attempts obj)]
      else queue s lane := by
  simp only [request, queue, save_pending]
  rw [get?_set]
  split
  · rename_i hlane
    rw [hlane]
    rfl
  · rfl

theorem kept_request (env : Env) (obj : Members) (h : Kept s ledger) : ∃ ledger', Kept
    (request env obj s) ledger' := by
  have hattempt : (marked env (requestRecord s.attempts obj)).attempt = s.attempts := by
    simp [requestRecord]
  apply h.move (.pending (laneOf obj))
    (.pending (laneOf obj), marked env (requestRecord s.attempts obj))
  · intro place record hplace _
    cases place with
    | pending lane =>
      have hlane : lane ≠ laneOf obj := by simpa using hplace
      simp [Holds, queue_request, hlane]
    | active rid | completed rid | dropped => simp [Holds, request]
  · simp
  · intro record
    have hold : record ∈ queue s (laneOf obj) → record.attempt ≠ s.attempts :=
      fun hrecord => (h.below (.pending (laneOf obj)) hrecord).ne
    simp only [Holds, queue_request, if_true, mem_append, mem_singleton, hattempt]
    grind
  · exact .inr ⟨by simp [request], hattempt⟩
  · simp [Owned, requestRecord]
  · intro old hold
    rw [hattempt] at hold
    have hplaced := (h.placed s.attempts).mp (by rw [hold]; rfl)
    exact absurd hplaced (Nat.lt_irrefl _)
  · apply tells_save env (requestRecord s.attempts obj) false rfl
    have hpending : py "pending" ∉ terminal := by decide
    simp [requestRecord, hpending]

theorem ordered_request (env : Env) (obj : Members) (h : Ordered s) :
    Ordered (request env obj s) := by
  have hrequested : (request env obj s).requested = s.requested ++ [(s.attempts, laneOf obj)] := by
    simp [request, requestRecord]
  constructor
  · intro lane
    rw [queue_request]
    simp only [requestsOf, hrequested, filter_append, map_append]
    split
    · rename_i hlane
      subst hlane
      obtain ⟨gone, hgone⟩ := h.suffix (laneOf obj)
      refine ⟨gone, ?_⟩
      simp only [requestsOf] at hgone
      rw [← hgone]
      simp [requestRecord]
    · rename_i hlane
      simpa [requestsOf, Ne.symm hlane] using h.suffix lane
  · rw [hrequested, map_append, nodup_append]
    refine ⟨h.nodup, by simp, ?_⟩
    intro attempt hattempt other hother hsame
    obtain ⟨x, hx, rfl⟩ := List.mem_map.mp hattempt
    have hbelow := h.below x hx
    simp only [map_cons, map_nil, mem_singleton] at hother
    omega
  · intro x hx
    have hattempts : (request env obj s).attempts = s.attempts + 1 := by simp [request]
    rw [hrequested, mem_append, mem_singleton] at hx
    cases hx with
    | inl hold =>
      have hbelow := h.below x hold
      omega
    | inr hnew =>
      rw [hnew]
      omega

/-! ## moves of a record that is held -/

/-- **A held record moves**: the places it leaves and enters, and what it may become. -/
theorem Kept.moveHeld (h : Kept s ledger) (old : Record)
    (source : Place) (entry : Place × Record) (hold : Holds s old source)
    (hattempt : entry.2.attempt = old.attempt)
    (hframe : ∀ place record, place ≠ source → place ≠ entry.1 →
      (Holds s' record place ↔ Holds s record place))
    (hsource : source ≠ entry.1 → ∀ record, Holds s' record source ↔
      Holds s record source ∧ record.attempt ≠ old.attempt)
    (htarget : ∀ record, Holds s' record entry.1 ↔
      record = entry.2 ∨ Holds s record entry.1 ∧ record.attempt ≠ old.attempt)
    (hattempts : s'.attempts = s.attempts) (howned : Owned entry)
    (hevolves : Evolves (source, old) entry) (htells : Tells s s' entry) :
    ∃ ledger', Kept s' ledger' := by
  have hledger := (h.holds source old).mp hold
  apply h.move source entry hframe
  · rw [hattempt]
    exact hsource
  · rw [hattempt]
    exact htarget
  · exact .inl ⟨hattempts, hattempt ▸ h.below source hold⟩
  · exact howned
  · intro e he
    rw [hattempt, hledger, Option.some.injEq] at he
    subst he
    exact ⟨rfl, hevolves⟩
  · exact htells

theorem queue_congr (h : s'.pending = s.pending) (lane : PyStr) : queue s' lane = queue s lane := by
  simp only [queue, h]

theorem mem_rest {head : Record} {rest : List Record}
    (hdistinct : ((head :: rest).map Record.attempt).Nodup) :
    record ∈ rest ↔ record ∈ head :: rest ∧ record.attempt ≠ head.attempt := by
  constructor
  · intro hrecord
    exact ⟨mem_cons_of_mem _ hrecord, ne_head hdistinct hrecord⟩
  · rintro ⟨hrecord, hne⟩
    cases hrecord with
    | head => exact absurd rfl hne
    | tail _ hrecord => exact hrecord

/-! ## errors without a response id -/

theorem kept_failOldest (env : Env) (lane : PyStr) (h : Kept s ledger)
    (hdistinct : ((queue s lane).map Record.attempt).Nodup) :
    ∃ ledger', Kept (failOldest env lane s) ledger' := by
  unfold failOldest
  cases hqueue : queue s lane with
  | nil => exact ⟨ledger, h⟩
  | cons head rest =>
    rw [hqueue] at hdistinct
    have hhead : Holds s head (.pending lane) := by simp [Holds, hqueue]
    apply h.moveHeld head (.pending lane)
      (.dropped, marked env { head with status := py "failed" })
      hhead
    · rw [marked_attempt]
    · intro place record hplace hdropped
      cases place with
      | pending lane' =>
        have hlane : lane' ≠ lane := by simpa using hplace
        simp only [Holds]
        rw [queue_congr (s := setQueue s lane rest) (by simp), queue_setQueue, if_neg hlane]
      | active rid | completed rid => simp [Holds, setQueue]
      | dropped => simp at hdropped
    · intro _ record
      simp only [Holds]
      rw [queue_congr (s := setQueue s lane rest) (by simp), queue_setQueue, if_pos rfl, hqueue]
      exact mem_rest hdistinct
    · intro record
      have hold : record ∈ s.dropped → record.attempt ≠ head.attempt :=
        fun hrecord => h.elsewhere (.pending lane) .dropped hhead hrecord (by simp)
      simp only [Holds, save_dropped, setQueue, mem_append, mem_singleton]
      grind
    · simp [setQueue]
    · trivial
    · constructor
      · intro hclosed
        exact hclosed.elim
      · simp
    · apply tells_save env { head with status := py "failed" } false
      · simp [setQueue]
      · exact fun _ => trivial

/-! ## the first event of a response -/

theorem kept_associate (rid lane : PyStr) (h : Kept s ledger)
    (hdistinct : ((queue s lane).map Record.attempt).Nodup)
    (hactive : s.active.get? rid = none) : ∃ ledger', Kept (associate rid lane s) ledger' := by
  unfold associate
  cases hqueue : queue s lane with
  | nil =>
    apply h.move (.active rid) (.active rid, { attempt := s.attempts })
    · intro place record hplace _
      cases place with
      | active rid' =>
        have hrid : rid' ≠ rid := by simpa using hplace
        simp [Holds, get?_set, hrid]
      | pending lane' => simp [Holds, queue]
      | completed rid' | dropped => simp [Holds]
    · simp
    · intro record
      simp only [Holds, get?_set, if_true, hactive]
      grind
    · exact .inr ⟨rfl, rfl⟩
    · exact .inl rfl
    · intro old hold
      have hplaced := (h.placed s.attempts).mp (by rw [hold]; rfl)
      exact absurd hplaced (Nat.lt_irrefl _)
    · exact .inl rfl
  | cons head rest =>
    rw [hqueue] at hdistinct
    have hhead : Holds s head (.pending lane) := by simp [Holds, hqueue]
    have howned := (h.own _ _ ((h.holds _ _).mp hhead)).2
    apply h.moveHeld head (.pending lane) (.active rid, head) hhead rfl
    · intro place record hplace hother
      cases place with
      | pending lane' =>
        have hlane : lane' ≠ lane := by simpa using hplace
        simp only [Holds]
        rw [queue_congr (s := setQueue s lane rest) (by simp), queue_setQueue, if_neg hlane]
      | active rid' =>
        have hrid : rid' ≠ rid := by simpa using hother
        simp [Holds, get?_set, hrid, setQueue]
      | completed rid' | dropped => simp [Holds, setQueue]
    · intro _ record
      simp only [Holds]
      rw [queue_congr (s := setQueue s lane rest) (by simp), queue_setQueue, if_pos rfl, hqueue]
      exact mem_rest hdistinct
    · intro record
      simp only [Holds, get?_set, if_true, hactive, setQueue]
      grind
    · rfl
    · exact .inl howned
    · exact ⟨fun hclosed => hclosed.elim, fun _ => rfl⟩
    · exact .inl rfl

/-! ## the events of a response -/

theorem kept_setCompleted {rid : PyStr} {new : Record} (h : Kept s ledger)
    (hcompleted : s.completed.get? rid = some record)
    (hpending : s'.pending = s.pending) (hactive : s'.active = s.active)
    (hset : s'.completed = s.completed.set rid new) (hdropped : s'.dropped = s.dropped)
    (hattempts : s'.attempts = s.attempts)
    (hkeeps : new.attempt = record.attempt ∧ new.status = record.status ∧
      new.responseId = record.responseId)
    (htells : Tells s s' (.completed rid, new)) : ∃ ledger', Kept s' ledger' := by
  apply h.moveHeld record (.completed rid) (.completed rid, new) hcompleted hkeeps.1
  · intro place other hplace _
    cases place with
    | completed rid' =>
      have hrid : rid' ≠ rid := by simpa using hplace
      simp [Holds, hset, get?_set, hrid]
    | pending lane => simp [Holds, queue, hpending]
    | active rid' => simp [Holds, hactive]
    | dropped => simp [Holds, hdropped]
  · simp
  · intro other
    simp only [Holds, hset, get?_set, if_true, hcompleted]
    grind
  · exact hattempts
  · trivial
  · exact ⟨fun _ => ⟨trivial, hkeeps.2.1⟩, fun _ => hkeeps.2.2⟩
  · exact htells

theorem kept_replay (env : Env) (rid : PyStr) (response : Members) (record : Record)
    (h : Kept s ledger) (hcompleted : s.completed.get? rid = some record) :
    ∃ ledger', Kept (replay env rid response record s) ledger' := by
  have hkeeps := responseEffort_keeps response record
  simp only [replay]
  split
  · split
    · apply kept_setCompleted h hcompleted (by simp) (by simp) (by simp; rfl) (by simp) (by simp)
      · simpa using hkeeps
      · exact tells_save env _ false rfl (fun _ => trivial)
    · apply kept_setCompleted h hcompleted (by simp) (by simp) (by simp; rfl) (by simp) (by simp)
      · simpa using hkeeps
      · exact tells_save env _ false rfl (fun _ => trivial)
  · split
    · exact kept_setCompleted h hcompleted rfl rfl rfl rfl rfl hkeeps (.inl rfl)
    · exact kept_setCompleted h hcompleted rfl rfl rfl rfl rfl hkeeps (.inl rfl)

theorem kept_setActive {rid : PyStr} {new : Record} (h : Kept s ledger)
    (hactive : s.active.get? rid = some record)
    (hpending : s'.pending = s.pending) (hset : s'.active = s.active.set rid new)
    (hcompleted : s'.completed = s.completed) (hdropped : s'.dropped = s.dropped)
    (hattempts : s'.attempts = s.attempts)
    (hkeeps : new.attempt = record.attempt ∧ new.responseId = rid)
    (htells : Tells s s' (.active rid, new)) : ∃ ledger', Kept s' ledger' := by
  have howned : Owned (.active rid, record) :=
    (h.own _ _ ((h.holds (.active rid) record).mp hactive)).2
  apply h.moveHeld record (.active rid) (.active rid, new) hactive hkeeps.1
  · intro place other hplace _
    cases place with
    | active rid' =>
      have hrid : rid' ≠ rid := by simpa using hplace
      simp [Holds, hset, get?_set, hrid]
    | pending lane => simp [Holds, queue, hpending]
    | completed rid' => simp [Holds, hcompleted]
    | dropped => simp [Holds, hdropped]
  · simp
  · intro other
    simp only [Holds, hset, get?_set, if_true, hactive]
    grind
  · exact hattempts
  · exact .inr hkeeps.2
  · constructor
    · exact fun hclosed => hclosed.elim
    · exact fun hid => hkeeps.2.trans (howned.resolve_left hid).symm
  · exact htells

theorem kept_complete {rid : PyStr} {new : Record} (h : Kept s ledger)
    (hactive : s.active.get? rid = some record) (hnone : s.completed.get? rid = none)
    (hpending : s'.pending = s.pending) (herase : s'.active = s.active.erase rid)
    (hset : s'.completed = s.completed.set rid new) (hdropped : s'.dropped = s.dropped)
    (hattempts : s'.attempts = s.attempts)
    (hkeeps : new.attempt = record.attempt ∧ new.responseId = rid)
    (htells : Tells s s' (.completed rid, new)) : ∃ ledger', Kept s' ledger' := by
  have howned : Owned (.active rid, record) :=
    (h.own _ _ ((h.holds (.active rid) record).mp hactive)).2
  apply h.moveHeld record (.active rid) (.completed rid, new) hactive hkeeps.1
  · intro place other hplace hother
    cases place with
    | active rid' =>
      have hrid : rid' ≠ rid := by simpa using hplace
      simp [Holds, herase, get?_erase, hrid]
    | completed rid' =>
      have hrid : rid' ≠ rid := by simpa using hother
      simp [Holds, hset, get?_set, hrid]
    | pending lane => simp [Holds, queue, hpending]
    | dropped => simp [Holds, hdropped]
  · intro _ other
    simp only [Holds, herase, get?_erase, if_true, hactive]
    grind
  · intro other
    simp only [Holds, hset, get?_set, if_true, hnone]
    grind
  · exact hattempts
  · trivial
  · constructor
    · exact fun hclosed => hclosed.elim
    · exact fun hid => hkeeps.2.trans (howned.resolve_left hid).symm
  · exact htells

theorem kept_observe (env : Env) (rid : PyStr) (obj : Members) (record : Record)
    (h : Kept s ledger) (hcompleted : s.completed.get? rid = none)
    (hactive : s.active.get? rid = some record) :
    ∃ ledger', Kept (observe env rid obj record s) ledger' := by
  have hkeeps := absorb_keeps rid (responseOf obj) record
  have hquiet : ∃ ledger',
      Kept { s with active := s.active.set rid (absorb rid (responseOf obj) record) } ledger' :=
    kept_setActive h hactive rfl rfl rfl rfl rfl ⟨hkeeps.1, hkeeps.2.2⟩ (.inl rfl)
  simp only [observe]
  split
  · split
    · apply kept_complete h hactive hcompleted (by simp) (by simp) (by simp; rfl) (by simp)
        (by simp)
      · simpa using ⟨hkeeps.1, hkeeps.2.2⟩
      · exact tells_save env _ false rfl (fun _ => trivial)
    · split
      · rename_i hopen _
        apply kept_setActive h hactive (by simp) (by simp; rfl) (by simp) (by simp) (by simp)
        · simpa using ⟨hkeeps.1, hkeeps.2.2⟩
        · apply tells_save env _ false rfl
          simp [hopen]
      · exact hquiet
  · exact hquiet

/-! ## responses -/

theorem ordered_failOldest (env : Env) (lane : PyStr) (h : Ordered s) :
    Ordered (failOldest env lane s) := by
  unfold failOldest
  cases hqueue : queue s lane with
  | nil => exact h
  | cons head rest =>
    apply h.shorten (by simp [setQueue]) (by simp [setQueue])
    intro lane'
    rw [queue_congr (s := setQueue s lane rest) (by simp), queue_setQueue]
    split
    · rename_i hlane
      rw [hlane, hqueue]
      exact suffix_cons head rest
    · exact suffix_refl _

theorem ordered_associate (rid lane : PyStr) (h : Ordered s) : Ordered (associate rid lane s) := by
  unfold associate
  cases hqueue : queue s lane with
  | nil => exact h.shorten rfl (Nat.le_succ _) (fun _ => suffix_refl _)
  | cons head rest =>
    refine h.shorten rfl le_rfl (fun lane' => ?_)
    change queue (setQueue s lane rest) lane' <:+ queue s lane'
    rw [queue_setQueue]
    split
    · rename_i hlane
      rw [hlane, hqueue]
      exact suffix_cons head rest
    · exact suffix_refl _

theorem observe_queues (env : Env) (rid : PyStr) (obj : Members) (record : Record) (s : State) :
    (observe env rid obj record s).pending = s.pending ∧
      (observe env rid obj record s).requested = s.requested ∧
      (observe env rid obj record s).attempts = s.attempts := by
  simp only [observe]
  split
  · split
    · simp
    · split <;> simp
  · simp

theorem replay_queues (env : Env) (rid : PyStr) (response : Members) (record : Record) (s : State) :
    (replay env rid response record s).pending = s.pending ∧
      (replay env rid response record s).requested = s.requested ∧
      (replay env rid response record s).attempts = s.attempts := by
  simp only [replay]
  split <;> simp

theorem Ordered.congr (h : Ordered s)
    (hqueues : s'.pending = s.pending ∧ s'.requested = s.requested ∧ s'.attempts = s.attempts) :
    Ordered s' := by
  apply h.shorten hqueues.2.1 hqueues.2.2.ge
  intro lane
  simp [queue_congr hqueues.1]

theorem ordered_response (env : Env) (obj : Members) (h : Ordered s) :
    Ordered (response env obj s) := by
  simp only [response]
  split
  · split
    · exact ordered_failOldest env _ h
    · exact h
  · split
    · exact h.congr (replay_queues env _ _ _ s)
    · split
      · exact h.congr (observe_queues env _ obj _ s)
      · have hassociate := ordered_associate (responseId obj) (laneOf obj) h
        split
        · exact hassociate.congr (observe_queues env _ obj _ _)
        · exact hassociate

theorem kept_response (env : Env) (obj : Members) (h : Kept s ledger) (hordered : Ordered s) : ∃
    ledger', Kept (response env obj s) ledger' := by
  have hdistinct := hordered.distinct (laneOf obj)
  simp only [response]
  split
  · split
    · exact kept_failOldest env (laneOf obj) h hdistinct
    · exact ⟨ledger, h⟩
  · split
    · exact kept_replay env _ _ _ h ‹_›
    · split
      · exact kept_observe env _ obj _ h ‹_› ‹_›
      · rename_i hcompleted _ hactive
        obtain ⟨ledger', h'⟩ := kept_associate (responseId obj) (laneOf obj) h hdistinct hactive
        split
        · apply kept_observe env _ obj _ h' ?_ ‹_›
          simp only [associate]
          split <;> exact hcompleted
        · exact ⟨ledger', h'⟩

end Codexon.ResponseTracker
