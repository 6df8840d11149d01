import Codexon.ResponseTracker.Calls

/-!
# Codexon.ResponseTracker.Observations

`finish` gives its status to every record that is pending or active and drops all
of them, the completed ones as they are.  With it the ledger is kept along every
run, and from the ledger follow the place, the order and the saved statuses of
the requested records.
-/

namespace Codexon

open List Dict

namespace ResponseTracker

/-! ## finish -/

/-- The record as `finish` leaves it. -/
def finished (env : Env) (status : PyStr) (record : Record) : Record :=
  marked env { record with status := status }

theorem foldl_finishRecord (env : Env) (status : PyStr) (records : List Record) (s : State) :
    let s' := records.foldl (finishRecord env status) s
    s'.dropped = s.dropped ++ records.map (finished env status) ∧
      s'.handed = s.handed ++ (if env.enabled then
        records.map fun record => ⟨{ record with status := status }, true⟩ else []) ∧
      s'.attempts = s.attempts ∧ s'.requested = s.requested := by
  induction records generalizing s with
  | nil => simp
  | cons record records ih =>
    obtain ⟨hdropped, hhanded, hattempts, hrequested⟩ := ih (finishRecord env status s record)
    simp only [foldl_cons]
    rw [hdropped, hhanded, hattempts, hrequested]
    simp [finishRecord, finished]
    split <;> simp

theorem mem_unfinished {s : State} {record : Record} : record ∈ unfinished s ↔
      (∃ rid, Holds s record (.active rid)) ∨ ∃ lane, Holds s record (.pending lane) := by
  simp only [unfinished, mem_append, List.mem_map, mem_flatMap, Holds, queue]
  constructor
  · rintro (⟨⟨rid, other⟩, hmem, rfl⟩ | ⟨⟨lane, records⟩, hmem, hrecord⟩)
    · exact .inl ⟨rid, get?_eq_some.mpr hmem⟩
    · refine .inr ⟨lane, ?_⟩
      rw [get?_eq_some.mpr hmem]
      exact hrecord
  · rintro (⟨rid, hactive⟩ | ⟨lane, hrecord⟩)
    · exact .inl ⟨(rid, record), get?_eq_some.mp hactive, rfl⟩
    · cases hlane : s.pending.get? lane with
      | none => simp [hlane] at hrecord
      | some records => exact .inr ⟨(lane, records), get?_eq_some.mp hlane, by simpa [hlane] using hrecord⟩

/-- What becomes of an entry. -/
def afterFinish (env : Env) (status : PyStr) : Place × Record → Place × Record
  | (.pending _, record) | (.active _, record) => (.dropped, finished env status record)
  | (.completed _, record) | (.dropped, record) => (.dropped, record)

section

variable (env : Env) (status : PyStr)

theorem evolves_afterFinish (entry : Place × Record) :
    Evolves entry (afterFinish env status entry) := by
  obtain ⟨place, record⟩ := entry
  cases place <;> simp [Evolves, afterFinish, Place.closed, finished]

theorem dropped_finish (s : State) : (finish env status s).dropped =
      s.dropped ++ (unfinished s).map (finished env status) ++ s.completed.entries.map Prod.snd := by
  simp only [finish]
  rw [(foldl_finishRecord env status (unfinished s) s).1]

theorem handed_finish (s : State) :
    (finish env status s).handed = s.handed ++ (if env.enabled then
      (unfinished s).map fun record => ⟨{ record with status := status }, true⟩ else []) :=
  (foldl_finishRecord env status (unfinished s) s).2.1

theorem holds_finish {s : State} {ledger : Ledger}
    (h : Kept s ledger) (place : Place) (record : Record) :
    Holds (finish env status s) record place ↔
      (ledger record.attempt).map (afterFinish env status) = some (place, record) := by
  have hgone : place ≠ .dropped → ∀ entry, afterFinish env status entry ≠ (place, record) := by
    rintro hplace ⟨old, _⟩ heq
    cases old <;> exact hplace (congrArg Prod.fst heq).symm
  rw [Option.map_eq_some_iff]
  cases place with
  | pending lane =>
    have hempty : ¬ Holds (finish env status s) record (.pending lane) := by
      simp [Holds, finish, queue, Dict.get?]
    simp [hempty, hgone]
  | active rid =>
    have hempty : ¬ Holds (finish env status s) record (.active rid) := by
      simp [Holds, finish, Dict.get?]
    simp [hempty, hgone]
  | completed rid =>
    have hempty : ¬ Holds (finish env status s) record (.completed rid) := by
      simp [Holds, finish, Dict.get?]
    simp [hempty, hgone]
  | dropped =>
    simp only [Holds, dropped_finish, mem_append, List.mem_map]
    constructor
    · rintro ((hdropped | ⟨old, hold, rfl⟩) | ⟨⟨rid, old⟩, hold, rfl⟩)
      · exact ⟨_, (h.holds .dropped record).mp hdropped, rfl⟩
      · rw [finished, marked_attempt]
        rcases mem_unfinished.mp hold with ⟨rid, hactive⟩ | ⟨lane, hpending⟩
        · exact ⟨_, (h.holds _ old).mp hactive, rfl⟩
        · exact ⟨_, (h.holds _ old).mp hpending, rfl⟩
      · exact ⟨_, (h.holds (.completed rid) old).mp (get?_eq_some.mpr hold), rfl⟩
    · rintro ⟨⟨place, old⟩, hledger, heq⟩
      have hown := (h.own _ _ hledger).1
      rw [← hown] at hledger
      have hold := (h.holds place old).mpr hledger
      cases place with
      | pending lane =>
        exact .inl (.inr ⟨old, mem_unfinished.mpr (.inr ⟨lane, hold⟩), (Prod.mk.inj heq).2⟩)
      | active rid =>
        exact .inl (.inr ⟨old, mem_unfinished.mpr (.inl ⟨rid, hold⟩), (Prod.mk.inj heq).2⟩)
      | completed rid =>
        exact .inr ⟨(rid, old), get?_eq_some.mp hold, (Prod.mk.inj heq).2⟩
      | dropped => exact .inl (.inl ((Prod.mk.inj heq).2 ▸ hold))

theorem kept_finish {s : State} {ledger : Ledger}
    (h : Kept s ledger) : ∃ ledger', Kept (finish env status s) ledger' := by
  refine ⟨fun attempt => (ledger attempt).map (afterFinish env status), ?_⟩
  have hunfinished : ∀ record ∈ unfinished s, ∃ place, ¬ place.closed ∧
      ledger record.attempt = some (place, record) := by
    intro record hrecord
    rcases mem_unfinished.mp hrecord with ⟨rid, hactive⟩ | ⟨lane, hpending⟩
    · exact ⟨.active rid, by simp [Place.closed], (h.holds _ _).mp hactive⟩
    · exact ⟨.pending lane, by simp [Place.closed], (h.holds _ _).mp hpending⟩
  constructor
  · exact holds_finish env status h
  · intro attempt entry hentry
    obtain ⟨old, hold, rfl⟩ := Option.map_eq_some_iff.mp hentry
    have hattempt := (h.own attempt old hold).1
    obtain ⟨place, record⟩ := old
    cases place <;> simpa [afterFinish, Owned, finished] using hattempt
  · intro attempt
    have hattempts := (foldl_finishRecord env status (unfinished s) s).2.2.1
    rw [Option.isSome_map]
    simp only [finish, hattempts]
    exact h.placed attempt
  · intro row hrow
    rw [handed_finish, mem_append] at hrow
    cases hrow with
    | inl hold =>
      obtain ⟨entry, hledger, hfollows⟩ := h.follows row hold
      exact ⟨_, by rw [hledger]; rfl, hfollows.evolve (evolves_afterFinish env status entry)⟩
    | inr hnew =>
      split at hnew
      · obtain ⟨record, hrecord, rfl⟩ := List.mem_map.mp hnew
        obtain ⟨place, hopen, hledger⟩ := hunfinished record hrecord
        refine ⟨_, by simp only [hledger]; rfl, ?_⟩
        cases place <;> simp_all [Place.closed, Follows, afterFinish, finished]
      · simp at hnew
  · rw [handed_finish, pairwise_append]
    refine ⟨h.agrees, ?_, ?_⟩
    · split
      · apply pairwise_of_forall_mem_list
        intro row hrow later hlater hsame
        obtain ⟨record, hrecord, rfl⟩ := List.mem_map.mp hrow
        obtain ⟨record', hrecord', rfl⟩ := List.mem_map.mp hlater
        obtain ⟨place, -, hledger⟩ := hunfinished record hrecord
        obtain ⟨place', -, hledger'⟩ := hunfinished record' hrecord'
        change record'.attempt = record.attempt at hsame
        rw [hsame, hledger, Option.some.injEq] at hledger'
        have heq : record = record' := (Prod.mk.inj hledger').2
        subst heq
        exact ⟨fun _ => rfl, fun _ => rfl⟩
      · exact .nil
    · intro row hrow later hlater hsame
      split at hlater
      · obtain ⟨record, hrecord, rfl⟩ := List.mem_map.mp hlater
        obtain ⟨place, hopen, hledger⟩ := hunfinished record hrecord
        obtain ⟨entry, hentry, hfollows⟩ := h.follows row hrow
        change record.attempt = row.record.attempt at hsame
        rw [← hsame, hledger, Option.some.injEq] at hentry
        subst hentry
        exact ⟨fun hfinal => absurd (hfollows.1 hfinal).1 hopen, hfollows.2⟩
      · simp at hlater

theorem ordered_finish {s : State} (h : Ordered s) :
    Ordered (finish env status s) := by
  obtain ⟨-, -, hattempts, hrequested⟩ := foldl_finishRecord env status (unfinished s) s
  apply h.shorten
  · simp [finish, hrequested]
  · simp [finish, hattempts]
  · intro lane
    simp [finish, queue, Dict.get?]

end

/-! ## runs -/

/-- What a run keeps. -/
def Tracked (s : State) : Prop := Ordered s ∧ ∃ ledger, Kept s ledger

theorem tracked_step {s : State} (call : Call) (h : Tracked s) : Tracked (step s call) := by
  obtain ⟨hordered, ledger, hkept⟩ := h
  cases call with
  | request env obj => exact ⟨ordered_request env obj hordered, kept_request env obj hkept⟩
  | response env obj =>
    exact ⟨ordered_response env obj hordered, kept_response env obj hkept hordered⟩
  | finish env status => exact ⟨ordered_finish env status hordered, kept_finish env status hkept⟩

theorem tracked_run (calls : List Call) : Tracked (run step {} calls) :=
  run_inv (I := Tracked) (fun _ call h => tracked_step call h)
    ⟨ordered_init, _, kept_init⟩ calls

end ResponseTracker

/-!
## observations

Every request has one observation record, and one response at most gets it
(`one_record_per_response`).  Where observation stays enabled, no record reaches
the completed map or is dropped before the store was given its last status
(`Told`).
-/

namespace ResponseTracker

/-! ## last statuses -/

/-- `observation_enabled` during the call. -/
def Call.enabled : Call → Bool
  | .request env _ | .response env _ | .finish env _ => env.enabled

def ToldOf (s : State) (record : Record) : Prop :=
  ∃ row ∈ s.handed, row.record.attempt = record.attempt ∧
    row.record.status = record.status ∧ row.final

/-- The store was given the last status of every record that has one. -/
def Told (s : State) : Prop :=
  ∀ place record, Holds s record place → place.closed → ToldOf s record

theorem told_init : Told {} := by
  intro place record hholds hclosed
  cases place <;> simp [Holds, queue, Dict.get?] at hholds

variable {s : State}

theorem Told.mono {s' : State} (h : Told s) (hhanded : s.handed ⊆ s'.handed)
    (hcompleted : ∀ rid record, s'.completed.get? rid = some record →
      (∃ old, s.completed.get? rid = some old ∧ old.attempt = record.attempt ∧
        old.status = record.status) ∨ ToldOf s' record)
    (hdropped : ∀ record ∈ s'.dropped, record ∈ s.dropped ∨ ToldOf s' record) : Told s' := by
  have hgrow : ∀ record, ToldOf s record → ToldOf s' record := by
    rintro record ⟨row, hrow, htold⟩
    exact ⟨row, hhanded hrow, htold⟩
  intro place record hholds hclosed
  cases place with
  | pending lane | active rid => exact hclosed.elim
  | completed rid =>
    cases hcompleted rid record hholds with
    | inl hold =>
      obtain ⟨old, hget, hattempt, hstatus⟩ := hold
      obtain ⟨row, hrow, htold⟩ := hgrow old (h (.completed rid) old hget trivial)
      exact ⟨row, hrow, htold.1.trans hattempt, htold.2.1.trans hstatus, htold.2.2⟩
    | inr htold => exact htold
  | dropped =>
    cases hdropped record hholds with
    | inl hold => exact hgrow record (h .dropped record hold trivial)
    | inr htold => exact htold

theorem toldOf_save {env : Env} (henabled : env.enabled = true) (finishing : Bool)
    (record : Record) {s' : State} (hhanded : s'.handed = (save env finishing record s).handed)
    (hfinal : record.status ∈ terminal ∨ finishing = true) : ToldOf s' (marked env record) := by
  refine ⟨⟨record, finishing⟩, ?_, by simp, by simp, hfinal⟩
  simp [hhanded, henabled]

theorem subset_save (env : Env) (finishing : Bool) (record : Record) (s : State) :
    s.handed ⊆ (save env finishing record s).handed := by
  rw [save_handed]
  split <;> simp

theorem told_failOldest {env : Env} (henabled : env.enabled = true) (lane : PyStr) (h : Told s) :
    Told (failOldest env lane s) := by
  unfold failOldest
  cases queue s lane with
  | nil => exact h
  | cons head rest =>
    apply h.mono
    · exact subset_save env false _ (setQueue s lane rest)
    · intro rid record hget
      exact .inl ⟨record, by simpa [setQueue] using hget, rfl, rfl⟩
    · intro record hmem
      simp only [save_dropped, mem_append, mem_singleton] at hmem
      cases hmem with
      | inl hold => exact .inl hold
      | inr hnew =>
        rw [hnew]
        have hfailed : py "failed" ∈ terminal := by decide
        exact .inr (toldOf_save henabled false _ rfl (.inl hfailed))

theorem told_associate (rid lane : PyStr) (h : Told s) : Told (associate rid lane s) := by
  unfold associate
  split
  · exact h.mono (fun _ h => h) (fun rid record hget => .inl ⟨record, hget, rfl, rfl⟩)
      (fun record hmem => .inl hmem)
  · exact h.mono (fun _ h => h) (fun rid record hget => .inl ⟨record, hget, rfl, rfl⟩)
      (fun record hmem => .inl hmem)

theorem told_setCompleted {rid : PyStr} {record new : Record} {s' : State} (h : Told s)
    (hget : s.completed.get? rid = some record) (hhanded : s.handed ⊆ s'.handed)
    (hset : s'.completed = s.completed.set rid new) (hdropped : s'.dropped = s.dropped)
    (hkeeps : new.attempt = record.attempt ∧ new.status = record.status) : Told s' := by
  apply h.mono hhanded
  · intro rid' other hother
    rw [hset, get?_set] at hother
    split at hother
    · rename_i hrid
      cases hother
      exact .inl ⟨record, hrid ▸ hget, hkeeps.1.symm, hkeeps.2.symm⟩
    · exact .inl ⟨other, hother, rfl, rfl⟩
  · intro other hmem
    exact .inl (hdropped ▸ hmem)

theorem told_replay (env : Env) (rid : PyStr) (response : Members) (record : Record) (h : Told s)
    (hget : s.completed.get? rid = some record) : Told (replay env rid response record s) := by
  have hkeeps := responseEffort_keeps response record
  simp only [replay]
  split
  · split
    · apply told_setCompleted h hget
      · exact subset_save env false _ s
      · simp
        rfl
      · simp
      · simpa using ⟨hkeeps.1, hkeeps.2.1⟩
    · apply told_setCompleted h hget
      · exact subset_save env false _ s
      · simp
        rfl
      · simp
      · simpa using ⟨hkeeps.1, hkeeps.2.1⟩
  · split
    · exact told_setCompleted h hget (fun _ h => h) rfl rfl ⟨hkeeps.1, hkeeps.2.1⟩
    · exact told_setCompleted h hget (fun _ h => h) rfl rfl ⟨hkeeps.1, hkeeps.2.1⟩

theorem told_observe {env : Env} (henabled : env.enabled = true) (rid : PyStr) (obj : Members)
    (record : Record) (h : Told s) : Told (observe env rid obj record s) := by
  have hquiet : ∀ active, Told { s with active := active } := fun _ =>
    h.mono (fun _ h => h) (fun rid record hget => .inl ⟨record, hget, rfl, rfl⟩)
      (fun record hmem => .inl hmem)
  simp only [observe]
  split
  · split
    · rename_i hterminal
      apply h.mono
      · exact subset_save env false _ s
      · intro rid' other hother
        rw [save_completed, get?_set] at hother
        split at hother
        · cases hother
          exact .inr (toldOf_save henabled false _ rfl (.inl hterminal))
        · exact .inl ⟨other, hother, rfl, rfl⟩
      · intro other hmem
        exact .inl (by simpa using hmem)
    · split
      · apply h.mono
        · exact subset_save env false _ s
        · intro rid' other hother
          exact .inl ⟨other, by simpa using hother, rfl, rfl⟩
        · intro other hmem
          exact .inl (by simpa using hmem)
      · exact hquiet _
  · exact hquiet _

theorem told_finish {env : Env} (henabled : env.enabled = true) (status : PyStr) (h : Told s) :
    Told (finish env status s) := by
  have hgrow : s.handed ⊆ (finish env status s).handed := by
    rw [handed_finish]
    exact subset_append_left _ _
  apply h.mono hgrow
  · intro rid record hget
    simp [finish, Dict.get?] at hget
  · intro record hmem
    simp only [dropped_finish, mem_append, List.mem_map] at hmem
    rcases hmem with (hold | ⟨old, hold, rfl⟩) | ⟨⟨rid, old⟩, hold, rfl⟩
    · exact .inl hold
    · refine .inr ⟨⟨{ old with status := status }, true⟩, ?_, by simp [finished],
        by simp [finished], .inr rfl⟩
      rw [handed_finish, henabled, if_pos rfl]
      exact mem_append_right _ (List.mem_map.mpr ⟨old, hold, rfl⟩)
    · obtain ⟨row, hrow, htold⟩ := h (.completed rid) old (get?_eq_some.mpr hold) trivial
      exact .inr ⟨row, hgrow hrow, htold⟩

theorem told_step {call : Call} (h : Told s) (henabled : call.enabled = true) :
    Told (step s call) := by
  cases call with
  | request env obj =>
    apply h.mono
    · exact subset_save env false _ s
    · intro rid record hget
      exact .inl ⟨record, by simpa [step, request] using hget, rfl, rfl⟩
    · intro record hmem
      exact .inl (by simpa [step, request] using hmem)
  | finish env status => exact told_finish henabled status h
  | response env obj =>
    simp only [step, response]
    split
    · split
      · exact told_failOldest henabled _ h
      · exact h
    · split
      · exact told_replay env _ _ _ h ‹_›
      · split
        · exact told_observe henabled _ obj _ h
        · have hassociate := told_associate (responseId obj) (laneOf obj) h
          split
          · exact told_observe henabled _ obj _ hassociate
          · exact hassociate

theorem told_run {calls : List Call} (henabled : ∀ call ∈ calls, call.enabled = true) :
    Told (run step {} calls) :=
  run_inv_along (I := Told) (fun _ _ h henabled => told_step h henabled) told_init
    (along_of_forall henabled)

/-! ## the queues -/

theorem response_queues (env : Env) (obj : Members) (s : State) (hid : responseId obj ≠ [])
    (hknown : (s.active.get? (responseId obj)).isSome ∨
      (s.completed.get? (responseId obj)).isSome) : (response env obj s).pending = s.pending := by
  simp only [response, if_neg hid]
  split
  · exact (replay_queues env _ _ _ s).1
  · split
    · exact (observe_queues env _ obj _ s).1
    · simp_all

/-! ## one record per response -/

theorem Tracked.one_place (h : Tracked s) {attempt : Nat} (hattempt : attempt < s.attempts) :
    ∃! place, At s attempt place := by
  obtain ⟨-, ledger, hkept⟩ := h
  obtain ⟨⟨place, record⟩, hledger⟩ := Option.isSome_iff_exists.mp ((hkept.placed attempt).mpr hattempt)
  have hown := (hkept.own attempt _ hledger).1
  have hheld : Holds s record place := by
    rw [hkept.holds, hown]
    exact hledger
  refine ⟨place, ⟨record, hheld, hown⟩, ?_⟩
  rintro place' ⟨record', hheld', hown'⟩
  exact (hkept.unique hheld hheld' (hown'.trans hown.symm)).1

theorem Ordered.own_lane (h : Ordered s) {attempt : Nat} {lane lane' : PyStr}
    (hrequested : (attempt, lane) ∈ s.requested) (hat : At s attempt (.pending lane')) :
    lane' = lane := by
  obtain ⟨record, hmem, hattempt⟩ := hat
  have hqueued : attempt ∈ (queue s lane').map Record.attempt :=
    List.mem_map.mpr ⟨record, hmem, hattempt⟩
  obtain ⟨⟨attempt', lane''⟩, hfiltered, heq⟩ := List.mem_map.mp ((h.suffix lane').subset hqueued)
  obtain ⟨hmem', hlane⟩ := List.mem_filter.mp hfiltered
  have hsame := inj_on_of_nodup_map h.nodup hmem' hrequested heq
  rw [← (Prod.mk.inj hsame).2]
  exact (by simpa using hlane : lane'' = lane').symm

/-- **One record per response**: after any calls, every requested record is at one
place, waits only in the lane of its request and behind the earlier requests of the
lane; an event of an active or completed response takes nothing from a queue; the rows
the store is given of a record keep its response id and its last status; and where
observation stays enabled, the store was given the last status of every dropped record. -/
theorem one_record_per_response (calls : List Call) :
    let s := run step {} calls
    (∀ attempt lane, (attempt, lane) ∈ s.requested →
      (∃! place, At s attempt place) ∧ ∀ lane', At s attempt (.pending lane') → lane' = lane) ∧
    (∀ lane, (queue s lane).map Record.attempt <:+ requestsOf s lane ∧ (requestsOf s lane).Nodup) ∧
    (∀ env obj, responseId obj ≠ [] →
      (s.active.get? (responseId obj)).isSome ∨ (s.completed.get? (responseId obj)).isSome →
      (response env obj s).pending = s.pending) ∧
    s.handed.Pairwise Agrees ∧
    ((∀ call ∈ calls, call.enabled = true) → ∀ record ∈ s.dropped, ToldOf s record) := by
  intro s
  have htracked : Tracked s := tracked_run calls
  refine ⟨fun attempt lane hrequested => ⟨?_, fun lane' => ?_⟩, fun lane => ?_, ?_, ?_, ?_⟩
  · exact htracked.one_place (htracked.1.below _ hrequested)
  · exact htracked.1.own_lane hrequested
  · exact ⟨htracked.1.suffix lane, htracked.1.requestsOf_nodup lane⟩
  · exact fun env obj hid hknown => response_queues env obj s hid hknown
  · obtain ⟨-, ledger, hkept⟩ := htracked
    exact hkept.agrees
  · intro henabled record hrecord
    exact told_run henabled .dropped record hrecord trivial

def completedThenFinished : List Call :=
  [.request {} [], .response {} [(py "type", .str (py "response.completed")),
      (py "response", .obj [(py "id", .str (py "r1"))])], .finish {} (py "disconnected")]

/-- `finish` forgets a completed record that it gave no status. -/
theorem completed_forgotten :
    (run step {} completedThenFinished).requested = [(0, [])] ∧
    (run step {} completedThenFinished).pending = {} ∧
    (run step {} completedThenFinished).active = {} ∧
    (run step {} completedThenFinished).completed = {} ∧
    (run step {} completedThenFinished).handed.map (fun row => row.record.status) =
      [py "pending", py "completed"] := by
  decide +kernel

end ResponseTracker

end Codexon
