import Codexon.Session

/-!
# Codexon.Session.Steps

What consuming an event can do to the requests of a session, said once: it
records a request under a new key, retracts the legacy requests, completes the
requests of a turn, or leaves them and what is kept about them alone (`Touch`).
Every invariant of the requests follows from these four cases.
-/

namespace Codexon.Session

def owner (s : Session) : PyStr × PyStr := (s.id, s.home)

def ledger (s : Session) : (PyStr × PyStr) × List Request × List Nat × List Json × Nat ×
    Dict Json (List Nat) × Bool × Nat :=
  (s.owner, s.objects, s.requests, s.keys, s.coverageTotal, s.unresolvedContexts, s.modern,
    s.contextRevision)

def Gives (event key : Json) : Prop :=
  ∃ payload, event.getNone "payload" = .ok payload ∧ event.getNone "type" = .ok (.str "token_usage_record") ∧
    ∃ id, (payload.orElse (.obj [])).getNone "response_id" = .ok id ∧ id.truthy ∧ id.hashed = .ok key

/-- One change of the requests while `event` is consumed. -/
inductive Touch (event : Json) (s : Session) : Session → Prop
  | quiet {s' : Session} (h : s'.ledger = s.ledger) : Touch event s s'
  | record (r : Request) (hkey : r.key ∉ s.keys) (hlegacy : ¬ s.modern → r.legacy)
      (horigin : s.modern → r.legacy → Gives event r.key) : Touch event s (s.recordUsage r)
  | retract : Touch event s { s.retract with modern := true }
  | resolve (turn : Json) (includeTier : Bool) : Touch event s (s.resolveTurn turn includeTier)

/-- The changes of the requests by some statements of `consume`. -/
def Touched (event : Json) : Session → Session → Prop := Relation.ReflTransGen (Touch event)

theorem step_touched (event : Json) : Py.Step (Touched event) :=
  ⟨fun _ => .refl, fun h h' => h.trans h'⟩

/-! ## the session becomes modern once -/

theorem modern_foldl {f : Request → Request × Bool} {turn : Json} (pending : List Nat)
    (s : Session) : (pending.foldl (resolveRequest f turn) s).modern = s.modern := by
  induction pending generalizing s with
  | nil => rfl
  | cons ref rest ih =>
    rw [List.foldl_cons, ih]
    unfold resolveRequest leaveUnresolved
    dsimp only
    split <;> rfl

theorem modern_resolveTurn (s : Session) (turn : Json) (includeTier : Bool) :
    (s.resolveTurn turn includeTier).modern = s.modern := modern_foldl _ _

theorem modern_recordUsage (s : Session) (r : Request) : (s.recordUsage r).modern = s.modern := by
  unfold recordUsage leaveUnresolved
  split <;> rfl

variable {s s' : Session}

theorem modern_of_ledger (h : s'.ledger = s.ledger) : s'.modern = s.modern := by
  simp only [ledger, Prod.mk.injEq] at h
  exact h.2.2.2.2.2.2.1

variable {event : Json}

theorem owner_touch (h : Touch event s s') : s'.owner = s.owner := by
  have hloop {f : Request → Request × Bool} {turn : Json} (pending : List Nat) (s : Session) :
      (pending.foldl (resolveRequest f turn) s).owner = s.owner := by
    induction pending generalizing s with
    | nil => rfl
    | cons ref rest ih =>
      rw [List.foldl_cons, ih]
      unfold resolveRequest leaveUnresolved
      dsimp only
      split <;> rfl
  cases h with
  | quiet h => exact (Prod.mk.inj h).1
  | record r => unfold recordUsage leaveUnresolved; split <;> rfl
  | retract => unfold retract; split <;> rfl
  | resolve turn includeTier => exact hloop _ _

theorem id_touch (h : Touch event s s') : s'.id = s.id :=
  congrArg Prod.fst (owner_touch h)

theorem modern_touch (h : Touch event s s') (hs : s.modern) : s'.modern := by
  cases h with
  | quiet h => exact (modern_of_ledger h).trans hs
  | record r => exact (modern_recordUsage s r).trans hs
  | retract => rfl
  | resolve turn includeTier => exact (modern_resolveTurn s turn includeTier).trans hs

theorem stored_of_ledger (h : s'.ledger = s.ledger) : s'.stored = s.stored := by
  simp only [ledger, Prod.mk.injEq] at h
  have hrequest : s'.request = s.request := by funext ref; simp only [request, h.2.1]
  rw [stored, stored, hrequest, h.2.2.1]

def TouchedModern (event : Json) (s s' : Session) : Prop :=
  s.modern → Touched event s s' ∧ s'.modern

theorem step_touchedModern (event : Json) : Py.Step (TouchedModern event) where
  refl := fun _ h => ⟨.refl, h⟩
  trans := fun h h' hs => ⟨(h hs).1.trans (h' (h hs).2).1, (h' (h hs).2).2⟩

def TouchedLegacy (event : Json) (s s' : Session) : Prop :=
  s.modern = false → Touched event s s' ∧ s'.modern = false

theorem step_touchedLegacy (event : Json) : Py.Step (TouchedLegacy event) where
  refl := fun _ h => ⟨.refl, h⟩
  trans := fun h h' hs => ⟨(h hs).1.trans (h' (h hs).2).1, (h' (h hs).2).2⟩

theorem touched_quiet (h : s'.ledger = s.ledger) :
    Touched event s s' := .single (.quiet h)

theorem touchedModern_quiet (h : s'.ledger = s.ledger) : TouchedModern event s s' :=
  fun hs => ⟨touched_quiet h, (modern_of_ledger h).trans hs⟩

theorem touchedLegacy_quiet (h : s'.ledger = s.ledger) : TouchedLegacy event s s' :=
  fun hs => ⟨touched_quiet h, (modern_of_ledger h).trans hs⟩

/-! ## the methods -/

theorem moves_addUsage {R : Session → Session → Prop} (hR : Py.Step R) {ts : ℚ}
    {key usage model turn : Json} {effort : PyStr} {serviceTier : Json} {source : Source}
    {configuredModel : Json} {evidence : Option Evidence}
    (h : ∀ s r, key.hashed = .ok r.key → r.key ∉ s.keys → R s (s.recordUsage r)) :
    Py.Moves R (addUsage ts key usage model turn effort serviceTier source configuredModel
      evidence) := by
  unfold addUsage
  refine hR.ofExcept_bind fun key' hkey => Py.Moves.get_bind fun s => ?_
  by_cases hmem : key' ∈ s.keys
  · simp only [hmem, if_true]
    exact hR.refl s
  simp only [hmem, if_false]
  cases usageValues usage with
  | error e => exact hR.refl s
  | ok values =>
    -- The key is that of the request whatever evidence the turn has.
    refine h s _ ?_ ?_ <;> cases evidence
    exacts [hkey, hkey, hmem, hmem]

theorem moves_report {R : Session → Session → Prop} (hR : Py.Step R) (ts : ℚ) (usage : Json)
    (h : ∀ s s', s'.ledger = s.ledger → R s s') : Py.Moves R (report ts usage) :=
  hR.ofExcept_bind fun _ _ => Py.Moves.modify fun _ => h _ _ rfl

theorem eventKey_eq {format : Json → PyStr} {text : String} {key : Json}
    (h : s.eventKey format text event = .ok key) : ∃ number, key = .str (py text ++ number) := by
  unfold eventKey at h
  cases hid : event.getNone "event_id" with
  | error e => rw [hid] at h; cases h
  | ok id =>
    cases hordinal : event.getNone "ordinal" with
    | error e => rw [hid, hordinal] at h; cases h
    | ok ordinal =>
      rw [hid, hordinal] at h
      exact ⟨_, (Except.ok.inj h).symm⟩

theorem hashed_str (text : PyStr) : Json.hashed (.str text) = .ok (.str text) := by
  simp [Json.hashed, Json.canon]

section

variable (stamp : Json → ℚ) (format : Json → PyStr)

theorem moves_quiet {event : Json} {f : Session → Session} (hf : ∀ s, (f s).ledger = s.ledger) :
    Py.Moves (Touched event) (modifyThe Session f : Py Session PUnit) :=
  Py.Moves.modify fun s => touched_quiet (hf s)

theorem moves_resolveContext (event turn : Json) (includeTier : Bool) :
    Py.Moves (Touched event) (resolveContext turn includeTier) :=
  (step_touched event).ofExcept_bind fun turn _ =>
    Py.Moves.modify fun _ => .single (.resolve turn includeTier)

theorem moves_turnContext (event payload : Json) (ts : ℚ) :
    Py.Moves (Touched event) (turnContext event payload ts) := by
  have hR := step_touched event
  refine hR.ofExcept_bind fun model _ => hR.bind (moves_quiet fun _ => rfl) fun _ => ?_
  refine hR.ofExcept_bind fun turnId _ => hR.bind (moves_quiet fun _ => rfl) fun _ => ?_
  refine hR.ofExcept_bind fun effort _ => hR.bind (moves_quiet fun _ => rfl) fun _ => ?_
  refine Py.Moves.read_bind fun s => hR.ofExcept_bind fun turn _ => ?_
  refine hR.ofExcept_bind fun tier _ => hR.bind (moves_quiet fun _ => rfl) fun _ => ?_
  have hresolve : Py.Moves (Touched event)
      (if turnId.truthy then resolveContext turnId tier.isSome else pure ()) := by
    split
    · exact moves_resolveContext event turnId tier.isSome
    · exact hR.pure ()
  dsimp only
  split
  · exact hR.ofExcept_bind fun next _ => hR.bind (moves_quiet fun _ => rfl) fun _ => hresolve
  · exact hresolve

theorem moves_taskEvent (event : Json) (kind : TaskEvent) (payload : Json) (ts : ℚ) :
    Py.Moves (Touched event) (taskEvent kind payload ts) := by
  have hR := step_touched event
  refine Py.Moves.read_bind fun s => ?_
  split
  case isFalse => exact hR.pure ()
  refine hR.bind (moves_quiet fun _ => rfl) fun _ => ?_
  refine hR.ofExcept_bind fun turnId _ => ?_
  have hstart : Py.Moves (Touched event) (if decide (kind = .started) = true then do
      let turn ← Py.ofExcept (payload.getD "turn_id" (.str []))
      modify fun s => { s with currentTurn := turn.canon, currentEffort := unknownText }
      else pure ()) := by
    split
    · exact hR.ofExcept_bind fun turn _ => moves_quiet fun _ => rfl
    · exact hR.pure ()
  dsimp only
  split
  · exact hR.ofExcept_bind fun turn _ => hR.bind (moves_quiet fun _ => rfl) fun _ => hstart
  · exact hR.bind (moves_quiet fun _ => rfl) fun _ => hstart

section

variable (event payload : Json) (ts : ℚ)

theorem moves_threadSettings (pending : Option (Json × ℚ × Json)) :
    Py.Moves (Touched event) (threadSettings event payload ts pending) := by
  have hR := step_touched event
  refine hR.ofExcept_bind fun settings _ => hR.ofExcept_bind fun tier _ => ?_
  cases tier with
  | none => exact hR.pure ()
  | some value =>
    refine hR.bind (moves_quiet fun _ => rfl) fun _ => ?_
    match pending with
    | none => exact hR.pure ()
    | some (turn, at', next) =>
      refine hR.ofExcept_bind fun eventId _ => Py.Moves.read_bind fun s => ?_
      split
      · exact hR.bind (moves_quiet fun _ => rfl)
          fun _ => Py.Moves.modify fun _ => .single (.resolve turn true)
      · exact hR.pure ()

theorem moves_tokenCount :
    Py.Moves (TouchedLegacy event) (tokenCount format event payload ts) := by
  have hR := step_touchedLegacy event
  refine hR.ofExcept_bind fun info _ => hR.ofExcept_bind fun total _ => ?_
  dsimp only
  split
  case h_2 => exact hR.throw _
  refine Py.Moves.read_bind fun s => ?_
  split
  case isFalse => exact hR.pure ()
  refine hR.bind (Py.Moves.modify fun _ => touchedLegacy_quiet rfl) fun _ => ?_
  refine Py.Moves.read_bind fun s => hR.ofExcept_bind fun key hkey => ?_
  obtain ⟨number, rfl⟩ := eventKey_eq hkey
  refine hR.ofExcept_bind fun usage _ => hR.ofExcept_bind fun turn _ => ?_
  refine hR.bind (moves_addUsage hR fun s r hr hfresh hmodern => ?_) fun _ => ?_
  · rw [hashed_str] at hr
    have hlegacy : r.legacy := by
      rw [Request.legacy, ← Except.ok.inj hr]
      simp [List.isPrefixOf_iff_prefix]
    exact ⟨.single (.record r hfresh (fun _ => hlegacy) fun h => by simp [hmodern] at h),
      (modern_recordUsage s r).trans hmodern⟩
  · refine Py.Moves.read_bind fun s => ?_
    split
    · exact moves_report hR ts _ fun _ _ => touchedLegacy_quiet
    · exact hR.pure ()

theorem moves_eventMsg (pending : Option (Json × ℚ × Json)) :
    Py.Moves (Touched event) (eventMsg format event payload ts pending) := by
  have hR := step_touched event
  refine hR.ofExcept_bind fun type _ => hR.ofExcept_bind fun thread _ => ?_
  refine Py.Moves.read_bind fun s => ?_
  -- The legacy branch runs in the state in which it found no record.
  have hcount : Py.Moves (Touched event) (do
      let s ← get
      if type = Json.str "token_count" ∧ (!s.modern) = true then
        tokenCount format event payload ts
      else pure ()) := by
    refine Py.Moves.get_bind fun s => ?_
    split
    · next h => exact (moves_tokenCount format event payload ts s (by simpa using h.2)).1
    · exact hR.refl s
  have htask (kind : TaskEvent) := hR.bind (moves_taskEvent event kind payload ts) fun _ => hcount
  dsimp only
  split
  · refine hR.bind (moves_threadSettings event payload ts pending) fun _ => ?_
    split
    · exact htask _
    · exact hcount
  · split
    · exact htask _
    · exact hcount

theorem moves_recordTokenUsage
    (hgives : ∀ id key, payload.getNone "response_id" = .ok id → id.truthy →
      id.hashed = .ok key → Gives event key) :
    Py.Moves (TouchedModern event) (recordTokenUsage format event payload ts) := by
  have hM := step_touchedModern event
  refine hM.ofExcept_bind fun turn _ => Py.Moves.read_bind fun s => ?_
  generalize (s.contexts.get? turn).getD (.str [], unknownText) = context
  obtain ⟨model, effort⟩ := context
  refine hM.ofExcept_bind fun id hid => hM.ofExcept_bind fun key hkey => ?_
  refine hM.ofExcept_bind fun usage _ => hM.ofExcept_bind fun tier _ => ?_
  refine hM.bind (moves_addUsage hM fun s r hr hfresh hmodern => ?_) fun _ => ?_
  · refine ⟨.single (.record r hfresh (fun h => absurd hmodern h) fun _ hlegacy => ?_),
      (modern_recordUsage s r).trans hmodern⟩
    split at hkey
    · next htruthy => exact hgives id r.key hid htruthy (by rw [Except.ok.inj hkey]; exact hr)
    · -- A key made from the event begins with another prefix.
      obtain ⟨number, rfl⟩ := eventKey_eq hkey
      rw [hashed_str] at hr
      rw [Request.legacy, ← Except.ok.inj hr] at hlegacy
      exact absurd hlegacy (by simp [py, List.isPrefixOf])
  · refine hM.ofExcept_bind fun threadUsage _ => Py.Moves.read_bind fun s => ?_
    split
    · exact moves_report hM ts _ fun _ _ => touchedModern_quiet
    · exact hM.pure ()

theorem moves_tokenUsageRecord
    (hgives : ∀ id key, payload.getNone "response_id" = .ok id → id.truthy →
      id.hashed = .ok key → Gives event key) :
    Py.Moves (Touched event) (tokenUsageRecord format event payload ts) := by
  have hR := step_touched event
  have hM := step_touchedModern event
  refine Py.Moves.read_bind fun s => hR.ofExcept_bind fun thread _ => ?_
  split
  · exact hR.pure false
  exact Py.Moves.modify_bind (fun s s' h => .head .retract (h rfl).1) fun _ =>
    hM.bind (moves_recordTokenUsage format event payload ts hgives) fun _ => hM.pure true

end

theorem ledger_cover (previous : ℚ × Option Nat) (s : Session) :
    (cover previous s).ledger = s.ledger := by
  unfold cover
  split
  · split
    · rfl
    · dsimp only
      split
      · rfl
      · split <;> rfl
  · rfl

theorem gives_of_payload {event value : Json}
    (hkind : event.getNone "type" = .ok (.str "token_usage_record"))
    (hpayload : event.getNone "payload" = .ok value) (id key : Json)
    (hid : (value.orElse (.obj [])).getNone "response_id" = .ok id) (htruthy : id.truthy)
    (hkey : id.hashed = .ok key) : Gives event key :=
  ⟨value, hpayload, hkind, id, hid, htruthy, hkey⟩

theorem moves_dispatch {kind event value : Json} (hkind : event.getNone "type" = .ok kind)
    (hpayload : event.getNone "payload" = .ok value) (ts : ℚ)
    (pending : Option (Json × ℚ × Json)) :
    Py.Moves (Touched event)
      (dispatch format kind event (value.orElse (.obj [])) ts pending) := by
  have hR := step_touched event
  unfold dispatch
  split
  · exact hR.bind (moves_quiet fun _ => rfl) fun _ => hR.pure true
  split
  · exact hR.bind (moves_turnContext event _ ts) fun _ => hR.pure true
  split
  · next hrecord =>
    exact moves_tokenUsageRecord format event _ ts (gives_of_payload (hrecord ▸ hkind) hpayload)
  split
  · exact hR.bind (moves_eventMsg format event _ ts pending) fun _ => hR.pure true
  · exact hR.pure true

/-- **What consuming an event does to the requests**, whether or not it raises. -/
theorem moves_consume (event : Json) : Py.Moves (Touched event) (consume stamp format event) := by
  have hR := step_touched event
  refine Py.Moves.read_bind fun s => hR.ofExcept_bind fun timestamp _ => ?_
  refine hR.ofExcept_bind fun value hpayload => ?_
  dsimp only
  split
  case isFalse => exact hR.pure ()
  refine hR.ofExcept_bind fun kind hkind => hR.ofExcept_bind fun type _ => ?_
  refine Py.Moves.read_bind fun s => hR.bind (moves_quiet fun _ => rfl) fun _ => ?_
  split
  · exact moves_quiet fun _ => rfl
  refine hR.bind (moves_dispatch format hkind hpayload _ _) fun counted => ?_
  split
  · refine hR.bind (Py.Moves.modify fun s' => ?_) fun _ => moves_quiet (ledger_cover _)
    cases s.pendingTierContext with
    | none => exact .refl
    | some context => exact .single (.resolve context.1 true)
  · exact hR.pure ()

/-! ## records of the thread -/

def IsRecord (thread : PyStr) (event : Json) : Prop :=
  event.getNone "type" = .ok (.str "token_usage_record") ∧
    ∃ value, event.getNone "payload" = .ok value ∧ (value.orElse (.obj [])).isDict ∧
      (value.orElse (.obj [])).getD "thread_id" (.str thread) = .ok (.str thread)

end

end Codexon.Session
