import Codexon.Session.Bookkeeping

/-!
# Codexon.Session.LateContext

A `turn_context` that comes after records of its turn.  `add_usage` gives a
record what the turn is known to have, `resolve_context` completes earlier
records of the turn; the two agree where the context does not contradict what
was known.

Which requests are listed as unresolved follows from the requests
(`Books`), so two sessions are told apart only by their requests and by the
fields that have nothing to do with them (`Alike`).
-/

namespace Codexon.Session

/-! ## completing the requests of a turn -/

/-- What a turn is known to have. -/
structure Known where
  model : Json
  effort : PyStr
  tier : Json
  evidence : Option Evidence

def known (s : Session) (turn : Json) : Known :=
  let (model, effort) := (s.contexts.get? turn).getD (.str [], unknownText)
  { model, effort
    tier := (s.tierContexts.get? turn).getD (.str unknownText)
    evidence := (s.tierEvidence.get? turn).getD none }

def Known.complete (k : Known) (includeTier : Bool) (r : Request) : Request :=
  (Session.complete k.model k.effort k.tier k.evidence includeTier r).1

def Known.completeTurn (k : Known) (turn : Json) (includeTier : Bool) (r : Request) : Request :=
  if turn.truthy ∧ r.turn = turn then k.complete includeTier r else r

theorem complete_of_not_lacks (k : Known) (includeTier : Bool) {r : Request} (h : ¬ r.lacks) :
    k.complete includeTier r = r := by
  simp only [Request.lacks, Bool.or_eq_true, Bool.not_eq_true', Bool.and_eq_true, decide_eq_true_eq,
    not_or, not_and, Bool.not_eq_false, Bool.not_eq_true] at h
  obtain ⟨⟨hmodel, heffort⟩, htier⟩ := h
  have htier' : (includeTier && decide (r.serviceTierSource = .settings) && unknownValue r.serviceTier &&
      !unknownValue k.tier) = false := by
    by_cases hs : r.serviceTierSource = .settings
    · simp [htier hs]
    · simp [hs]
  simp [Known.complete, Session.complete, fill, hmodel, heffort, htier']

theorem request_foldl {f : Request → Request × Bool} (turn : Json) (pending : List Nat)
    (s : Session) (hpending : pending.Nodup) (hsize : ∀ ref ∈ pending, ref < s.objects.length)
    (x : Nat) : (pending.foldl (resolveRequest f turn) s).request x =
      if x ∈ pending then (f (s.request x)).1 else s.request x := by
  induction pending generalizing s with
  | nil => simp
  | cons ref rest ih =>
    have hobjects : (resolveRequest f turn s ref).objects =
        s.objects.set ref (f (s.request ref)).1 := by
      unfold resolveRequest leaveUnresolved; dsimp only; split <;> rfl
    have hrequest (y : Nat) : (resolveRequest f turn s ref).request y =
        if y = ref then (f (s.request ref)).1 else s.request y := by
      rw [request, hobjects]
      exact request_set (hsize ref List.mem_cons_self) y
    rw [List.nodup_cons] at hpending
    rw [List.foldl_cons, ih _ hpending.2 (fun y hy => by
      rw [hobjects, List.length_set]; exact hsize y (List.mem_cons_of_mem _ hy)), hrequest]
    by_cases hx : x = ref
    · subst hx
      simp [hpending.1]
    · simp [hx]

theorem foldl_resolveRequest {β : Type} (field : Session → β) {f : Request → Request × Bool}
    {turn : Json} (hfield : ∀ f s ref, field (resolveRequest f turn s ref) = field s)
    (pending : List Nat) (s : Session) :
    field (pending.foldl (resolveRequest f turn) s) = field s :=
  List.foldlRecOn (motive := fun t => field t = field s) pending _ rfl
    fun _ h ref _ => (hfield f _ ref).trans h

theorem requests_resolveTurn (s : Session) (turn : Json) (includeTier : Bool) :
    (s.resolveTurn turn includeTier).requests = s.requests :=
  foldl_resolveRequest (·.requests) (fun f s ref => by
    unfold resolveRequest leaveUnresolved; dsimp only; split <;> rfl) _ _

variable {s : Session}

/-- **Resolving a turn** completes the requests of the turn. -/
theorem Books.stored_resolveTurn (hs : s.Books) (turn : Json) (includeTier : Bool) :
    (s.resolveTurn turn includeTier).stored =
      s.stored.map ((s.known turn).completeTurn turn includeTier) := by
  rw [stored, requests_resolveTurn, stored, List.map_map]
  refine List.map_congr_left fun x hx => ?_
  have hfold := request_foldl (f := complete (s.known turn).model (s.known turn).effort
    (s.known turn).tier (s.known turn).evidence includeTier) turn (s.listed turn)
    { s with unresolvedContexts := s.unresolvedContexts.erase turn } (hs.unresolvedOnce turn)
    (fun ref href => hs.valid ref ((hs.unresolved turn ref).mp href).2.1) x
  refine Eq.trans hfold ?_
  show (if x ∈ s.listed turn then (s.known turn).complete includeTier (s.request x) else s.request x) =
    (s.known turn).completeTurn turn includeTier (s.request x)
  unfold Known.completeTurn
  by_cases hturn : turn.truthy ∧ (s.request x).turn = turn
  · rw [if_pos hturn]
    by_cases hlacks : (s.request x).lacks
    · rw [if_pos ((hs.unresolved turn x).mpr ⟨hturn.1, hx, hturn.2, hlacks⟩)]
    · rw [if_neg fun h => hlacks ((hs.unresolved turn x).mp h).2.2.2]
      exact (complete_of_not_lacks _ _ hlacks).symm
  · rw [if_neg hturn, if_neg fun h => hturn ⟨((hs.unresolved turn x).mp h).1,
      ((hs.unresolved turn x).mp h).2.2.1⟩]

/-! ## sessions that differ in their bookkeeping alone -/

/-- The fields that have nothing to do with the requests. -/
def rest (s : Session) : Session := { s with
  objects := [], requests := [], keys := [], coverageTotal := 0, unresolvedContexts := {}
  contextRevision := 0 }

/-- The fields that the bookkeeping is about. -/
def accounts (s : Session) : List Request × List Nat × List Json × Nat × Dict Json (List Nat) :=
  (s.objects, s.requests, s.keys, s.coverageTotal, s.unresolvedContexts)

variable {t : Session}

theorem request_of_accounts (h : t.accounts = s.accounts) : t.request = s.request := by
  simp only [accounts, Prod.mk.injEq] at h
  funext ref
  rw [request, request, h.1]

theorem stored_of_accounts (h : t.accounts = s.accounts) : t.stored = s.stored := by
  have hrequest := request_of_accounts h
  simp only [accounts, Prod.mk.injEq] at h
  rw [stored, stored, hrequest, h.2.1]

theorem books_of_accounts (h : t.accounts = s.accounts) (hs : s.Books) : t.Books := by
  have hrequest := request_of_accounts h
  simp only [accounts, Prod.mk.injEq] at h
  obtain ⟨hobjects, hrequests, hkeys, htotal, hunresolved⟩ := h
  have hlisted : t.listed = s.listed := by
    funext turn
    rw [listed, listed, hunresolved]
  rw [Books, hrequest, hobjects, hrequests, hkeys, htotal, hlisted]
  exact hs

/-- The same requests and the same other fields. -/
structure Alike (s t : Session) : Prop where
  left : s.Books
  right : t.Books
  stored : s.stored = t.stored
  rest : s.rest = t.rest

theorem Books.alike (hs : s.Books) : Alike s s := ⟨hs, hs, rfl, rfl⟩

theorem Alike.trans {u : Session} (h : Alike s t) (h' : Alike t u) : Alike s u :=
  ⟨h.left, h'.right, h.stored.trans h'.stored, h.rest.trans h'.rest⟩

theorem Alike.field (h : Alike s t) {β : Type} (f : Session → β)
    (hf : ∀ s, f s.rest = f s) : f t = f s := by
  rw [← hf t, ← hf s, h.rest]

theorem Books.keys_eq (hs : s.Books) : s.keys = s.stored.map (·.key) := by
  rw [hs.keySet, stored, List.map_map]
  rfl

theorem Books.coverage_eq (hs : s.Books) :
    s.coverageTotal = (s.stored.map (·.total.getD 0)).sum := by
  rw [hs.coverage, stored, List.map_map]
  rfl

theorem Alike.keys (h : Alike s t) : t.keys = s.keys := by
  rw [h.left.keys_eq, h.right.keys_eq, h.stored]

theorem Alike.coverageTotal (h : Alike s t) : t.coverageTotal = s.coverageTotal := by
  rw [h.left.coverage_eq, h.right.coverage_eq, h.stored]

theorem Alike.update (h : Alike s t) {f : Session → Session}
    (hf : ∀ s, (f s).rest = (f s.rest).rest ∧ (f s).accounts = s.accounts) : Alike (f s) (f t) where
  left := books_of_accounts (hf s).2 h.left
  right := books_of_accounts (hf t).2 h.right
  stored := by rw [stored_of_accounts (hf s).2, stored_of_accounts (hf t).2, h.stored]
  rest := by rw [(hf s).1, (hf t).1, h.rest]

theorem rest_resolveTurn (s : Session) (turn : Json) (includeTier : Bool) :
    (s.resolveTurn turn includeTier).rest = s.rest :=
  foldl_resolveRequest rest (fun f s ref => by
    unfold resolveRequest leaveUnresolved; dsimp only; split <;> rfl) _ _

theorem rest_recordUsage (s : Session) (r : Request) :
    (s.recordUsage r).rest = { s.rest with activity := max s.activity r.ts } := by
  unfold recordUsage leaveUnresolved
  split <;> rfl

theorem rest_retract (s : Session) : s.retract.rest = s.rest := by
  unfold retract
  split <;> rfl

theorem stored_retract (s : Session) :
    s.retract.stored = if s.modern then s.stored else s.stored.filter (!·.legacy) := by
  unfold retract
  by_cases hmodern : s.modern
  · simp [hmodern]
  · by_cases hlegacy : s.stored.any Request.legacy
    · simp only [hmodern, hlegacy, Bool.not_false, Bool.and_self, if_true]
      simp only [stored, List.filter_map]
      rfl
    · rw [Bool.not_eq_true] at hlegacy
      simp only [hmodern, hlegacy, Bool.and_false, Bool.false_eq_true, if_false]
      refine (List.filter_eq_self.mpr fun r hr => ?_).symm
      rw [List.any_eq_false] at hlegacy
      simpa using hlegacy r hr

theorem known_rest (s : Session) (turn : Json) : s.rest.known turn = s.known turn := rfl

theorem Alike.resolveTurn (h : Alike s t) (turn : Json) (includeTier : Bool) :
    Alike (s.resolveTurn turn includeTier) (t.resolveTurn turn includeTier) where
  left := h.left.resolveTurn turn includeTier
  right := h.right.resolveTurn turn includeTier
  stored := by
    rw [h.left.stored_resolveTurn, h.right.stored_resolveTurn, h.stored,
      h.field (·.known turn) fun _ => rfl]
  rest := by rw [rest_resolveTurn, rest_resolveTurn, h.rest]

theorem Alike.recordUsage (h : Alike s t) {r : Request} (hkey : r.key ∉ s.keys) :
    Alike (s.recordUsage r) (t.recordUsage r) where
  left := h.left.recordUsage hkey
  right := h.right.recordUsage (by rwa [h.keys])
  stored := by rw [stored_recordUsage h.left, stored_recordUsage h.right, h.stored]
  rest := by
    rw [rest_recordUsage, rest_recordUsage, h.rest, h.field (·.activity) fun _ => rfl]

theorem Alike.retract (h : Alike s t) :
    Alike { s.retract with modern := true } { t.retract with modern := true } := by
  have hretract : Alike s.retract t.retract := ⟨h.left.retract, h.right.retract, by
    rw [stored_retract, stored_retract, h.stored, h.field (·.modern) fun _ => rfl],
    by rw [rest_retract, rest_retract, h.rest]⟩
  exact hretract.update (f := fun s => { s with modern := true }) fun _ => ⟨rfl, rfl⟩

theorem rest_cover (previous : ℚ × Option Nat) (s : Session) : (cover previous s).rest =
    (cover previous { s.rest with coverageTotal := s.coverageTotal }).rest := by
  have hreport : currentReport { s.rest with coverageTotal := s.coverageTotal } = s.currentReport :=
    rfl
  have hlast : s.rest.coverageLast = s.coverageLast := rfl
  unfold Session.cover
  rw [hreport]
  rcases s.currentReport with ⟨ts, _ | total⟩
  · rfl
  · dsimp only
    rw [hlast]
    split
    · rfl
    · cases s.coverageLast with
      | none => rfl
      | some last =>
        dsimp only
        split <;> rfl

theorem accounts_cover (previous : ℚ × Option Nat) (s : Session) :
    (cover previous s).accounts = s.accounts := by
  have := ledger_cover previous s
  simp only [ledger, Prod.mk.injEq] at this
  simp only [accounts, this]

theorem Alike.cover (h : Alike s t) (previous : ℚ × Option Nat) :
    Alike (cover previous s) (cover previous t) where
  left := books_of_accounts (accounts_cover previous s) h.left
  right := books_of_accounts (accounts_cover previous t) h.right
  stored := by
    rw [stored_of_accounts (accounts_cover previous s), stored_of_accounts (accounts_cover previous t),
      h.stored]
  rest := by rw [rest_cover, rest_cover previous t, h.rest, h.coverageTotal]

/-! ## alike sessions consume alike -/

section

variable (stamp : Json → ℚ) (format : Json → PyStr)

/-- Alike sessions run the program alike. -/
abbrev Uniform {β : Type} (m : Py Session β) : Prop := Py.Relates Alike m m

theorem uniform_update {f : Session → Session}
    (hf : ∀ s, (f s).rest = (f s.rest).rest ∧ (f s).accounts = s.accounts) :
    Uniform (modifyThe Session f : Py Session PUnit) :=
  Py.Relates.modify fun _ _ h => h.update hf

theorem uniform_update_bind {f : Session → Session} {β : Type} {m n : PUnit → Py Session β}
    (hf : ∀ s, (f s).rest = (f s.rest).rest ∧ (f s).accounts = s.accounts)
    (hm : ∀ a, Py.Relates Alike (m a) (n a)) :
    Py.Relates Alike ((modifyThe Session f : Py Session PUnit) >>= m)
      ((modifyThe Session f : Py Session PUnit) >>= n) :=
  (uniform_update hf).bind hm

theorem uniform_resolveContext (turn : Json) (includeTier : Bool) :
    Uniform (resolveContext turn includeTier) :=
  Py.Relates.ofExcept_bind fun turn _ => Py.Relates.modify fun _ _ h =>
    h.resolveTurn turn includeTier

theorem uniform_turnContext (event payload : Json) (ts : ℚ) :
    Uniform (turnContext event payload ts) := by
  refine .ofExcept_bind fun model _ => ?_
  refine uniform_update_bind (fun _ => ⟨rfl, rfl⟩) fun _ => ?_
  refine .ofExcept_bind fun turnId _ => ?_
  refine uniform_update_bind (fun _ => ⟨rfl, rfl⟩) fun _ => ?_
  refine .ofExcept_bind fun effort _ => ?_
  refine uniform_update_bind (fun _ => ⟨rfl, rfl⟩) fun _ => ?_
  refine .read_bind fun s t h => ?_
  rw [h.field (·.currentTurn) fun _ => rfl]
  refine .ofExcept_bind fun turn _ => .ofExcept_bind fun tier _ =>
    uniform_update_bind (fun _ => ⟨rfl, rfl⟩) fun _ => ?_
  have hresolve : Uniform
      (if turnId.truthy then resolveContext turnId tier.isSome else pure ()) := by
    split
    · exact uniform_resolveContext turnId tier.isSome
    · exact .pure ()
  dsimp only
  split
  · exact .ofExcept_bind fun next _ => uniform_update_bind (fun _ => ⟨rfl, rfl⟩) fun _ => hresolve
  · exact hresolve

theorem uniform_addUsage (ts : ℚ) (key usage model turn : Json) (effort : PyStr)
    (serviceTier : Json) (source : Source) (configuredModel : Json) (evidence : Option Evidence) :
    Uniform
      (addUsage ts key usage model turn effort serviceTier source configuredModel evidence) := by
  refine .ofExcept_bind fun key' hkey => ?_
  intro s t h
  -- Both know the key or both do not, and both record the same request.
  by_cases hmem : key' ∈ s.keys
  · have hmem' : key' ∈ t.keys := by rwa [h.keys]
    simp only [bind, EStateM.bind, Py.get_run, hmem, hmem', if_true]
    exact ⟨trivial, h⟩
  · have hmem' : key' ∉ t.keys := by rwa [h.keys]
    simp only [bind, EStateM.bind, Py.get_run, hmem, hmem', if_false]
    cases usageValues usage with
    | error e => exact ⟨rfl, h⟩
    | ok values =>
      have hepoch := h.field (·.compactionEpoch) fun _ => rfl
      simp only [Py.ofExcept, pure, EStateM.pure, hepoch]
      refine ⟨trivial, h.recordUsage ?_⟩
      cases evidence <;> exact hmem

theorem uniform_report (ts : ℚ) (usage : Json) : Uniform (report ts usage) :=
  .ofExcept_bind fun _ _ => uniform_update fun _ => ⟨rfl, rfl⟩

theorem Alike.eventKey {s t : Session} (h : Alike s t) (text : String) (event : Json) :
    t.eventKey format text event = s.eventKey format text event := by
  unfold Session.eventKey
  rw [h.keys]

theorem uniform_recordTokenUsage (event payload : Json) (ts : ℚ) :
    Uniform (recordTokenUsage format event payload ts) := by
  refine .ofExcept_bind fun turn _ => .read_bind fun s t h => ?_
  rw [h.field (·.contexts) fun _ => rfl, h.field (·.tierContexts) fun _ => rfl,
    h.field (·.tierEvidence) fun _ => rfl]
  generalize (s.contexts.get? turn).getD (.str [], unknownText) = context
  obtain ⟨model, effort⟩ := context
  refine .ofExcept_bind fun id _ => ?_
  rw [h.eventKey format]
  refine .ofExcept_bind fun key _ => .ofExcept_bind fun usage _ => .ofExcept_bind fun tier _ => ?_
  refine (uniform_addUsage _ _ _ _ _ _ _ _ _ _).bind fun _ => .ofExcept_bind fun threadUsage _ =>
    .read_bind fun s t h => ?_
  rw [h.field (·.reportedTs) fun _ => rfl]
  split
  · exact uniform_report ts _
  · exact .pure ()

theorem uniform_tokenUsageRecord (event payload : Json) (ts : ℚ) :
    Uniform (tokenUsageRecord format event payload ts) := by
  refine .read_bind fun s t h => ?_
  rw [h.field (·.id) fun _ => rfl]
  refine .ofExcept_bind fun thread _ => ?_
  split
  · exact .pure false
  · exact .modify_bind (fun s t h => h.retract) fun _ =>
      (uniform_recordTokenUsage format event payload ts).bind fun _ => .pure true

theorem uniform_threadSettings (event payload : Json) (ts : ℚ) (pending : Option (Json × ℚ × Json)) :
    Uniform (threadSettings event payload ts pending) := by
  refine .ofExcept_bind fun settings _ => .ofExcept_bind fun tier _ => ?_
  cases tier with
  | none => exact .pure ()
  | some value =>
    refine uniform_update_bind (fun _ => ⟨rfl, rfl⟩) fun _ => ?_
    match pending with
    | none => exact .pure ()
    | some (turn, at', next) =>
      refine .ofExcept_bind fun eventId _ => .read_bind fun s t h => ?_
      rw [h.field (·.currentTurn) fun _ => rfl]
      split
      · exact uniform_update_bind (fun _ => ⟨rfl, rfl⟩) fun _ =>
          Py.Relates.modify fun _ _ h => h.resolveTurn turn true
      · exact .pure ()

theorem uniform_taskEvent (kind : TaskEvent) (payload : Json) (ts : ℚ) :
    Uniform (taskEvent kind payload ts) := by
  refine .read_bind fun s t h => ?_
  rw [h.field (·.stateTs) fun _ => rfl]
  split
  case isFalse => exact .pure ()
  refine uniform_update_bind (fun _ => ⟨rfl, rfl⟩) fun _ => .ofExcept_bind fun turnId _ => ?_
  have hstart : Uniform
      (if decide (kind = .started) = true then do
        let turn ← Py.ofExcept (payload.getD "turn_id" (.str []))
        modify fun s => { s with currentTurn := turn.canon, currentEffort := unknownText }
      else pure ()) := by
    split
    · exact .ofExcept_bind fun turn _ => uniform_update fun _ => ⟨rfl, rfl⟩
    · exact .pure ()
  dsimp only
  split
  · exact .ofExcept_bind fun turn _ => uniform_update_bind (fun _ => ⟨rfl, rfl⟩) fun _ => hstart
  · exact uniform_update_bind (fun _ => ⟨rfl, rfl⟩) fun _ => hstart

theorem uniform_tokenCount (event payload : Json) (ts : ℚ) :
    Uniform (tokenCount format event payload ts) := by
  refine .ofExcept_bind fun info _ => .ofExcept_bind fun total _ => ?_
  dsimp only
  split
  case h_2 => exact .throw _
  refine .read_bind fun s t h => ?_
  rw [h.field (·.totalKey) fun _ => rfl]
  split
  case isFalse => exact .pure ()
  refine uniform_update_bind (fun _ => ⟨rfl, rfl⟩) fun _ => .read_bind fun s t h => ?_
  rw [h.eventKey format, h.field (·.currentTurn) fun _ => rfl, h.field (·.configuredModel) fun _ => rfl,
    h.field (·.currentEffort) fun _ => rfl, h.field (·.tierContexts) fun _ => rfl]
  refine .ofExcept_bind fun key _ => .ofExcept_bind fun usage _ => .ofExcept_bind fun turn _ => ?_
  refine (uniform_addUsage _ _ _ _ _ _ _ _ _ _).bind fun _ => .read_bind fun s t h => ?_
  rw [h.field (·.reportedTs) fun _ => rfl]
  split
  · exact uniform_report ts _
  · exact .pure ()

theorem uniform_eventMsg (event payload : Json) (ts : ℚ) (pending : Option (Json × ℚ × Json)) :
    Uniform (eventMsg format event payload ts pending) := by
  refine .ofExcept_bind fun type _ => .ofExcept_bind fun thread _ => .read_bind fun s t h => ?_
  rw [h.field (·.id) fun _ => rfl]
  have hcount : Uniform
      (do
        let s ← get
        if type = Json.str "token_count" ∧ (!s.modern) = true then tokenCount format event payload ts
        else pure ()) := by
    refine .read_bind fun s t h => ?_
    rw [h.field (·.modern) fun _ => rfl]
    split
    · exact uniform_tokenCount format event payload ts
    · exact .pure ()
  have htask (kind : TaskEvent) := (uniform_taskEvent kind payload ts).bind fun _ => hcount
  dsimp only
  split
  · refine (uniform_threadSettings event payload ts pending).bind fun _ => ?_
    split
    · exact htask _
    · exact hcount
  · split
    · exact htask _
    · exact hcount

theorem uniform_dispatch (kind event payload : Json) (ts : ℚ) (pending : Option (Json × ℚ × Json)) :
    Uniform (dispatch format kind event payload ts pending) := by
  unfold dispatch
  split
  · exact uniform_update_bind (fun _ => ⟨rfl, rfl⟩) fun _ => .pure true
  split
  · exact (uniform_turnContext event payload ts).bind fun _ => .pure true
  split
  · exact uniform_tokenUsageRecord format event payload ts
  split
  · exact (uniform_eventMsg format event payload ts pending).bind fun _ => .pure true
  · exact .pure true

/-- **Alike sessions consume alike.** -/
theorem uniform_consume (event : Json) :
    Uniform (consume stamp format event) := by
  refine .read_bind fun s t h => ?_
  rw [h.field (·.currentReport) fun _ => rfl]
  refine .ofExcept_bind fun timestamp _ => .ofExcept_bind fun value _ => ?_
  dsimp only
  split
  case isFalse => exact .pure ()
  refine .ofExcept_bind fun kind _ => .ofExcept_bind fun type _ => .read_bind fun s t h => ?_
  rw [h.field (·.pendingTierContext) fun _ => rfl]
  refine uniform_update_bind (fun _ => ⟨rfl, rfl⟩) fun _ => ?_
  split
  · exact uniform_update fun _ => ⟨rfl, rfl⟩
  refine (uniform_dispatch format kind event _ _ _).bind fun counted => ?_
  split
  · refine .modify_bind (fun s' t' h' => ?_) fun _ => .modify fun _ _ h => h.cover _
    cases s.pendingTierContext with
    | none => exact h'
    | some context => exact h'.resolveTurn context.1 true
  · exact .pure ()

theorem Alike.run {s t : Session} (h : Alike s t) (events : List Json) :
    Alike (run (afterEvent stamp format) s events) (run (afterEvent stamp format) t events) := by
  induction events generalizing s t with
  | nil => exact h
  | cons event events ih => exact ih ((uniform_consume stamp format event).final h)

end

/-! ## what is known before and after -/

/-- What the turn was known to have is what the context gives, or is missing and
now given. -/
structure Fits (old new : Known) : Prop where
  model : old.model = new.model ∨ ¬ old.model.truthy ∧ new.model.truthy
  effort : old.effort = new.effort ∨ unknownValue (.str old.effort) ∧ ¬ unknownValue (.str new.effort)
  tier : (old.tier = new.tier ∧ old.evidence = new.evidence) ∨
    unknownValue old.tier ∧ ¬ unknownValue new.tier

theorem Fits.refl (k : Known) : Fits k k := ⟨.inl rfl, .inl rfl, .inl ⟨rfl, rfl⟩⟩

namespace Known

def fillModel (k : Known) (r : Request) : Request :=
  if !r.model.truthy && k.model.truthy then { r with model := k.model, configuredModel := k.model }
  else r

def fillEffort (k : Known) (r : Request) : Request :=
  if unknownValue (.str r.effort) && !unknownValue (.str k.effort) then { r with effort := k.effort }
  else r

def fillTier (k : Known) (includeTier : Bool) (r : Request) : Request :=
  if includeTier && r.serviceTierSource = .settings && unknownValue r.serviceTier &&
      !unknownValue k.tier then { r with serviceTier := k.tier }.withEvidence k.evidence
  else r

theorem complete_eq (k : Known) (includeTier : Bool) (r : Request) :
    k.complete includeTier r = k.fillTier includeTier (k.fillEffort (k.fillModel r)) := by
  have hfill (missing : Request → Bool) (f : Request → Request) (r : Request × Bool) :
      (fill missing f r).1 = if missing r.1 then f r.1 else r.1 := by
    unfold fill
    split <;> rfl
  rw [complete, Session.complete, hfill, hfill, hfill]
  rfl

theorem fillModel_fillEffort (k k' : Known) (r : Request) :
    k.fillModel (k'.fillEffort r) = k'.fillEffort (k.fillModel r) := by
  unfold fillModel fillEffort
  split_ifs <;> simp_all

theorem fillModel_fillTier (k k' : Known) (b : Bool) (r : Request) :
    k.fillModel (k'.fillTier b r) = k'.fillTier b (k.fillModel r) := by
  unfold fillModel fillTier
  cases k'.evidence <;> split_ifs <;> simp_all [Request.withEvidence]

theorem fillEffort_fillTier (k k' : Known) (b : Bool) (r : Request) :
    k.fillEffort (k'.fillTier b r) = k'.fillTier b (k.fillEffort r) := by
  unfold fillEffort fillTier
  cases k'.evidence <;> split_ifs <;> simp_all [Request.withEvidence]

end Known

/-- **Completing twice**, first from what was known, is completing once. -/
theorem Fits.complete {old new : Known} (h : Fits old new) (b : Bool) (r : Request) :
    new.complete true (old.complete b r) = new.complete true r := by
  have hmodel (r : Request) : new.fillModel (old.fillModel r) = new.fillModel r := by
    unfold Known.fillModel
    rcases h.model with heq | ⟨hold, -⟩
    · rw [heq]
      by_cases hr : (!r.model.truthy && new.model.truthy) = true
      · have hnew : new.model.truthy = true := by simpa using (Bool.and_eq_true_iff.mp hr).2
        rw [if_pos hr, if_neg (by simp [hnew])]
      · rw [if_neg hr, if_neg hr]
    · simp [hold]
  have heffort (r : Request) : new.fillEffort (old.fillEffort r) = new.fillEffort r := by
    unfold Known.fillEffort
    rcases h.effort with heq | ⟨hold, -⟩
    · rw [heq]
      by_cases hr : (unknownValue (.str r.effort) && !unknownValue (.str new.effort)) = true
      · have hnew : unknownValue (.str new.effort) = false := by
          simpa using (Bool.and_eq_true_iff.mp hr).2
        rw [if_pos hr, if_neg (by simp [hnew])]
      · rw [if_neg hr, if_neg hr]
    · simp [hold]
  have htier (r : Request) : new.fillTier true (old.fillTier b r) = new.fillTier true r := by
    unfold Known.fillTier
    rcases h.tier with ⟨heq, hevidence⟩ | ⟨hold, -⟩
    · rw [heq, hevidence]
      by_cases hr : (b && decide (r.serviceTierSource = .settings) && unknownValue r.serviceTier &&
          !unknownValue new.tier) = true
      · simp only [Bool.and_eq_true, Bool.not_eq_true', decide_eq_true_eq] at hr
        obtain ⟨⟨⟨rfl, hsource⟩, hr⟩, hnew⟩ := hr
        cases hevidence' : new.evidence <;> simp [hsource, hr, hnew, Request.withEvidence]
      · rw [if_neg hr]
    · simp [hold]
  rw [Known.complete_eq, Known.complete_eq, Known.complete_eq, Known.fillModel_fillTier,
    Known.fillModel_fillEffort, Known.fillEffort_fillTier, htier, heffort, hmodel]

/-! ## the two events -/

def IsContext (turn event : Json) : Prop :=
  event.getNone "type" = .ok (.str "turn_context") ∧
    ∃ value, event.getNone "payload" = .ok value ∧ (value.orElse (.obj [])).isDict ∧
      (∃ id, (value.orElse (.obj [])).getNone "turn_id" = .ok id ∧ id.truthy ∧ id.hashed = .ok turn) ∧
      ∃ tier, (value.orElse (.obj [])).get "service_tier" = .ok (some tier)

/-- A `token_usage_record` of the thread and the turn. -/
def IsRecordOf (thread : PyStr) (turn event : Json) : Prop :=
  IsRecord thread event ∧ ∃ value, event.getNone "payload" = .ok value ∧
    ∃ id, (value.orElse (.obj [])).getD "turn_id" (.str []) = .ok id ∧ id.hashed = .ok turn

def effortText : Json → PyStr
  | .str text => text
  | _ => unknownText

def tierValue : Json → Json
  | .null => .str (py "Standard")
  | value => value.canon

def explain (s : Session) (turn : Json) (new : Known) : Session := { s with
  configuredModel := new.model, model := new.model.orElse s.model
  currentTurn := turn, currentEffort := new.effort
  contexts := s.contexts.set turn (new.model, new.effort)
  tierContexts := s.tierContexts.set turn new.tier
  tierEvidence := s.tierEvidence.set turn new.evidence }

theorem known_explain (s : Session) (turn : Json) (new : Known) (turn' : Json) :
    (s.explain turn new).known turn' = if turn' = turn then new else s.known turn' := by
  simp only [known, explain, Dict.get?_set]
  split <;> rfl

def settle (pending : Option (Json × ℚ × Json)) (s : Session) : Session :=
  pending.elim s fun context => s.resolveTurn context.1 true

theorem rest_settle (pending : Option (Json × ℚ × Json)) (s : Session) :
    (s.settle pending).rest = s.rest := by
  cases pending with
  | none => rfl
  | some context => exact rest_resolveTurn s context.1 true

theorem Books.settle (hs : s.Books) (pending : Option (Json × ℚ × Json)) :
    (s.settle pending).Books := by
  cases pending with
  | none => exact hs
  | some context => exact hs.resolveTurn context.1 true

theorem hashed_eq {id turn : Json} (h : id.hashed = .ok turn) :
    turn = id.canon ∧ turn.hashed = .ok turn := by
  cases id with
  | null => cases h; exact ⟨rfl, rfl⟩
  | bool b => cases h; exact ⟨rfl, rfl⟩
  | int n => cases h; exact ⟨rfl, rfl⟩
  | str text => cases h; exact ⟨rfl, hashed_str text⟩
  | arr xs => cases h
  | obj members => cases h
  | float x =>
    obtain rfl := Except.ok.inj h
    refine ⟨rfl, ?_⟩
    cases x with
    | finite q =>
      by_cases hq : q.den = 1
      · simp [Json.canon, hq, Json.hashed]
      · simp [Json.canon, hq, Json.hashed]
    | _ => rfl

theorem truthy_hashed {id turn : Json} (h : id.hashed = .ok turn) : turn.truthy = id.truthy := by
  cases id with
  | null => cases h; rfl
  | bool b => cases h; cases b <;> rfl
  | int n => cases h; rfl
  | str text => cases h; rfl
  | arr xs => cases h
  | obj members => cases h
  | float x =>
    obtain rfl := Except.ok.inj h
    cases x with
    | finite q =>
      by_cases hq : q.den = 1
      · have hzero : (PyFloat.finite q = 0) ↔ q.num = 0 :=
          ⟨fun h => Rat.num_eq_zero.mpr (PyFloat.finite.inj h),
            fun h => congrArg _ (Rat.num_eq_zero.mp h)⟩
        simp [Json.canon, hq, Json.truthy, hzero]
      · simp [Json.canon, hq, Json.truthy]
    | _ => rfl

theorem cover_of_report {previous : ℚ × Option Nat} (h : s.currentReport = previous) :
    cover previous s = s := by
  unfold cover
  rw [h]
  rcases previous with ⟨ts, _ | total⟩
  · rfl
  · exact if_pos rfl

/-! ## a record before and after the context -/

theorem Known.completeTurn_identity (k : Known) (turn : Json) (includeTier : Bool) (r : Request) :
    identity (k.completeTurn turn includeTier r) = identity r := by
  unfold Known.completeTurn
  split
  · exact complete_identity ..
  · rfl

def settled (pending : Option (Json × ℚ × Json)) (s : Session) (r : Request) : Request :=
  pending.elim r fun context => (s.known context.1).completeTurn context.1 true r

theorem Books.stored_settle (hs : s.Books) (pending : Option (Json × ℚ × Json)) :
    (s.settle pending).stored = s.stored.map (settled pending s) := by
  cases pending with
  | none => exact (List.map_id s.stored).symm
  | some context => exact hs.stored_resolveTurn context.1 true

theorem settled_identity (pending : Option (Json × ℚ × Json)) (s : Session) (r : Request) :
    identity (settled pending s r) = identity r := by
  cases pending with
  | none => rfl
  | some context => exact Known.completeTurn_identity ..

/-- The request that `add_usage` records. -/
def recorded (ts : ℚ) (key : Json) (values : Usage) (turn tier : Json) (source : Source)
    (epoch : Nat) (k : Known) : Request :=
  ({ ts, key, input := values.input, cached := values.cached, written := values.written
     output := values.output, model := k.model, turn, reasoning := values.reasoning
     total := values.total, effort := k.effort, serviceTier := tier, serviceTierSource := source
     configuredModel := k.model.orElse k.model
     reportedTotal := values.reportedTotal, totalDiscrepancy := values.totalDiscrepancy
     inputConflict := values.inputConflict, outputConflict := values.outputConflict
     compactionEpoch := epoch } : Request).withEvidence k.evidence

/-- With the tier of the record, where it has its own, or what is known of the turn. -/
def recordedWith (ts : ℚ) (key : Json) (values : Usage) (turn : Json) (own : Option Json) (epoch : Nat)
    (k : Known) : Request :=
  recorded ts key values turn (own.getD k.tier) (if own.isSome then .record else .settings) epoch k

theorem recorded_identity (ts : ℚ) (key : Json) (values : Usage) (turn tier : Json)
    (source : Source) (epoch : Nat) (k : Known) :
    identity (recorded ts key values turn tier source epoch k) = (key, values.total, turn) := by
  unfold recorded
  cases k.evidence <;> rfl

/-- **A record completed by a later context** is the record after the context. -/
theorem Fits.complete_recorded {old new : Known} (h : Fits old new) (ts : ℚ) (key : Json)
    (values : Usage) (turn : Json) (epoch : Nat) {own : Option Json}
    (hown : own.isSome → old.evidence = new.evidence) (hevidence : new.evidence.isSome) :
    new.complete true (recordedWith ts key values turn own epoch old) =
      recordedWith ts key values turn own epoch new := by
  obtain ⟨hmodel, heffort, htier⟩ := h
  obtain ⟨m, e, t, v⟩ := old
  obtain ⟨m', e', t', v'⟩ := new
  have hself (x : Json) : x.orElse x = x := by
    unfold Json.orElse
    split <;> rfl
  simp only at hmodel heffort htier hown hevidence
  rw [Known.complete_eq]
  unfold recordedWith recorded Known.fillTier Known.fillEffort Known.fillModel
  simp only [hself]
  cases own with
  | some tier =>
    obtain rfl := hown rfl
    rcases hmodel with rfl | ⟨hm, hm'⟩ <;> rcases heffort with rfl | ⟨he, he'⟩ <;>
      cases v <;> simp_all [Request.withEvidence]
  | none =>
    rcases hmodel with rfl | ⟨hm, hm'⟩ <;> rcases heffort with rfl | ⟨he, he'⟩ <;>
      rcases htier with ⟨rfl, rfl⟩ | ⟨ht, ht'⟩ <;> cases v <;> (try cases v') <;>
      simp_all [Request.withEvidence]

section

variable (stamp : Json → ℚ) (format : Json → PyStr)

variable {turn : Json}

theorem turnContext_eq {event payload : Json} {ts : ℚ} {id tier : Json}
    (hid : payload.getNone "turn_id" = .ok id) (htruthy : id.truthy)
    (hhashed : id.hashed = .ok turn)
    (htier : payload.get "service_tier" = .ok (some tier)) {s s' : Session}
    (hok : turnContext event payload ts s = .ok () s') :
    ∃ new, new.evidence.isSome ∧
      ∀ t, turnContext event payload ts t = .ok () ((t.explain turn new).resolveTurn turn true) := by
  obtain ⟨hcanon, hturn⟩ := hashed_eq hhashed
  have hcurrent (old : Json) : id.canon.orElse old = turn := by
    rw [← hcanon, Json.orElse, truthy_hashed hhashed, if_pos htruthy]
  unfold turnContext at hok ⊢
  rw [hid, htier] at hok ⊢
  cases hmodel : payload.getNone "model" with
  | error e => rw [hmodel] at hok; cases hok
  | ok model =>
    rw [hmodel] at hok
    generalize heffort : (do
      let effort := (← payload.getNone "effort").orElse (← payload.getNone "reasoning_effort")
      if effort.truthy then return effort
      let mode := (← payload.getNone "collaboration_mode").orElse (.obj [])
      (← mode.getD "settings" (.obj [])).getNone "reasoning_effort" : Except PyError Json) = effort
      at hok ⊢
    cases effort with
    | error e => cases hok
    | ok effort =>
      refine ⟨⟨(model.orElse (.str [])).canon, effortText effort, tierValue tier,
        some ⟨tier.canon, .turnContext, if tier = .null then .clear else .set⟩⟩, rfl, fun t => ?_⟩
      simp only [bind, EStateM.bind, Py.ofExcept, pure, EStateM.pure, Py.modify_run, Py.get_run,
        hcurrent, hturn, hhashed, htruthy, resolveContext, if_true, Option.isNone_some,
        Option.isSome_some, Bool.false_eq_true, if_false]
      cases tier <;> cases effort <;> rfl

theorem consume_eq {event value kind type : Json} (hkind : event.getNone "type" = .ok kind)
    (hpayload : event.getNone "payload" = .ok value) (hdict : (value.orElse (.obj [])).isDict)
    (htype : (value.orElse (.obj [])).getNone "type" = .ok type)
    (hplain : ¬ (kind = .str "compacted" ∨ kind = .str "event_msg" ∧ type = .str "context_compacted"))
    :
    ∃ ts, ∀ s, consume stamp format event s =
      match dispatch format kind event (value.orElse (.obj [])) ts s.pendingTierContext
        { s with pendingTierContext := none } with
      | .ok counted s' => .ok () (if counted then
          cover s.currentReport (s'.settle s.pendingTierContext) else s')
      | .error e s' => .error e s' := by
  obtain ⟨timestamp, htimestamp⟩ : ∃ t, event.getNone "timestamp" = .ok t := by
    cases event with
    | obj members => exact ⟨_, rfl⟩
    | _ => cases hkind
  refine ⟨stamp timestamp, fun s => ?_⟩
  unfold consume
  simp only [bind, EStateM.bind, Py.ofExcept, pure, EStateM.pure, Py.get_run, htimestamp, hpayload,
    hdict, hkind, htype, hplain, if_true, if_false, Py.modify_run]
  cases dispatch format kind event (value.orElse (.obj [])) (stamp timestamp) s.pendingTierContext
      { s with pendingTierContext := none } with
  | error e s' => rfl
  | ok counted s' => cases counted <;> rfl

theorem type_of_isDict {payload : Json} (h : payload.isDict) : ∃ t, payload.getNone "type" = .ok t
    := by
  cases payload with
  | obj members => exact ⟨_, rfl⟩
  | _ => cases h

/-- A session after the context of a turn. -/
def afterContext (turn : Json) (new : Known) (t : Session) : Session :=
  (({ t with pendingTierContext := none } : Session).explain turn new).resolveTurn turn true
    |>.settle t.pendingTierContext

/-- **What a context of the turn does**, whatever the session. -/
theorem consume_context {event : Json} (hcontext : IsContext turn event) {s s' : Session}
    (hok : consume stamp format event s = .ok () s') :
    ∃ new, new.evidence.isSome ∧
      ∀ t, consume stamp format event t = .ok () (t.afterContext turn new) := by
  obtain ⟨hkind, value, hpayload, hdict, ⟨id, hid, htruthy, hhashed⟩, tier, htier⟩ := hcontext
  obtain ⟨type, htype⟩ := type_of_isDict hdict
  obtain ⟨ts, hconsume⟩ := consume_eq stamp format hkind hpayload hdict htype (by simp [py])
  have hdispatch (pending : Option (Json × ℚ × Json)) :
      dispatch format (.str "turn_context") event (value.orElse (.obj [])) ts pending =
        (do turnContext event (value.orElse (.obj [])) ts; return true) := by
    unfold dispatch
    rw [if_neg (by decide), if_pos rfl]
  rw [hconsume, hdispatch] at hok
  cases hcall : turnContext event (value.orElse (.obj [])) ts { s with pendingTierContext := none } with
  | error e s'' =>
    simp only [bind, EStateM.bind, hcall] at hok
    cases hok
  | ok u s'' =>
    obtain ⟨new, hevidence, hnew⟩ := turnContext_eq hid htruthy hhashed htier hcall
    refine ⟨new, hevidence, fun t => ?_⟩
    rw [hconsume, hdispatch]
    simp only [bind, EStateM.bind, hnew, pure, EStateM.pure, if_true]
    rw [cover_of_report, afterContext]
    have hreport (x : Session) : x.currentReport = x.rest.currentReport := rfl
    rw [hreport, rest_settle, rest_resolveTurn]
    rfl

/-- **What a record of the thread does.** -/
theorem consume_record {thread : PyStr} {event : Json}
    (hrecord : IsRecordOf thread turn event) :
    ∃ value ts, event.getNone "payload" = .ok value ∧
      (∃ id, (value.orElse (.obj [])).getD "turn_id" (.str []) = .ok id ∧ id.hashed = .ok turn) ∧
      ∀ s : Session, s.id = thread → consume stamp format event s =
        match recordTokenUsage format event (value.orElse (.obj [])) ts
          { ({ s with pendingTierContext := none } : Session).retract with modern := true } with
        | .ok () s' => .ok () (cover s.currentReport (s'.settle s.pendingTierContext))
        | .error e s' => .error e s' := by
  obtain ⟨⟨hkind, value, hpayload, hdict, hthread⟩, value', hpayload', hturn⟩ := hrecord
  obtain rfl : value = value' := Except.ok.inj (hpayload.symm.trans hpayload')
  obtain ⟨type, htype⟩ := type_of_isDict hdict
  obtain ⟨ts, hconsume⟩ := consume_eq stamp format hkind hpayload hdict htype (by simp [py])
  refine ⟨value, ts, hpayload, hturn, fun s hs => ?_⟩
  subst hs
  rw [hconsume]
  unfold dispatch
  rw [if_neg (by decide), if_neg (by decide), if_pos rfl]
  unfold tokenUsageRecord
  simp only [bind, EStateM.bind, Py.get_run, Py.ofExcept, hthread, pure, EStateM.pure, ne_eq,
    not_true_eq_false, if_false, Py.modify_run]
  cases recordTokenUsage format event (value.orElse (.obj [])) ts
      { ({ s with pendingTierContext := none } : Session).retract with modern := true } <;> rfl

/-- A session before a record and one after the context too: `t` has read the
context, which completes the requests of `s` by `g`. -/
structure Ahead (turn : Json) (knowns : Json → Known) (new : Known) (g : Request → Request)
    (s t : Session) : Prop where
  left : s.Books
  right : t.Books
  known : s.known = knowns
  pending : s.pendingTierContext = none
  stored : t.stored = s.stored.map g
  rest : t.rest = (s.explain turn new).rest

section

variable {turn : Json} {knowns : Json → Known} {new : Known} {g : Request → Request}

theorem Ahead.field {s t : Session} (h : Ahead turn knowns new g s t) {β : Type} (f : Session → β)
    (hf : ∀ s, f s.rest = f s ∧ f (s.explain turn new) = f s) : f t = f s := by
  rw [← (hf t).1, h.rest, (hf _).1, (hf s).2]

theorem Ahead.keys {s t : Session} (h : Ahead turn knowns new g s t)
    (hg : ∀ r, identity (g r) = identity r) : t.keys = s.keys := by
  rw [h.left.keys_eq, h.right.keys_eq, h.stored, List.map_map]
  exact List.map_congr_left fun r _ => congrArg Prod.fst (hg r)

theorem Ahead.coverageTotal {s t : Session} (h : Ahead turn knowns new g s t)
    (hg : ∀ r, identity (g r) = identity r) : t.coverageTotal = s.coverageTotal := by
  rw [h.left.coverage_eq, h.right.coverage_eq, h.stored, List.map_map]
  congr 1
  exact List.map_congr_left fun r _ => congrArg (·.2.1.getD 0) (hg r)

theorem Ahead.update {s t : Session} (h : Ahead turn knowns new g s t) {f : Session → Session}
    (hf : ∀ s, (f s).rest = (f s.rest).rest ∧ (f s).accounts = s.accounts)
    (hknown : ∀ s, (f s).known = s.known ∧ (f s).pendingTierContext = s.pendingTierContext ∧
      f (s.explain turn new) = (f s).explain turn new) :
    Ahead turn knowns new g (f s) (f t) where
  left := books_of_accounts (hf s).2 h.left
  right := books_of_accounts (hf t).2 h.right
  known := (hknown s).1.trans h.known
  pending := (hknown s).2.1.trans h.pending
  stored := by rw [stored_of_accounts (hf s).2, stored_of_accounts (hf t).2, h.stored]
  rest := by rw [(hf t).1, h.rest, ← (hf _).1, (hknown s).2.2]

theorem Ahead.retract {s t : Session} (h : Ahead turn knowns new g s t)
    (hg : ∀ r, identity (g r) = identity r) :
    Ahead turn knowns new g { s.retract with modern := true } { t.retract with modern := true } := by
  have hlegacy (r : Request) : (g r).legacy = r.legacy := by
    unfold Request.legacy
    rw [show (g r).key = r.key from congrArg Prod.fst (hg r)]
  have hknown (s : Session) : s.retract.known = s.known := by
    funext x
    rw [← known_rest, rest_retract, known_rest]
  have hpending (s : Session) : s.retract.pendingTierContext = s.pendingTierContext := by
    unfold Session.retract
    split <;> rfl
  have hretract : Ahead turn knowns new g s.retract t.retract := by
    refine ⟨h.left.retract, h.right.retract, (hknown s).trans h.known,
      (hpending s).trans h.pending, ?_, ?_⟩
    · rw [stored_retract, stored_retract, h.stored, h.field (·.modern) fun _ => ⟨rfl, rfl⟩,
        List.filter_map]
      split
      · rfl
      · congr 1
        refine List.filter_congr fun r _ => ?_
        simp [hlegacy]
    · have hexplain : (s.retract.explain turn new).rest = (s.retract.rest.explain turn new).rest := rfl
      rw [rest_retract, h.rest, hexplain, rest_retract]
      rfl
  exact hretract.update (f := fun s => { s with modern := true }) (fun _ => ⟨rfl, rfl⟩)
    fun _ => ⟨rfl, rfl, rfl⟩

theorem Ahead.recordUsage {s t : Session} (h : Ahead turn knowns new g s t) {r r' : Request}
    (hg : ∀ r, identity (g r) = identity r) (hr : g r = r') (hts : r'.ts = r.ts)
    (hkey : r.key ∉ s.keys) : Ahead turn knowns new g (s.recordUsage r) (t.recordUsage r') := by
  have hkey' : r'.key = r.key := hr ▸ congrArg Prod.fst (hg r)
  have hknown (x : Json) : (s.recordUsage r).known x = s.known x := by
    rw [← known_rest, rest_recordUsage]
    rfl
  refine ⟨h.left.recordUsage hkey, h.right.recordUsage (by rwa [hkey', h.keys hg]), ?_, ?_, ?_, ?_⟩
  · rw [← h.known]
    exact funext hknown
  · rw [show (s.recordUsage r).pendingTierContext = (s.recordUsage r).rest.pendingTierContext from rfl,
      rest_recordUsage]
    exact h.pending
  · rw [stored_recordUsage h.left, stored_recordUsage h.right, h.stored, List.map_append,
      List.map_singleton, hr]
  · have hexplain : ((s.recordUsage r).explain turn new).rest =
        ((s.recordUsage r).rest.explain turn new).rest := rfl
    rw [rest_recordUsage, h.rest, hexplain, rest_recordUsage, hts,
      h.field (·.activity) fun _ => ⟨rfl, rfl⟩]
    rfl

end

variable {new : Known}

/-- **A record before and after the context**: both record it, `s` from what
was known and `t` from what the context gave. -/
theorem ahead_recordTokenUsage {knowns : Json → Known}
    {g : Request → Request} (hg : ∀ r, identity (g r) = identity r)
    (event : Json) {payload : Json} {ts : ℚ}
    (hturn : ∃ id, payload.getD "turn_id" (.str []) = .ok id ∧ id.hashed = .ok turn)
    (hrecorded : ∀ (tier : Option Json) (key : Json) (values : Usage) (epoch : Nat),
      payload.get "service_tier" = .ok tier →
      g (recordedWith ts key values turn (tier.map Json.canon) epoch (knowns turn)) =
        recordedWith ts key values turn (tier.map Json.canon) epoch new) :
    Py.Relates (Ahead turn knowns new g) (recordTokenUsage format event payload ts)
      (recordTokenUsage format event payload ts) := by
  obtain ⟨id, hid, hhashed⟩ := hturn
  have hturn' : (do (← payload.getD "turn_id" (.str [])).hashed : Except PyError Json) = .ok turn := by
    rw [hid]
    exact hhashed
  unfold recordTokenUsage
  rw [hturn']
  refine .ofExcept_bind fun turn' hturn' => ?_
  obtain rfl := Except.ok.inj hturn'
  refine .read_bind fun s t h => ?_
  -- `s` finds what was known, `t` what the context gave.
  have hs : s.known turn = knowns turn := congrFun h.known turn
  have ht : t.known turn = new := by
    rw [← known_rest, h.rest, known_rest, known_explain, if_pos rfl]
  have hcontext (x : Session) : (x.contexts.get? turn).getD (.str [], unknownText) =
      ((x.known turn).model, (x.known turn).effort) := rfl
  have htier (x : Session) : (x.tierContexts.get? turn).getD (.str unknownText) =
      (x.known turn).tier := rfl
  have hevidence (x : Session) : (x.tierEvidence.get? turn).getD none = (x.known turn).evidence := rfl
  rw [hcontext, hcontext, htier, htier, hevidence, hevidence, hs, ht]
  dsimp only
  have hkeys : t.eventKey format "record:" event = s.eventKey format "record:" event := by
    unfold eventKey
    rw [h.keys hg]
  rw [hkeys]
  refine .ofExcept_bind fun responseId _ => .ofExcept_bind fun key _ =>
    .ofExcept_bind fun usage _ => .ofExcept_bind fun tier htier => ?_
  refine Py.Relates.bind ?_ fun _ => .ofExcept_bind fun threadUsage _ => .read_bind fun s t h => ?_
  · refine .ofExcept_bind fun key' hkey => ?_
    intro s t h
    by_cases hmem : key' ∈ s.keys
    · have hmem' : key' ∈ t.keys := by rwa [h.keys hg]
      simp only [bind, EStateM.bind, Py.get_run, hmem, hmem', if_true]
      exact ⟨trivial, h⟩
    · have hmem' : key' ∉ t.keys := by rwa [h.keys hg]
      simp only [bind, EStateM.bind, Py.get_run, hmem, hmem', if_false]
      cases usageValues (usage.orElse (.obj [])) with
      | error e => exact ⟨rfl, h⟩
      | ok values =>
        have hepoch := h.field (·.compactionEpoch) fun _ => ⟨rfl, rfl⟩
        simp only [Py.ofExcept, pure, EStateM.pure, hepoch]
        have hr := hrecorded tier key' values s.compactionEpoch htier
        rw [recordedWith, recordedWith, Option.isSome_map] at hr
        have hts (tier : Json) (source : Source) (k : Known) :
            (recorded ts key' values turn tier source s.compactionEpoch k).ts = ts := by
          unfold recorded
          cases k.evidence <;> rfl
        have hfresh (tier : Json) (source : Source) :
            (recorded ts key' values turn tier source s.compactionEpoch (knowns turn)).key ∉ s.keys := by
          have hkey := congrArg Prod.fst
            (recorded_identity ts key' values turn tier source s.compactionEpoch (knowns turn))
          rwa [show (recorded ts key' values turn tier source s.compactionEpoch (knowns turn)).key =
            key' from hkey]
        exact ⟨trivial, h.recordUsage hg hr ((hts ..).trans (hts ..).symm) (hfresh _ _)⟩
  · rw [h.field (·.reportedTs) fun _ => ⟨rfl, rfl⟩]
    split
    · exact .ofExcept_bind fun values _ => .modify fun s t h =>
        h.update (f := fun s => { s with reportedUsage := some values, reportedTs := ts })
          (fun _ => ⟨rfl, rfl⟩) fun _ => ⟨rfl, rfl, rfl⟩
    · exact .pure ()

theorem cover_explain (previous : ℚ × Option Nat) (s : Session) (turn : Json) (new : Known) :
    cover previous (s.explain turn new) = (cover previous s).explain turn new := by
  have hreport : (s.explain turn new).currentReport = s.currentReport := rfl
  have hlast : (s.explain turn new).coverageLast = s.coverageLast := rfl
  unfold cover
  rw [hreport]
  rcases s.currentReport with ⟨ts, _ | total⟩
  · rfl
  · dsimp only
    rw [hlast]
    split
    · rfl
    · cases s.coverageLast with
      | none => rfl
      | some last =>
        have htotal : (s.explain turn new).coverageTotal = s.coverageTotal := rfl
        dsimp only
        rw [htotal]
        by_cases hlast : last.2 < (total : Int) - s.coverageTotal
        · rw [if_pos hlast, if_pos hlast]
          rfl
        · rw [if_neg hlast, if_neg hlast]
          rfl

theorem rest_cover_congr {previous : ℚ × Option Nat} {s t : Session} (h : s.rest = t.rest)
    (htotal : s.coverageTotal = t.coverageTotal) :
    (cover previous s).rest = (cover previous t).rest := by
  rw [rest_cover, h, htotal, ← rest_cover]

theorem Known.completeTurn_turn (k : Known) (turn : Json) (includeTier : Bool) (r : Request) :
    (k.completeTurn turn includeTier r).turn = r.turn :=
  congrArg (·.2.2) (k.completeTurn_identity turn includeTier r)

theorem Fits.settled {s s' : Session} (hfits : Fits (s.known turn) new)
    (hknown : s'.known = s.known) (pending : Option (Json × ℚ × Json)) (r : Request) :
    new.completeTurn turn true (settled pending s' r) =
      settled pending (s.explain turn new) (new.completeTurn turn true r) := by
  cases pending with
  | none => rfl
  | some context =>
    show new.completeTurn turn true ((s'.known context.1).completeTurn context.1 true r) =
      ((s.explain turn new).known context.1).completeTurn context.1 true (new.completeTurn turn true r)
    rw [hknown, known_explain]
    by_cases hturn : context.1 = turn
    · rw [if_pos hturn, hturn]
      -- The turn itself was pending: it is completed from the context in the end.
      by_cases hr : turn.truthy ∧ r.turn = turn
      · have hold (k : Known) : k.completeTurn turn true r = k.complete true r := if_pos hr
        have hnew (k : Known) : new.completeTurn turn true (k.complete true r) =
            new.complete true (k.complete true r) := by
          refine if_pos ⟨hr.1, ?_⟩
          rw [← hold, Known.completeTurn_turn]
          exact hr.2
        rw [hold, hold, hnew, hnew, hfits.complete, (Fits.refl new).complete]
      · have hold (k : Known) : k.completeTurn turn true r = r := if_neg hr
        rw [hold, hold, hold]
    · rw [if_neg hturn]
      by_cases hr : r.turn = turn
      · have hother (k : Known) (x : Request) (hx : x.turn = turn) :
            k.completeTurn context.1 true x = x :=
          if_neg fun h => hturn (h.2.symm.trans hx)
        rw [hother _ r hr, hother _ _ ((new.completeTurn_turn turn true r).trans hr)]
      · have hother (x : Request) (hx : x.turn = r.turn) : new.completeTurn turn true x = x :=
          if_neg fun h => hr (hx.symm.trans h.2)
        rw [hother r rfl, hother _ (Known.completeTurn_turn ..)]

theorem settled_recorded (turn : Json) (hevidence : new.evidence.isSome) (s : Session)
    (pending : Option (Json × ℚ × Json)) (ts : ℚ) (key : Json) (values : Usage) (epoch : Nat)
    (own : Option Json) :
    settled pending (s.explain turn new) (recordedWith ts key values turn own epoch new) =
      recordedWith ts key values turn own epoch new := by
  cases pending with
  | none => rfl
  | some context =>
    have hturn : (recordedWith ts key values turn own epoch new).turn = turn :=
      congrArg (·.2.2) (recorded_identity ..)
    show ((s.explain turn new).known context.1).completeTurn context.1 true _ = _
    rw [known_explain]
    unfold Known.completeTurn
    rw [hturn]
    by_cases h : context.1.truthy ∧ turn = context.1
    · rw [if_pos h, if_pos h.2.symm]
      exact (Fits.refl new).complete_recorded _ _ _ _ _ (fun _ => rfl) hevidence
    · rw [if_neg h]

theorem settled_congr {s t : Session} (h : s.known = t.known) (pending : Option (Json × ℚ × Json)) :
    settled pending s = settled pending t := by
  unfold settled
  rw [h]

theorem context_cover (previous : ℚ × Option Nat) (s : Session) :
    (cover previous s).known = s.known ∧
      (cover previous s).pendingTierContext = s.pendingTierContext := by
  unfold cover
  split
  · split
    · exact ⟨rfl, rfl⟩
    · dsimp only
      split
      · exact ⟨rfl, rfl⟩
      · split <;> exact ⟨rfl, rfl⟩
  · exact ⟨rfl, rfl⟩

theorem Books.coverage_settle {s : Session} (hs : s.Books) (pending : Option (Json × ℚ × Json)) :
    (s.settle pending).coverageTotal = s.coverageTotal := by
  rw [(hs.settle pending).coverage_eq, hs.coverage_eq, hs.stored_settle, List.map_map]
  congr 1
  exact List.map_congr_left fun r _ => congrArg (·.2.1.getD 0) (settled_identity pending s r)

/-- **One record and the context change places.** -/
theorem swap {thread : PyStr} {context record : Json}
    (hevidence : new.evidence.isSome) (htruthy : turn.truthy)
    (hcontext : ∀ t, consume stamp format context t = .ok () (t.afterContext turn new))
    (hrecord : IsRecordOf thread turn record) {s s' : Session} (hs : s.Books) (hid : s.id = thread)
    (hfits : Fits (s.known turn) new)
    (hown : (∃ value tier, record.getNone "payload" = .ok value ∧
      (value.orElse (.obj [])).get "service_tier" = .ok (some tier)) →
        (s.known turn).evidence = new.evidence)
    (hok : consume stamp format record s = .ok () s') :
    Alike (afterEvent stamp format (afterEvent stamp format s context) record)
        (afterEvent stamp format (afterEvent stamp format s record) context) ∧
      (afterEvent stamp format s record).known = s.known := by
  obtain ⟨value, ts, hpayload, hturn, hconsume⟩ := consume_record stamp format hrecord
  have hafter (t : Session) : afterEvent stamp format t context = t.afterContext turn new := by
    unfold afterEvent Py.final
    rw [hcontext]
  generalize hpending : s.pendingTierContext = pending
  generalize hs₁ : ({ s with pendingTierContext := none } : Session) = s₁
  have hbooks₁ : s₁.Books := hs₁ ▸ books_of_accounts rfl hs
  have hknown₁ : s₁.known = s.known := hs₁ ▸ rfl
  have hbooksExplained : (s₁.explain turn new).Books := books_of_accounts rfl hbooks₁
  -- The session that has read the context.
  generalize he : ((s₁.explain turn new).resolveTurn turn true).settle pending = e
  have hearly : afterEvent stamp format s context = e := by rw [hafter, afterContext, hpending, hs₁, he]
  have heBooks : e.Books := he ▸ (hbooksExplained.resolveTurn turn true).settle pending
  have heRest : e.rest = (s₁.explain turn new).rest := by
    rw [← he, rest_settle, rest_resolveTurn]
  have hePending : e.pendingTierContext = none := by
    rw [show e.pendingTierContext = e.rest.pendingTierContext from rfl, heRest, ← hs₁]
    rfl
  have heReport : e.currentReport = s.currentReport := by
    rw [show e.currentReport = e.rest.currentReport from rfl, heRest, ← hs₁]
    rfl
  have heId : e.id = thread := by
    rw [show e.id = e.rest.id from rfl, heRest, ← hs₁, ← hid]
    rfl
  let g (r : Request) : Request := settled pending (s₁.explain turn new) (new.completeTurn turn true r)
  have hg (r : Request) : identity (g r) = identity r :=
    (settled_identity ..).trans (Known.completeTurn_identity ..)
  have heStored : e.stored = s₁.stored.map g := by
    have hresolved : ((s₁.explain turn new).resolveTurn turn true).known = (s₁.explain turn new).known := by
      funext x
      rw [← known_rest, rest_resolveTurn, known_rest]
    rw [← he, (hbooksExplained.resolveTurn turn true).stored_settle, settled_congr hresolved,
      hbooksExplained.stored_resolveTurn, List.map_map, known_explain, if_pos rfl]
    rfl
  have hahead : Ahead turn s.known new g s₁ { e with pendingTierContext := none } := by
    refine ⟨hbooks₁, books_of_accounts rfl heBooks, hknown₁, hs₁ ▸ rfl, heStored, ?_⟩
    rw [← heRest]
    exact congrArg (fun p => ({ e.rest with pendingTierContext := p } : Session)) hePending.symm
  have hrecorded (tier : Option Json) (key : Json) (values : Usage) (epoch : Nat)
      (htier : (value.orElse (.obj [])).get "service_tier" = .ok tier) :
      g (recordedWith ts key values turn (tier.map Json.canon) epoch (s.known turn)) =
        recordedWith ts key values turn (tier.map Json.canon) epoch new := by
    have hown' : (tier.map Json.canon).isSome → (s.known turn).evidence = new.evidence := by
      intro hsome
      obtain ⟨x, rfl⟩ := Option.isSome_iff_exists.mp ((Option.isSome_map ..).symm.trans hsome)
      exact hown ⟨value, x, hpayload, htier⟩
    have hcomplete := hfits.complete_recorded ts key values turn epoch hown' hevidence
    have hsettled := settled_recorded turn hevidence s₁ pending ts key values epoch
      (tier.map Json.canon)
    have hturn' : (recordedWith ts key values turn (tier.map Json.canon) epoch (s.known turn)).turn =
        turn := congrArg (·.2.2) (recorded_identity ..)
    show settled pending (s₁.explain turn new) (new.completeTurn turn true _) = _
    rw [Known.completeTurn, if_pos ⟨htruthy, hturn'⟩, hcomplete, hsettled]
  have hrelates := ahead_recordTokenUsage format hg record hturn hrecorded _ _
    (hahead.retract hg)
  rw [hearly]
  rw [hconsume s hid, hs₁] at hok
  cases hl : recordTokenUsage format record (value.orElse (.obj [])) ts
      { s₁.retract with modern := true } with
  | error error s'' =>
    rw [hl] at hok
    cases hok
  | ok u s'' =>
  rw [hl] at hrelates
  cases hr : recordTokenUsage format record (value.orElse (.obj [])) ts
      { ({ e with pendingTierContext := none } : Session).retract with modern := true } with
  | error error t'' =>
    rw [hr] at hrelates
    exact hrelates.elim
  | ok u' t'' =>
  rw [hr] at hrelates
  obtain ⟨-, hahead'⟩ := hrelates
  have hlate : afterEvent stamp format s record = cover s.currentReport (s''.settle pending) := by
    unfold afterEvent Py.final
    rw [hconsume s hid, hs₁, hl, hpending]
  have hboth : afterEvent stamp format e record = cover s.currentReport t'' := by
    unfold afterEvent Py.final
    rw [hconsume e heId, hr, heReport, hePending]
    rfl
  -- The session without the context, before it reads it.
  have hsettledKnown : (s''.settle pending).known = s.known := by
    rw [← hahead'.known]
    funext x
    rw [← known_rest, rest_settle, known_rest]
  have hlatePending : (cover s.currentReport (s''.settle pending)).pendingTierContext = none := by
    rw [(context_cover ..).2, show (s''.settle pending).pendingTierContext =
      (s''.settle pending).rest.pendingTierContext from rfl, rest_settle]
    exact hahead'.pending
  have hlateBooks : (cover s.currentReport (s''.settle pending)).Books :=
    books_of_accounts (accounts_cover ..) (hahead'.left.settle pending)
  have hlateRest : (cover s.currentReport (s''.settle pending)).rest =
      (cover s.currentReport s'').rest :=
    rest_cover_congr (rest_settle pending s'') (hahead'.left.coverage_settle pending)
  refine ⟨?_, by rw [hlate, (context_cover ..).1, hsettledKnown]⟩
  rw [hboth, hlate, hafter, afterContext, hlatePending]
  have hsame : ({ cover s.currentReport (s''.settle pending) with pendingTierContext := none } : Session) =
      cover s.currentReport (s''.settle pending) := by
    conv_lhs => rw [← hlatePending]
  rw [hsame]
  have hexplained : ((cover s.currentReport (s''.settle pending)).explain turn new).Books :=
    books_of_accounts rfl hlateBooks
  refine ⟨books_of_accounts (accounts_cover ..) hahead'.right, hexplained.resolveTurn turn true, ?_, ?_⟩
  · show (cover s.currentReport t'').stored =
      (((cover s.currentReport (s''.settle pending)).explain turn new).resolveTurn turn true).stored
    have hstored : ((cover s.currentReport (s''.settle pending)).explain turn new).stored =
        (s''.settle pending).stored :=
      (stored_of_accounts rfl).trans (stored_of_accounts (accounts_cover ..))
    rw [stored_of_accounts (accounts_cover ..), hahead'.stored, hexplained.stored_resolveTurn, hstored,
      hahead'.left.stored_settle, List.map_map, known_explain, if_pos rfl]
    refine List.map_congr_left fun r _ => ?_
    have hfits₁ : Fits (s₁.known turn) new := hknown₁ ▸ hfits
    exact (hfits₁.settled (hahead'.known.trans hknown₁.symm) pending r).symm
  · show (cover s.currentReport t'').rest =
      (((cover s.currentReport (s''.settle pending)).explain turn new).resolveTurn turn true).rest
    rw [rest_resolveTurn, rest_cover_congr hahead'.rest (hahead'.coverageTotal hg), cover_explain]
    show ((cover s.currentReport s'').rest.explain turn new).rest =
      ((cover s.currentReport (s''.settle pending)).rest.explain turn new).rest
    rw [hlateRest]

def HasTier (event : Json) : Prop :=
  ∃ value tier, event.getNone "payload" = .ok value ∧
    (value.orElse (.obj [])).get "service_tier" = .ok (some tier)

/-- The event is consumed without an exception. -/
def Consumed (s : Session) (event : Json) : Prop := ∃ s', consume stamp format event s = .ok () s'

theorem swap_records {thread : PyStr} {context : Json}
    (hevidence : new.evidence.isSome) (htruthy : turn.truthy)
    (hcontext : ∀ t, consume stamp format context t = .ok () (t.afterContext turn new))
    (records : List Json) {s : Session} (hs : s.Kept thread fun _ => True)
    (hrecords : ∀ record ∈ records, IsRecordOf thread turn record)
    (hconsumed : Along (afterEvent stamp format) (Consumed stamp format) s records)
    (hfits : Fits (s.known turn) new)
    (hown : ∀ record ∈ records, HasTier record → (s.known turn).evidence = new.evidence) :
    Alike (run (afterEvent stamp format) (afterEvent stamp format s context) records)
      (afterEvent stamp format (run (afterEvent stamp format) s records) context) := by
  induction records generalizing s with
  | nil =>
    have hbooks : (afterEvent stamp format s context).Books :=
      (hs.touched (fun _ _ => trivial) (moves_consume stamp format context s)).books
    exact hbooks.alike
  | cons record records ih =>
    obtain ⟨⟨s', hok⟩, hconsumed⟩ := hconsumed
    obtain ⟨halike, hknown⟩ := swap stamp format hevidence htruthy hcontext
      (hrecords record List.mem_cons_self) hs.books hs.owner hfits
      (hown record List.mem_cons_self) hok
    rw [run_cons, run_cons]
    refine (halike.run stamp format records).trans (ih ?_ ?_ hconsumed ?_ ?_)
    · exact hs.touched (fun _ _ => trivial) (moves_consume stamp format record s)
    · exact fun record h => hrecords record (List.mem_cons_of_mem _ h)
    · rw [hknown]
      exact hfits
    · rw [hknown]
      exact fun record h => hown record (List.mem_cons_of_mem _ h)

/-- **A late context is an early one.**  A context of a turn that is read after
records of the turn instead of before them leaves the same requests, whatever
comes before and after, if what the turn was known to have is what the context
gives or is missing and now given. -/
theorem late_context (s : Session) (hbooks : s.Books) (before records after : List Json)
    (context turn : Json) (hcontext : IsContext turn context)
    (hrecords : ∀ record ∈ records, IsRecordOf s.id turn record)
    (hread : Consumed stamp format (run (afterEvent stamp format) s before) context)
    (hrecorded : Along (afterEvent stamp format) (Consumed stamp format)
      (run (afterEvent stamp format) s before) records)
    (hfits : Fits ((run (afterEvent stamp format) s before).known turn)
      ((run (afterEvent stamp format) s (before ++ [context])).known turn))
    (hown : ∀ record ∈ records, HasTier record →
      ((run (afterEvent stamp format) s before).known turn).evidence =
        ((run (afterEvent stamp format) s (before ++ [context])).known turn).evidence) :
    (run (afterEvent stamp format) s (before ++ context :: (records ++ after))).stored =
      (run (afterEvent stamp format) s (before ++ records ++ context :: after)).stored := by
  have hkept : (run (afterEvent stamp format) s before).Kept s.id fun _ => True :=
    kept_run stamp format ⟨hbooks, rfl, fun _ _ _ _ => trivial⟩ fun _ _ _ _ => trivial
  obtain ⟨s', hok⟩ := hread
  obtain ⟨new, hevidence, hnew⟩ := consume_context stamp format hcontext hok
  have hknown : (run (afterEvent stamp format) s (before ++ [context])).known turn = new := by
    rw [run_append, run_cons, run_nil, afterEvent, Py.final, hnew, afterContext, ← known_rest, rest_settle,
      rest_resolveTurn, known_rest, known_explain, if_pos rfl]
  have htruthy : turn.truthy := by
    obtain ⟨-, value, -, -, ⟨id, -, hid, hhashed⟩, -⟩ := hcontext
    rw [truthy_hashed hhashed]
    exact hid
  rw [hknown] at hfits hown
  have halike := (swap_records stamp format hevidence htruthy hnew records hkept hrecords hrecorded
    hfits hown).run stamp format after
  rw [run_append, run_cons, run_append, run_append, run_append, run_cons]
  exact halike.stored

end

/-- A context and a record of a turn, as the log writes them. -/
def contextEvent (turn model tier : String) : Json :=
  logged "turn_context" [("turn_id", .str (py turn)), ("model", .str (py model)),
    ("effort", .str (py "high")), ("service_tier", .str (py tier))]

def recordEvent (turn responseId : String) : Json :=
  logged "token_usage_record" [("turn_id", .str (py turn)), ("response_id", .str (py responseId)),
    ("usage", .obj [("input_tokens", .int 3), ("output_tokens", .int 4)])]

theorem late_context_record :
    let after := run (afterEvent (fun _ => 0) fun _ => []) { id := py "thread", home := [] }
    (after [contextEvent "turn" "model" "priority", recordEvent "turn" "response"]).stored =
      (after [recordEvent "turn" "response", contextEvent "turn" "model" "priority"]).stored :=
  late_context (fun _ => 0) (fun _ => []) { id := py "thread", home := [] }
    (Fresh.books ⟨rfl, rfl, rfl, rfl, rfl⟩) [] [recordEvent "turn" "response"] []
    (contextEvent "turn" "model" "priority") (.str (py "turn"))
    ⟨rfl, _, rfl, rfl, ⟨_, rfl, rfl, rfl⟩, _, rfl⟩
    (by
      intro record h
      rw [List.mem_singleton.mp h]
      exact ⟨⟨rfl, _, rfl, rfl, rfl⟩, _, rfl, _, rfl, rfl⟩)
    ⟨_, rfl⟩ ⟨⟨_, rfl⟩, trivial⟩
    ⟨.inr (by decide +kernel), .inr (by decide +kernel), .inr (by decide +kernel)⟩
    (by
      rintro record h ⟨value, tier, hpayload, htier⟩
      rw [List.mem_singleton.mp h] at hpayload
      obtain rfl := Except.ok.inj hpayload
      cases htier)

/-- A second context of a turn changes the model of the records after it, and
not that of the records before it. -/
theorem late_context_contradicts :
    let after := run (afterEvent (fun _ => 0) fun _ => []) { id := py "thread", home := [] }
    let first := contextEvent "turn" "first" "priority"
    let second := contextEvent "turn" "second" "priority"
    let record := recordEvent "turn" "response"
    (after [first, second, record]).stored.map (·.model) = [.str (py "second")] ∧
      (after [first, record, second]).stored.map (·.model) = [.str (py "first")] := by
  decide +kernel

end Codexon.Session
