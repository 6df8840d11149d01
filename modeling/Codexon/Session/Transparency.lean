import Codexon.Session.Bookkeeping
import Codexon.Session.View

/-!
# Codexon.Session.Transparency

When a cached view equals the view built from the state.

The cache holds the view of an earlier state of the session, with that state's
signature.  From the earlier state on, the context revision never falls and the
requests only grow until the legacy requests are retracted, so equal signatures
mean equal requests (`Follows`, `stored_of_signature`) — but for a retraction
that as many records make up for, the last with a key that begins with
`legacy:`.  What a view shows besides the requests is in the signature or
computed from it, except the turn records and the coverage fields.
-/

namespace Codexon

open List

namespace Session

/-! ## what the requests do over time -/

/-- `s` is a later state of the session `s₀`. -/
structure Follows (s₀ s : Session) : Prop where
  owner : s.owner = s₀.owner
  modern : s₀.modern → s.modern
  revision : s₀.contextRevision ≤ s.contextRevision
  length : s.modern = s₀.modern → s₀.requests.length ≤ s.requests.length
  stored : s.modern = s₀.modern → s.requests.length = s₀.requests.length →
    s.contextRevision = s₀.contextRevision → s.stored = s₀.stored

theorem Follows.refl (s : Session) : s.Follows s :=
  ⟨rfl, fun h => h, le_rfl, fun _ => le_rfl, fun _ _ _ => rfl⟩

variable {s s₀ : Session}

theorem Follows.trans {s' : Session} (h : s₀.Follows s) (h' : s.Follows s') : s₀.Follows s' := by
  -- A session as modern as at the start was so in between.
  have hbetween (hmodern : s'.modern = s₀.modern) : s.modern = s₀.modern ∧ s'.modern = s.modern := by
    have h₁ := h.modern
    have h₂ := h'.modern
    cases hs₀ : s₀.modern <;> cases hs : s.modern <;> simp_all
  refine ⟨h'.owner.trans h.owner, fun hs => h'.modern (h.modern hs),
    h.revision.trans h'.revision, fun hmodern => ?_, fun hmodern hlength hrevision => ?_⟩
  · obtain ⟨h₁, h₂⟩ := hbetween hmodern
    exact (h.length h₁).trans (h'.length h₂)
  · obtain ⟨h₁, h₂⟩ := hbetween hmodern
    have hl := h.length h₁
    have hl' := h'.length h₂
    have hr := h.revision
    have hr' := h'.revision
    rw [h'.stored h₂ (by omega) (by omega), h.stored h₁ (by omega) (by omega)]

theorem follows_of_ledger {s' : Session} (h : s'.ledger = s.ledger) : s.Follows s' := by
  have hstored := stored_of_ledger h
  have hmodern := modern_of_ledger h
  simp only [ledger, Prod.mk.injEq] at h
  obtain ⟨howner, -, hrequests, -, -, -, -, hrevision⟩ := h
  exact ⟨howner, fun hs => hmodern.trans hs, hrevision.ge, fun _ => (congrArg _ hrequests).ge,
    fun _ _ _ => hstored⟩

/-! ## completing requests -/

theorem fill_unchanged {missing : Request → Bool} {f : Request → Request} {r : Request × Bool}
    (h : (fill missing f r).2 = false) : fill missing f r = r := by
  unfold fill at h ⊢
  split at h
  · cases h
  · next hmissing => rw [if_neg hmissing]

theorem complete_unchanged (model : Json) (effort : PyStr) (tier : Json)
    (evidence : Option Evidence) (includeTier : Bool) {r : Request}
    (h : (complete model effort tier evidence includeTier r).2 = false) :
    (complete model effort tier evidence includeTier r).1 = r := by
  unfold complete at h ⊢
  dsimp only at h ⊢
  have h₁ := fill_unchanged h
  rw [h₁] at h ⊢
  have h₂ := fill_unchanged h
  rw [h₂] at h ⊢
  rw [fill_unchanged h]

theorem foldl_resolveRequest_revision {f : Request → Request × Bool} (turn : Json)
    (hf : ∀ r, (f r).2 = false → (f r).1 = r) (pending : List Nat) (s : Session) :
    s.contextRevision ≤ (pending.foldl (resolveRequest f turn) s).contextRevision ∧
      (pending.foldl (resolveRequest f turn) s).requests = s.requests ∧
      ((pending.foldl (resolveRequest f turn) s).contextRevision = s.contextRevision →
        (pending.foldl (resolveRequest f turn) s).request = s.request) := by
  induction pending generalizing s with
  | nil => exact ⟨le_rfl, rfl, fun _ => rfl⟩
  | cons ref rest ih =>
    obtain ⟨hle, hrequests, hsame⟩ := ih (resolveRequest f turn s ref)
    have hobjects : (resolveRequest f turn s ref).objects =
        s.objects.set ref (f (s.request ref)).1 := by
      unfold resolveRequest leaveUnresolved; dsimp only; split <;> rfl
    have hrevision : (resolveRequest f turn s ref).contextRevision =
        if (f (s.request ref)).2 then s.contextRevision + 1 else s.contextRevision := by
      unfold resolveRequest leaveUnresolved; dsimp only; split <;> rfl
    have hstep : s.contextRevision ≤ (resolveRequest f turn s ref).contextRevision := by
      rw [hrevision]; split <;> omega
    refine ⟨hstep.trans hle, hrequests.trans ?_, fun heq => ?_⟩
    · unfold resolveRequest leaveUnresolved; dsimp only; split <;> rfl
    · rw [foldl_cons] at heq
      rw [foldl_cons, hsame (by omega)]
      have hflag : (f (s.request ref)).2 = false := by
        cases hflag : (f (s.request ref)).2 with
        | false => rfl
        | true => rw [hflag, if_pos rfl] at hrevision; omega
      funext x
      rw [request, hobjects, hf _ hflag]
      by_cases hlt : ref < s.objects.length
      · rw [request_set hlt]
        split
        · next h => rw [h]
        · rfl
      · rw [set_eq_of_length_le (by omega)]
        rfl

theorem follows_resolveTurn (s : Session) (turn : Json) (includeTier : Bool) :
    s.Follows (s.resolveTurn turn includeTier) := by
  have htouch : Touch .null s (s.resolveTurn turn includeTier) := .resolve turn includeTier
  have howner := owner_touch htouch
  obtain ⟨hrevision, hrequests, hsame⟩ := foldl_resolveRequest_revision turn
    (fun _ => complete_unchanged ((s.contexts.get? turn).getD (.str [], unknownText)).1
      ((s.contexts.get? turn).getD (.str [], unknownText)).2
      ((s.tierContexts.get? turn).getD (.str unknownText))
      ((s.tierEvidence.get? turn).getD none) includeTier)
    ((s.unresolvedContexts.get? turn).getD [])
    { s with unresolvedContexts := s.unresolvedContexts.erase turn }
  refine ⟨howner, fun hs => (modern_resolveTurn s turn includeTier).trans hs, hrevision,
    fun _ => (congrArg _ hrequests).ge, fun _ _ heq => ?_⟩
  rw [stored, stored]
  exact congrArg₂ List.map (hsame heq) hrequests

theorem follows_touch {event : Json} {s' : Session} (hs : s.Books) (h : Touch event s s') :
    s.Follows s' := by
  have howner := owner_touch h
  have hmodern := modern_touch h
  cases h with
  | quiet h => exact follows_of_ledger h
  | record r =>
    have hlength : (s.recordUsage r).requests.length = s.requests.length + 1 := by
      have := congrArg List.length (stored_recordUsage hs r)
      simpa [stored] using this
    have hrevision : (s.recordUsage r).contextRevision = s.contextRevision := by
      unfold recordUsage leaveUnresolved; split <;> rfl
    exact ⟨howner, hmodern, hrevision.ge, fun _ => by omega, fun _ h => by omega⟩
  | retract =>
    have hrevision : s.retract.contextRevision = s.contextRevision := by
      unfold retract; split <;> rfl
    -- A session that was modern already has nothing to retract.
    have hsame (hm : true = s.modern) : s.retract = s := by
      unfold retract; rw [← hm]; rfl
    exact ⟨howner, hmodern, hrevision.ge, fun hm => (congrArg (·.requests.length) (hsame hm)).ge,
      fun hm _ _ => (congrArg stored (hsame hm) : s.retract.stored = s.stored)⟩
  | resolve turn includeTier => exact follows_resolveTurn s turn includeTier

/-- Until the first record every request is a legacy one. -/
def Early (s : Session) : Prop := s.modern = false → ∀ r ∈ s.stored, r.legacy

theorem Early.touch {event : Json} {s' : Session} (hs : s.Books) (hearly : s.Early)
    (h : Touch event s s') : s'.Early := by
  cases h with
  | quiet h =>
    rw [Early, modern_of_ledger h, stored_of_ledger h]
    exact hearly
  | record r hkey hlegacy =>
    rw [Early, modern_recordUsage, stored_recordUsage hs]
    intro hmodern x hx
    rcases mem_append.mp hx with hx | hx
    · exact hearly hmodern x hx
    · obtain rfl := mem_singleton.mp hx
      exact hlegacy (by simp [hmodern])
  | retract => exact fun hmodern => absurd hmodern (by simp)
  | resolve turn includeTier =>
    rw [Early, modern_resolveTurn]
    intro hmodern x hx
    obtain ⟨y, hy, hkey⟩ := stored_resolveTurn_key hx
    rw [Request.legacy, ← hkey]
    exact hearly hmodern y hy

/-! ## what the signature determines -/

theorem eq_singleton_of_getLast? {α : Type} {xs : List α} {x : α} (hxs : xs.length ≤ 1)
    (h : xs.getLast? = some x) : xs = [x] := by
  cases xs with
  | nil => cases h
  | cons y ys =>
    obtain rfl : ys = [] := length_eq_zero_iff.mp (by simpa using hxs)
    exact congrArg (fun y => [y]) (Option.some.inj h)

theorem stored_of_signature (h : s₀.Follows s) (hearly : s₀.Early)
    (hsignature : s₀.signature = s.signature)
    (hlegacy : s.modern → 2 ≤ s.requests.length → ∀ r ∈ s.stored.getLast?, ¬ r.legacy) :
    s.stored = s₀.stored := by
  have hlength : s₀.requests.length = s.requests.length := congrArg Signature.requests hsignature
  have hlast : s₀.stored.getLast? = s.stored.getLast? := congrArg Signature.lastRequest hsignature
  by_cases hmodern : s.modern = s₀.modern
  · exact h.stored hmodern hlength.symm (congrArg Signature.contextRevision hsignature).symm
  · -- The legacy requests of the earlier state are gone since.
    obtain ⟨hs, hs₀⟩ : s.modern = true ∧ s₀.modern = false := by
      have := h.modern
      cases hs₀ : s₀.modern <;> cases hs : s.modern <;> simp_all
    have hsize : s₀.stored.length = s.stored.length := by simpa [stored] using hlength
    cases hr : s.stored.getLast? with
    | none =>
      rw [hr] at hlast
      rw [getLast?_eq_none_iff.mp hr, getLast?_eq_none_iff.mp hlast]
    | some r =>
      have hmem : r ∈ s₀.stored := mem_of_getLast? (hlast.trans hr)
      have hone : ¬ 2 ≤ s.requests.length := fun htwo =>
        hlegacy hs htwo r hr (hearly hs₀ r hmem)
      have hshort : s.stored.length ≤ 1 := by simp only [stored, length_map]; omega
      rw [eq_singleton_of_getLast? hshort hr,
        eq_singleton_of_getLast? (hsize.trans_le hshort) (hlast.trans hr)]

theorem history_of_signature (hsignature : s₀.signature = s.signature)
    (hstored : s.stored = s₀.stored) :
    s.history = s₀.history ∧ s.unclassified s.history = s₀.unclassified s₀.history := by
  have htransports : s₀.transports = s.transports := congrArg Signature.transports hsignature
  have hreported : s₀.reportedUsage = s.reportedUsage :=
    congrArg Signature.reportedUsage hsignature
  have hhistory : s.history = s₀.history := by unfold history; rw [hstored, htransports]
  refine ⟨hhistory, ?_⟩
  unfold unclassified
  rw [hhistory, hreported]

theorem compose_of_signature (hsignature : s₀.signature = s.signature)
    (hstored : s.stored = s₀.stored) (time now : ℚ) :
    s.compose now (some (s₀.compose time none)) = s.compose now none := by
  obtain ⟨hhistory, hunclassified⟩ := history_of_signature hsignature hstored
  simp only [compose, Option.map_some, Option.getD_some, Option.map_none, Option.getD_none]
  rw [← hunclassified, ← hhistory]

theorem find?_of_imp {α : Type} {p q : α → Bool} (himp : ∀ x, q x → p x) {xs : List α}
    (h : ∀ x, xs.find? p = some x → q x) : xs.find? q = xs.find? p := by
  induction xs with
  | nil => rfl
  | cons x xs ih =>
    cases hp : p x with
    | true =>
      have hq : q x := h x (find?_cons_of_pos hp)
      rw [find?_cons_of_pos hp, find?_cons_of_pos hq]
    | false =>
      have hq : q x = false := by
        cases hq : q x with
        | false => rfl
        | true => rw [himp x hq] at hp; cases hp
      have hp' : ¬ p x := by simp [hp]
      have hq' : ¬ q x := by simp [hq]
      rw [find?_cons_of_neg hp'] at h
      rw [find?_cons_of_neg hp', find?_cons_of_neg hq']
      exact ih h

theorem last_of_le (hstored : s.stored = s₀.stored) {time now : ℚ} (htime : time ≤ now)
    (hrecent : ∀ ts ∈ (s₀.last time).map (·.ts), PyFloat.sub now WINDOW ≤ ts) :
    s.last now = s₀.last time := by
  unfold last at hrecent ⊢
  rw [hstored]
  refine find?_of_imp (fun r hr => ?_) fun r hr => ?_
  · have hmono := PyFloat.sub_mono_left htime WINDOW
    simp only [decide_eq_true_eq] at hr ⊢
    exact hmono.trans hr
  · rw [hr] at hrecent
    simpa using hrecent r.ts rfl


/-- The fields of a view that the signature does not cover. -/
structure Uncovered where
  turnRecords : Dict Json TurnState
  coverageGaps : List CoverageGap
  coverageInitial : Int
  coverageAvailable : Bool
deriving DecidableEq


def uncovered (s : Session) : Uncovered :=
  ⟨s.turnRecords, s.coverageGaps, s.coverageInitial, s.coverageLast.isSome⟩

end Session

def View.uncovered (view : View) : Session.Uncovered :=
  ⟨view.turnRecords, view.coverageGaps, view.coverageInitial, view.coverageAvailable⟩

namespace Session

theorem refresh_of_signature {nextDay : ℚ → ℚ} {s₀ s : Session} (howner : s.owner = s₀.owner)
    (hsignature : s₀.signature = s.signature) (hstored : s.stored = s₀.stored) {time now : ℚ}
    (htime : time ≤ now) (huncovered : s.uncovered = s₀.uncovered)
    (hrecent : ∀ ts ∈ (s₀.last time).map (·.ts), PyFloat.sub now WINDOW ≤ ts) :
    (s₀.keepView nextDay time (s₀.compose time none)).refresh s now = s.compose now none := by
  obtain ⟨hhistory, hunclassified⟩ := history_of_signature hsignature hstored
  have hlast := last_of_le hstored htime hrecent
  simp only [signature, Signature.mk.injEq] at hsignature
  obtain ⟨-, -, -, -, hrunning, hactivity, hpending, htitle, hcwd, hmodel, hprovider, hstate,
    hlineage, htransports⟩ := hsignature
  simp only [uncovered, Uncovered.mk.injEq] at huncovered
  obtain ⟨hturns, hgaps, hinitial, havailable⟩ := huncovered
  obtain ⟨hid, hhome⟩ : s.id = s₀.id ∧ s.home = s₀.home := by simpa [owner] using howner
  have hwarning : s₀.warning = s.warning := by unfold warning; rw [htransports]
  have hstatus : (if s.running then s.runningStatus now else
      if s₀.running then s₀.runningStatus time else py "관찰 중") =
        if s.running then s.runningStatus now else py "관찰 중" := by
    rw [hrunning]
    split
    · rfl
    · rfl
  have hremaining : ((s₀.last time).map (·.ts)).map (remaining now) =
      (s.last now).map fun request => remaining now request.ts := by
    rw [hlast, Option.map_map]
    rfl
  simp only [ViewCache.refresh, keepView, compose, Option.map_none, Option.getD_none]
  rw [hremaining, hstatus, ← hunclassified, ← hhistory, hid, hhome, htitle, hmodel, hprovider, hcwd,
    hlineage, hrunning, hactivity, hstate, hturns, hwarning, hpending, hgaps, hinitial, havailable,
    htransports]

/-! ## runs -/

/-- What happens to a session between and at views. -/
inductive Action where
  | consume (event : Json)
  | observe (t : Transport)
  | describe (m : Metadata)
  | trim (now : ℚ)
  | view (now : ℚ)

section

variable (stamp : Json → ℚ) (format : Json → PyStr) (urlPath : PyStr → PyStr) (nextDay : ℚ → ℚ)

/-- A step of the session and its cache; the view is one with the cache. -/
def act (viewed : Viewed) : Action → Viewed
  | .consume event => { viewed with session := afterEvent stamp format viewed.session event }
  | .observe t => { viewed with session := viewed.session.observe urlPath t }
  | .describe m => { viewed with session := viewed.session.describe m }
  | .trim now => { viewed with session := viewed.session.trim now }
  | .view now => (viewed.view nextDay now true).2

def Transparent (viewed : Viewed) : Action → Prop
  | .view now => (viewed.view nextDay now true).1 = (viewed.view nextDay now false).1
  | _ => True

/-- The cached view may be used: when the signature is still that of the cache,
the last of several requests has no legacy key after a record, and when the
view has not expired either, the fields outside the signature are those of the
session and the request it calls recent is in the window. -/
def Usable (viewed : Viewed) : Action → Prop
  | .view now => ∀ cache ∈ viewed.cache, cache.viewSignature = viewed.session.signature →
      (viewed.session.modern → 2 ≤ viewed.session.requests.length →
        ∀ r ∈ viewed.session.stored.getLast?, ¬ r.legacy) ∧
      (cache.lasts now → cache.cachedView.uncovered = viewed.session.uncovered ∧
        ∀ ts ∈ cache.lastRecentTs, PyFloat.sub now WINDOW ≤ ts)
  | _ => True

instance (viewed : Viewed) : DecidablePred (Usable viewed)
  | .view _ => inferInstanceAs (Decidable (∀ cache ∈ viewed.cache, _ → _ ∧ (_ → _ ∧ _)))
  | .consume _ | .observe _ | .describe _ | .trim _ => inferInstanceAs (Decidable True)

/-- The cache holds the view of an earlier state. -/
structure Coherent (viewed : Viewed) : Prop where
  books : viewed.session.Books
  early : viewed.session.Early
  cache : ∀ cache ∈ viewed.cache, ∃ s₀ : Session, s₀.Early ∧ s₀.Follows viewed.session ∧
    ∃ time, cache = s₀.keepView nextDay time (s₀.compose time none)

variable {stamp format urlPath nextDay}

theorem Coherent.touched {viewed : Viewed} {event : Json} {s : Session}
    (h : Coherent nextDay viewed) (htouched : Touched event viewed.session s) :
    Coherent nextDay { viewed with session := s } := by
  induction htouched with
  | refl => exact h
  | tail _ htouch ih =>
    refine ⟨ih.books.touch htouch, ih.early.touch ih.books htouch, fun cache hcache => ?_⟩
    obtain ⟨s₀, hearly, hfollows, hcache⟩ := ih.cache cache hcache
    exact ⟨s₀, hearly, hfollows.trans (follows_touch ih.books htouch), hcache⟩

theorem Coherent.quiet {viewed : Viewed} {s : Session} (h : Coherent nextDay viewed)
    (hledger : s.ledger = viewed.session.ledger) : Coherent nextDay { viewed with session := s } :=
  h.touched (touched_quiet hledger : Touched .null _ _)

theorem Coherent.view {viewed : Viewed} {now : ℚ} (h : Coherent nextDay viewed)
    (husable : Usable viewed (.view now)) : Coherent nextDay (viewed.view nextDay now true).2 ∧
      Transparent nextDay viewed (.view now) := by
  have hfresh : (viewed.view nextDay now false).1 = viewed.session.compose now none := rfl
  -- A view composed anew is kept with the signature of the state.
  have hkeep : Coherent nextDay { viewed with
      cache := some (viewed.session.keepView nextDay now (viewed.session.compose now none)) } := by
    refine ⟨h.books, h.early, fun cache hcache => ?_⟩
    obtain rfl := Option.some.inj hcache
    exact ⟨_, h.early, .refl _, now, rfl⟩
  suffices hview : Coherent nextDay (viewed.view nextDay now true).2 ∧
      (viewed.view nextDay now true).1 = viewed.session.compose now none from
    ⟨hview.1, hview.2.trans hfresh.symm⟩
  unfold Viewed.view
  simp only [if_true]
  cases hsame : viewed.cache.filter fun cache => cache.viewSignature = viewed.session.signature with
  | none => exact ⟨hkeep, rfl⟩
  | some cache =>
    obtain ⟨hcache, hsignature⟩ := Option.filter_eq_some_iff.mp hsame
    obtain ⟨s₀, hearly, hfollows, time, heq⟩ := h.cache cache hcache
    replace hsignature : s₀.signature = viewed.session.signature := by
      simpa [heq, keepView] using hsignature
    obtain ⟨hlegacy, hlasts⟩ := husable _ hcache (by rw [heq]; exact hsignature)
    have hstored := stored_of_signature hfollows hearly hsignature hlegacy
    by_cases hl : cache.lasts now
    · obtain ⟨huncovered, hrecent⟩ := hlasts hl
      have htime : time ≤ now := by
        have := (Bool.and_eq_true_iff.mp hl).1
        simpa [heq, keepView] using this
      simp only [Option.filter, hl, if_true]
      refine ⟨h, ?_⟩
      rw [heq] at huncovered hrecent ⊢
      exact refresh_of_signature hfollows.owner hsignature hstored htime huncovered.symm hrecent
    · -- Same but expired: only the history is taken from the cache.
      have hcomposed : viewed.session.compose now (some cache.cachedView) =
          viewed.session.compose now none := by
        rw [heq]
        exact compose_of_signature hsignature hstored time now
      simp only [Option.filter, hl, Option.map_some, hcomposed]
      exact ⟨hkeep, rfl⟩

variable (stamp format urlPath nextDay)

/-- **The cached view is transparent**: in every run whose views find the cache
usable, each view with the cache is the view without it. -/
theorem view_transparent (s : Session) (hfresh : s.Fresh) (actions : List Action)
    (husable : Along (act stamp format urlPath nextDay) Usable { session := s } actions) :
    Along (act stamp format urlPath nextDay) (Transparent nextDay) { session := s } actions := by
  have hstart : Coherent nextDay { session := s } := by
    refine ⟨hfresh.books, fun _ r hr => ?_, fun cache hcache => by cases hcache⟩
    rw [stored, hfresh.1] at hr
    cases hr
  refine along_of_inv (I := Coherent nextDay) (fun viewed action h hu => ?_) hstart husable
  cases action with
  | consume event => exact ⟨h.touched (moves_consume stamp format event viewed.session), trivial⟩
  | observe t => exact ⟨h.quiet rfl, trivial⟩
  | describe m => exact ⟨h.quiet rfl, trivial⟩
  | trim now => exact ⟨h.quiet rfl, trivial⟩
  | view now => exact h.view hu

end

def turnEvent (type turn : String) : Json :=
  .obj [("timestamp", .str (py "2026-01-01T12:00:00Z")), ("type", .str (py "event_msg")),
    ("payload", .obj [("type", .str (py type)), ("turn_id", .str (py turn))])]

instance (nextDay : ℚ → ℚ) (viewed : Viewed) : DecidablePred (Transparent nextDay viewed)
  | .view _ => inferInstanceAs (Decidable (_ = _))
  | .consume _ | .observe _ | .describe _ | .trim _ => inferInstanceAs (Decidable True)

/-- The session acts with every event at noon, in a place where days end at midnight UTC. -/
def actAtNoon : Viewed → Action → Viewed :=
  act (fun _ => 1767268800) (fun _ => []) (fun url => url) fun _ => 1767312000

theorem view_transparent_task :
    let actions : List Action := [.consume (turnEvent "task_started" "A"), .view 1767268801,
      .view 1767268802, .consume (turnEvent "task_complete" "A"), .view 1767268803]
    Along actAtNoon Usable { session := { id := py "thread", home := [] } } actions ∧
      Along actAtNoon (Transparent fun _ => 1767312000)
        { session := { id := py "thread", home := [] } } actions := by
  have husable : Along actAtNoon Usable { session := { id := py "thread", home := [] } }
      [.consume (turnEvent "task_started" "A"), .view 1767268801, .view 1767268802,
        .consume (turnEvent "task_complete" "A"), .view 1767268803] := by
    decide +kernel
  exact ⟨husable, view_transparent _ _ _ _ _ ⟨rfl, rfl, rfl, rfl, rfl⟩ _ husable⟩

/-- **A stale view**: two tasks started at the time of the current one, the
second of them the current one again, leave the signature as it was, and the
turn record of the first is missing from the cached view. -/
theorem view_stale :
    ¬ Along actAtNoon (Transparent fun _ => 1767312000)
      { session := { id := py "thread", home := [] } }
      [.consume (turnEvent "task_started" "A"), .view 1767268801,
        .consume (turnEvent "task_started" "B"), .consume (turnEvent "task_started" "A"),
        .view 1767268802] := by
  decide +kernel

end Session

end Codexon
