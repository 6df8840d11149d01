import Codexon.Run
import Codexon.Session.Steps

/-!
# Codexon.Session.Bookkeeping

The redundant records a session keeps about its requests — the key set, the
coverage total and the unresolved lists of each turn — agree after every
sequence of events, also when an event raises halfway.

`Ledger` states the agreement over the parts it concerns, so that statements
about other fields keep it trivially.  Adding a usage, retracting the legacy
requests and completing one pending request each keep it; `resolve_context` is
an induction over the pending list with the rest of the list held aside.
-/

namespace Codexon.Session

open List

/-! ## the ledger -/

/-- The references under a turn of `unresolved_contexts`. -/
def listed (s : Session) (turn : Json) : List Nat := (s.unresolvedContexts.get? turn).getD []

/-- The redundant records agree: `request` and `size` describe the objects,
`listed` the unresolved references. -/
structure Ledger (request : Nat → Request) (size : Nat) (requests : List Nat) (keys : List Json)
    (total : Nat) (listed : Json → List Nat) : Prop where
  valid : ∀ ref ∈ requests, ref < size
  distinct : requests.Nodup
  keySet : keys = requests.map fun ref => (request ref).key
  once : (requests.map fun ref => (request ref).key).Nodup
  coverage : total = (requests.map fun ref => (request ref).total.getD 0).sum
  unresolved : ∀ turn ref, ref ∈ listed turn ↔
    turn.truthy ∧ ref ∈ requests ∧ (request ref).turn = turn ∧ (request ref).lacks
  unresolvedOnce : ∀ turn, (listed turn).Nodup

def BooksAside (turn : Json) (aside : List Nat) (s : Session) : Prop :=
  Ledger s.request s.objects.length s.requests s.keys s.coverageTotal
    fun t => s.listed t ++ if t = turn then aside else []

def Books (s : Session) : Prop :=
  Ledger s.request s.objects.length s.requests s.keys s.coverageTotal s.listed

theorem books_iff_aside (turn : Json) (s : Session) : s.Books ↔ s.BooksAside turn [] := by
  simp [Books, BooksAside]

theorem Ledger.eq_of_key_eq {request : Nat → Request} {size : Nat} {requests : List Nat}
    {keys : List Json} {total : Nat} {listed : Json → List Nat}
    (h : Ledger request size requests keys total listed) {a b : Nat} (ha : a ∈ requests)
    (hb : b ∈ requests) (hkey : (request a).key = (request b).key) : a = b :=
  inj_on_of_nodup_map h.once ha hb hkey

/-! ## references -/

variable {s : Session}

theorem request_append {r : Request} {ref : Nat} (h : ref < s.objects.length) :
    (s.objects ++ [r]).getD ref default = s.request ref := by
  simp [request, List.getD, List.getElem?_append_left h]

theorem listed_leaveUnresolved (s : Session) (turn : Json) (ref : Nat) (t : Json) :
    (s.leaveUnresolved turn ref).listed t = s.listed t ++ if t = turn then [ref] else [] := by
  simp only [listed, leaveUnresolved, Dict.get?_set]
  by_cases h : t = turn <;> simp [h]

/-! ## adding a usage -/

theorem listed_recordUsage (s : Session) (r : Request) (t : Json) :
    (s.recordUsage r).listed t =
      s.listed t ++ if r.turn.truthy ∧ r.lacks ∧ t = r.turn then [s.objects.length] else [] := by
  unfold recordUsage
  by_cases h : r.turn.truthy && r.lacks
  · have h' : r.turn.truthy ∧ r.lacks := by simpa using h
    simp only [h, if_true]
    refine (listed_leaveUnresolved _ _ _ t).trans ?_
    by_cases ht : t = r.turn <;> simp [h', ht, listed]
  · have h' : ¬ (r.turn.truthy ∧ r.lacks ∧ t = r.turn) := fun hh => h (by simp [hh.1, hh.2.1])
    simp [h, h', listed]

theorem Books.recordUsage (hs : s.Books) {r : Request} (hkey : r.key ∉ s.keys) :
    (s.recordUsage r).Books := by
  have hsize : (s.recordUsage r).objects = s.objects ++ [r] := by
    unfold Session.recordUsage leaveUnresolved; split <;> rfl
  have hrequests : (s.recordUsage r).requests = s.requests ++ [s.objects.length] := by
    unfold Session.recordUsage leaveUnresolved; split <;> rfl
  have hkeys : (s.recordUsage r).keys = s.keys ++ [r.key] := by
    unfold Session.recordUsage leaveUnresolved; split <;> rfl
  have htotal : (s.recordUsage r).coverageTotal = s.coverageTotal + r.total.getD 0 := by
    unfold Session.recordUsage leaveUnresolved; split <;> rfl
  have hold : ∀ ref ∈ s.requests, (s.recordUsage r).request ref = s.request ref := fun ref href =>
    (congrArg (·.getD ref default) hsize).trans (request_append (hs.valid ref href))
  have hnew : (s.recordUsage r).request s.objects.length = r := by
    simp [Session.request, hsize, List.getD]
  have hfresh : s.objects.length ∉ s.requests := fun h => lt_irrefl _ (hs.valid _ h)
  have hmap {β : Type} (f : Request → β) :
      (s.recordUsage r).requests.map (fun ref => f ((s.recordUsage r).request ref)) =
        (s.requests.map fun ref => f (s.request ref)) ++ [f r] := by
    rw [hrequests, map_append, map_singleton, hnew]
    congr 1
    exact map_congr_left fun ref href => by rw [hold ref href]
  constructor
  case valid =>
    rw [hrequests, hsize, length_append]
    intro ref href
    rcases mem_append.mp href with href | href
    · exact Nat.lt_add_right _ (hs.valid ref href)
    · simp [mem_singleton.mp href]
  case distinct =>
    rw [hrequests]
    exact hs.distinct.append (nodup_singleton _) (by simpa using hfresh)
  case keySet => rw [hmap (·.key), hkeys, hs.keySet]
  case once =>
    rw [hmap (·.key), ← hs.keySet]
    exact (hs.keySet ▸ hs.once).append (nodup_singleton _) (by simpa using hkey)
  case coverage => rw [hmap (·.total.getD 0), htotal, hs.coverage, sum_append, sum_singleton]
  case unresolved =>
    intro turn ref
    rw [listed_recordUsage, mem_append, hs.unresolved, hrequests, mem_append, mem_singleton]
    by_cases href : ref = s.objects.length
    · subst href
      simp only [hfresh, false_and, and_false, false_or, or_true, true_and, hnew]
      split
      · next h => simp [h]
      · next h => simp only [not_mem_nil, false_iff]; rintro ⟨h₁, rfl, h₂⟩; exact h ⟨h₁, h₂, rfl⟩
    · have hnot : ref ∉ (if r.turn.truthy ∧ r.lacks ∧ turn = r.turn then [s.objects.length]
          else []) := by split <;> simp [href]
      simp only [hnot, href, or_false]
      refine and_congr_right fun _ => and_congr_right fun hmem => ?_
      rw [hold ref hmem]
  case unresolvedOnce =>
    intro turn
    rw [listed_recordUsage]
    split
    · refine (hs.unresolvedOnce turn).append (nodup_singleton _) ?_
      simp only [disjoint_singleton]
      exact fun h => hfresh ((hs.unresolved turn _).mp h).2.1
    · simpa using hs.unresolvedOnce turn

/-! ## completing requests -/

def identity (r : Request) : Json × Option Nat × Json := (r.key, r.total, r.turn)

theorem fill_identity {missing : Request → Bool} {f : Request → Request}
    (hf : ∀ r, identity (f r) = identity r) (r : Request × Bool) :
    identity (fill missing f r).1 = identity r.1 := by
  unfold fill
  split
  · exact hf r.1
  · rfl

theorem complete_identity (model : Json) (effort : PyStr) (tier : Json)
    (evidence : Option Evidence) (includeTier : Bool) (r : Request) :
    identity (complete model effort tier evidence includeTier r).1 = identity r := by
  unfold complete
  rw [fill_identity, fill_identity, fill_identity]
  · exact fun r => rfl
  · exact fun r => rfl
  · exact fun r => by cases evidence <;> rfl

theorem request_set {r : Request} {ref : Nat} (href : ref < s.objects.length)
    (x : Nat) : (s.objects.set ref r).getD x default = if x = ref then r else s.request x := by
  by_cases h : x = ref
  · subst h; simp [List.getD, href]
  · simp [request, List.getD, List.getElem?_set_ne (Ne.symm h), h]

/-- One round of the loop: the reference leaves the list held aside, and
returns to the turn while its request still lacks something. -/
theorem BooksAside.resolveRequest {turn : Json} {ref : Nat} {rest : List Nat}
    {f : Request → Request × Bool} (hf : ∀ r, identity (f r).1 = identity r)
    (hs : s.BooksAside turn (ref :: rest)) :
    (Session.resolveRequest f turn s ref).BooksAside turn rest := by
  obtain ⟨htruthy, hmem, hturn, hlacks⟩ := (hs.unresolved turn ref).mp (by simp)
  have hlt := hs.valid ref hmem
  have honce : (s.listed turn ++ ref :: rest).Nodup := by simpa using hs.unresolvedOnce turn
  have hidentity := hf (s.request ref)
  generalize hr' : (f (s.request ref)).1 = r' at hidentity
  obtain ⟨hkey, htotal, hturn'⟩ : r'.key = (s.request ref).key ∧ r'.total = (s.request ref).total ∧
      r'.turn = (s.request ref).turn := by simpa [identity] using hidentity
  have hrequest (x : Nat) : (Session.resolveRequest f turn s ref).request x =
      if x = ref then r' else s.request x := by
    have hobjects : (Session.resolveRequest f turn s ref).objects = s.objects.set ref r' := by
      rw [← hr']; unfold Session.resolveRequest leaveUnresolved; dsimp only; split <;> rfl
    exact (congrArg (·.getD x default) hobjects).trans (request_set hlt x)
  have hrequests : (Session.resolveRequest f turn s ref).requests = s.requests := by
    unfold Session.resolveRequest leaveUnresolved; dsimp only; split <;> rfl
  have hsize : (Session.resolveRequest f turn s ref).objects.length = s.objects.length := by
    unfold Session.resolveRequest leaveUnresolved; dsimp only; split <;> simp
  have hkeys : (Session.resolveRequest f turn s ref).keys = s.keys := by
    unfold Session.resolveRequest leaveUnresolved; dsimp only; split <;> rfl
  have hcoverage : (Session.resolveRequest f turn s ref).coverageTotal = s.coverageTotal := by
    unfold Session.resolveRequest leaveUnresolved; dsimp only; split <;> rfl
  have hlisted (t : Json) : (Session.resolveRequest f turn s ref).listed t =
      s.listed t ++ if r'.lacks ∧ t = turn then [ref] else [] := by
    unfold Session.resolveRequest
    simp only [hr']
    split
    · next h => exact (listed_leaveUnresolved _ _ _ t).trans (by simp [h, listed])
    · next h => simp [h, listed]
  have hmap {β : Type} (g : Request → β) (hg : g r' = g (s.request ref)) :
      (s.requests.map fun x => g ((Session.resolveRequest f turn s ref).request x)) =
        s.requests.map fun x => g (s.request x) := by
    refine map_congr_left fun x _ => ?_
    rw [hrequest]
    split
    · next h => rw [h, hg]
    · rfl
  constructor
  case valid => rw [hrequests, hsize]; exact hs.valid
  case distinct => rw [hrequests]; exact hs.distinct
  case keySet => rw [hrequests, hkeys, hmap (·.key) hkey]; exact hs.keySet
  case once => rw [hrequests, hmap (·.key) hkey]; exact hs.once
  case coverage =>
    rw [hrequests, hcoverage, hmap (·.total.getD 0) (by rw [htotal])]
    exact hs.coverage
  case unresolved =>
    intro t x
    have hold := hs.unresolved t x
    rw [hlisted, hrequest, hrequests]
    have hnotin : ref ∉ s.listed turn ∧ ref ∉ rest := by
      rw [nodup_append, nodup_cons] at honce
      exact ⟨fun h => honce.2.2 ref h ref mem_cons_self rfl, honce.2.1.1⟩
    by_cases hx : x = ref
    · subst hx
      by_cases ht : t = turn
      · subst ht; simp [hnotin, htruthy, hmem, hturn', hturn]
      · have : turn ≠ t := Ne.symm ht
        simpa [ht, hturn', hturn, this] using hold
    · by_cases ht : t = turn <;> simpa [ht, hx] using hold
  case unresolvedOnce =>
    intro t
    rw [hlisted]
    by_cases ht : t = turn
    · subst ht
      by_cases hl : r'.lacks
      · simpa [hl] using honce
      · simpa [hl] using honce.sublist (List.Sublist.append_left (sublist_cons_self ref rest) _)
    · simpa [ht] using hs.unresolvedOnce t

theorem BooksAside.foldl_resolveRequest (turn : Json) {f : Request → Request × Bool}
    (hf : ∀ r, identity (f r).1 = identity r) {pending : List Nat} (hs : s.BooksAside turn pending)
    : (pending.foldl (Session.resolveRequest f turn) s).Books := by
  induction pending generalizing s with
  | nil => exact (books_iff_aside turn s).mpr hs
  | cons ref rest ih => exact ih (hs.resolveRequest hf)

theorem Books.resolveTurn (hs : s.Books) (turn : Json) (includeTier : Bool) :
    (s.resolveTurn turn includeTier).Books := by
  refine BooksAside.foldl_resolveRequest turn (complete_identity _ _ _ _ _) ?_
  -- Popping the turn holds its whole list aside.
  have hlisted (t : Json) : listed { s with
      unresolvedContexts := s.unresolvedContexts.erase turn } t ++
        (if t = turn then s.listed turn else []) = s.listed t := by
    simp only [listed, Dict.get?_erase]
    by_cases h : t = turn <;> simp [h]
  have hall : (fun t => listed { s with
      unresolvedContexts := s.unresolvedContexts.erase turn } t ++
        (if t = turn then s.listed turn else [])) = s.listed := funext hlisted
  unfold BooksAside
  rw [show (s.unresolvedContexts.get? turn).getD [] = s.listed turn from rfl, hall]
  exact hs

/-! ## retracting -/

theorem foldl_dedup {keys : List Json} (acc : List Json) (h : (acc ++ keys).Nodup) :
    keys.foldl (fun keys key => if key ∈ keys then keys else keys ++ [key]) acc = acc ++ keys := by
  induction keys generalizing acc with
  | nil => simp
  | cons key keys ih =>
    have hkey : key ∉ acc := fun hmem =>
      (nodup_append.mp h).2.2 key hmem key mem_cons_self rfl
    rw [foldl_cons, if_neg hkey, ih _ (by simpa using h)]
    simp

theorem Books.retract (hs : s.Books) : s.retract.Books := by
  unfold Session.retract
  split
  case isFalse => exact hs
  generalize hkept : s.requests.filter (fun ref => !(s.request ref).legacy) = kept
  have hsub : kept.Sublist s.requests := hkept ▸ filter_sublist
  have honce : (kept.map fun ref => (s.request ref).key).Nodup := hs.once.sublist (hsub.map _)
  have hkeys := foldl_dedup [] (by simpa using honce)
  rw [nil_append] at hkeys
  simp only [hkeys]
  -- A stored request stays exactly when its key does.
  have hmem {ref : Nat} (href : ref ∈ s.requests) :
      (s.request ref).key ∈ kept.map (fun ref => (s.request ref).key) ↔ ref ∈ kept := by
    refine ⟨fun h => ?_, fun h => List.mem_map.mpr ⟨ref, h, rfl⟩⟩
    obtain ⟨ref', href', hkey⟩ := List.mem_map.mp h
    rwa [hs.eq_of_key_eq (hsub.subset href') href hkey] at href'
  have hlisted (t : Json) : (((s.unresolvedContexts.restrict (fun refs => refs.filter fun ref =>
      (s.request ref).key ∈ kept.map fun ref => (s.request ref).key) (!·.isEmpty)).get? t).getD []) =
        (s.listed t).filter fun ref => (s.request ref).key ∈ kept.map fun ref => (s.request ref).key := by
    rw [Dict.get?_restrict, listed]
    cases s.unresolvedContexts.get? t with
    | none => rfl
    | some refs =>
      simp only [Option.map_some, Option.getD_some, Option.filter]
      split
      · rfl
      · next h => simpa using h
  exact
    { valid := fun ref href => hs.valid ref (hsub.subset href)
      distinct := hs.distinct.sublist hsub
      keySet := rfl
      once := honce
      coverage := rfl
      unresolved := fun t ref => by
        refine (iff_of_eq (congrArg (ref ∈ ·) (hlisted t))).trans ?_
        rw [List.mem_filter, hs.unresolved, decide_eq_true_eq]
        constructor
        · rintro ⟨⟨htruthy, href, hturn, hlacks⟩, hkey⟩
          exact ⟨htruthy, (hmem href).mp hkey, hturn, hlacks⟩
        · rintro ⟨htruthy, href, hturn, hlacks⟩
          exact ⟨⟨htruthy, hsub.subset href, hturn, hlacks⟩, (hmem (hsub.subset href)).mpr href⟩
      unresolvedOnce := fun t => by
        have hfilter := (hs.unresolvedOnce t).filter
          fun ref => (s.request ref).key ∈ kept.map fun ref => (s.request ref).key
        rw [← hlisted t] at hfilter
        exact hfilter }

theorem Books.touch {event : Json} {s' : Session} (hs : s.Books) (h : Touch event s s') :
    s'.Books := by
  cases h with
  | quiet h =>
    simp only [ledger, Prod.mk.injEq] at h
    obtain ⟨-, hobjects, hrequests, hkeys, htotal, hunresolved, -⟩ := h
    unfold Books
    rw [show s'.request = s.request by funext ref; simp only [request, hobjects],
      show s'.listed = s.listed by funext t; simp only [listed, hunresolved], hobjects, hrequests,
      hkeys, htotal]
    exact hs
  | record r hkey => exact hs.recordUsage hkey
  | retract => exact hs.retract
  | resolve turn includeTier => exact hs.resolveTurn turn includeTier

/-! ## legacy keys -/

theorem stored_recordUsage (hs : s.Books) (r : Request) :
    (s.recordUsage r).stored = s.stored ++ [r] := by
  have hsize : (s.recordUsage r).objects = s.objects ++ [r] := by
    unfold recordUsage leaveUnresolved; split <;> rfl
  have hrequests : (s.recordUsage r).requests = s.requests ++ [s.objects.length] := by
    unfold recordUsage leaveUnresolved; split <;> rfl
  rw [stored, hrequests, map_append, map_singleton]
  congr 1
  · exact map_congr_left fun ref href =>
      (congrArg (·.getD ref default) hsize).trans (request_append (hs.valid ref href))
  · simp [request, hsize, List.getD]

theorem identity_resolveRequest {f : Request → Request × Bool}
    (hf : ∀ r, identity (f r).1 = identity r) (turn : Json) (s : Session) (ref x : Nat) :
    identity ((resolveRequest f turn s ref).request x) = identity (s.request x) := by
  have hobjects : (resolveRequest f turn s ref).objects =
      s.objects.set ref (f (s.request ref)).1 := by
    unfold resolveRequest leaveUnresolved; dsimp only; split <;> rfl
  rw [request, hobjects]
  by_cases hlt : ref < s.objects.length
  · rw [request_set hlt]
    split
    · next h => rw [hf, h]
    · rfl
  · rw [set_eq_of_length_le (by omega)]
    rfl

theorem stored_resolveTurn (s : Session) (turn : Json) (includeTier : Bool) :
    (s.resolveTurn turn includeTier).stored.map identity = s.stored.map identity := by
  have hloop {f : Request → Request × Bool} (hf : ∀ r, identity (f r).1 = identity r)
      (pending : List Nat) (s : Session) :
      (pending.foldl (resolveRequest f turn) s).stored.map identity = s.stored.map identity := by
    induction pending generalizing s with
    | nil => rfl
    | cons ref rest ih =>
      rw [foldl_cons, ih, stored, stored, List.map_map, List.map_map]
      have hrequests : (resolveRequest f turn s ref).requests = s.requests := by
        unfold resolveRequest leaveUnresolved; dsimp only; split <;> rfl
      rw [hrequests]
      exact map_congr_left fun x _ => identity_resolveRequest hf turn s ref x
  exact hloop (complete_identity _ _ _ _ _) _ _

theorem stored_resolveTurn_key {turn : Json} {includeTier : Bool} {x : Request}
    (hx : x ∈ (s.resolveTurn turn includeTier).stored) : ∃ y ∈ s.stored, y.key = x.key := by
  have hmem := mem_map_of_mem (f := identity) hx
  rw [stored_resolveTurn] at hmem
  obtain ⟨y, hy, hidentity⟩ := List.mem_map.mp hmem
  exact ⟨y, hy, congrArg Prod.fst hidentity⟩

/-- In a modern session the legacy keys are `given`. -/
def Given (given : Json → Prop) (s : Session) : Prop :=
  s.modern → ∀ r ∈ s.stored, r.legacy → given r.key

theorem Given.touch {given : Json → Prop} {event : Json} {s' : Session} (hs : s.Books)
    (hgiven : s.Given given) (hevent : ∀ key, Gives event key → given key)
    (h : Touch event s s') : s'.Given given := by
  cases h with
  | quiet h =>
    rw [Given, modern_of_ledger h, stored_of_ledger h]
    exact hgiven
  | record r hkey hlegacy horigin =>
    rw [Given, modern_recordUsage, stored_recordUsage hs]
    intro hmodern x hx hxlegacy
    rcases mem_append.mp hx with hx | hx
    · exact hgiven hmodern x hx hxlegacy
    · obtain rfl := mem_singleton.mp hx
      exact hevent _ (horigin hmodern hxlegacy)
  | retract =>
    intro _ x hx hxlegacy
    replace hx : x ∈ s.retract.stored := hx
    unfold retract at hx
    split at hx
    · -- Every legacy request was just removed.
      obtain ⟨ref, href, rfl⟩ := List.mem_map.mp hx
      have hkept : (s.request ref).legacy = false := by
        simpa using (List.mem_filter.mp href).2
      exact absurd (hkept.symm.trans hxlegacy) (by decide)
    · next h =>
      by_cases hmodern : s.modern
      · exact hgiven hmodern x hx hxlegacy
      · exact absurd (any_eq_true.mpr ⟨x, hx, hxlegacy⟩) (by simpa [hmodern] using h)
  | resolve turn includeTier =>
    rw [Given, modern_resolveTurn]
    intro hmodern x hx hxlegacy
    obtain ⟨y, hy, hkey⟩ := stored_resolveTurn_key hx
    rw [← hkey]
    exact hgiven hmodern y hy (by rw [Request.legacy, hkey]; exact hxlegacy)

/-! ## runs -/

def Fresh (s : Session) : Prop :=
  s.requests = [] ∧ s.keys = [] ∧ s.coverageTotal = 0 ∧ s.unresolvedContexts = {} ∧
    s.modern = false

theorem Fresh.books (h : s.Fresh) : s.Books := by
  obtain ⟨hrequests, hkeys, htotal, hunresolved, -⟩ := h
  have hlisted (t : Json) : s.listed t = [] := by
    rw [listed, hunresolved]
    rfl
  exact
    { valid := by simp [hrequests]
      distinct := by simp [hrequests]
      keySet := by simp [hrequests, hkeys]
      once := by simp [hrequests]
      coverage := by simp [hrequests, htotal]
      unresolved := by simp [hlisted, hrequests]
      unresolvedOnce := by simp [hlisted] }

/-- What every run keeps: the agreeing records, the owner of the session, and
which keys of a modern session may be legacy ones. -/
structure Kept (thread : PyStr) (given : Json → Prop) (s : Session) : Prop where
  books : s.Books
  owner : s.id = thread
  given : s.Given given

theorem Kept.touched {thread : PyStr} {given : Json → Prop} {event : Json} {s' : Session}
    (hs : s.Kept thread given) (hevent : ∀ key, Gives event key → given key)
    (h : Touched event s s') : s'.Kept thread given := by
  induction h with
  | refl => exact hs
  | tail _ h ih =>
    exact ⟨ih.books.touch h, (id_touch h).trans ih.owner, ih.given.touch ih.books hevent h⟩

section

variable (stamp : Json → ℚ) (format : Json → PyStr)

/-- The session after an event, consumed completely or up to an exception. -/
def afterEvent (s : Session) (event : Json) : Session := (consume stamp format event).final s

variable {events : List Json}

theorem kept_run {thread : PyStr} {given : Json → Prop} {s : Session}
    (hs : s.Kept thread given) (hevents : ∀ event ∈ events, ∀ key, Gives event key → given key) :
    (run (afterEvent stamp format) s events).Kept thread given :=
  run_inv_along (P := fun _ event => ∀ key, Gives event key → given key)
    (fun s event h hevent => h.touched hevent (moves_consume stamp format event s)) hs
    (along_of_forall hevents)

end

/-- An event with a payload, as the log writes it. -/
def logged (type : String) (payload : List (PyStr × Json)) : Json :=
  .obj [("timestamp", .null), ("type", .str (py type)), ("payload", .obj payload)]

end Codexon.Session
