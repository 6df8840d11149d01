import Codexon.OverlaySummaries.Presenting

/-!
# Codexon.OverlaySummaries.Prepared

One call of `PreparedOverlays`: after `collect` at a generation every visible owner has
the content of that generation, whatever was kept (`Overlays.Sound`).
-/

namespace Codexon.OverlaySummaries

open Dict

variable {μ τ π ρ : Type} [Zero μ] [Add μ]

/-- What `prime` reads of an owner at a generation. -/
def contentAt (head : Head μ τ π ρ) (packets : Token → Owner → Option ρ) (compact finance : Bool)
    (token : Token) (key : Owner) : Except OverlayError (Summary μ τ × π) :=
  match packets token key with
  | none => .error .notReady
  | some packet => head compact finance packet

section prepared

variable (head : Head μ τ π ρ) (packets : Token → Owner → Option ρ) (compact finance : Bool)

def contentOf (key : Owner) (token : Token) : Option (Summary μ τ × π) :=
  (contentAt head packets compact finance token key).toOption

def shownIn (c : Call) (key : Owner) : Option (Shown μ τ π) :=
  shownOf finance compact (lineage c.visible)
    (fun member => contentOf head packets compact finance member c.token) key

variable {token : Token}

omit [Zero μ] [Add μ] in
theorem contentOf_eq_some {head : Head μ τ π ρ} {packets : Token → Owner → Option ρ}
    {compact finance : Bool} {key : Owner} {value : Summary μ τ × π} :
    contentOf head packets compact finance key token = some value ↔
      contentAt head packets compact finance token key = .ok value := by
  cases h : contentAt head packets compact finance token key <;>
    simp [contentOf, h, Except.toOption]

/-- What is kept of the owners.  `seen` is the last generation at which an owner was
primed or collected, `calls` are the `collect` calls so far. -/
structure Overlays.Sound (seen : Owner → Option Token) (calls : List Call)
    (s : Overlays μ τ π) : Prop where
  compact_eq : s.compact = compact
  finance_eq : s.finance = finance
  presenter : s.presenter.Sound (contentOf head packets compact finance)
  kept : ∀ key own, s.own.get? key = some own → own.stamp ≤ s.presenter.clock ∧
    ∃ part revision token, s.partials.get? key = some part ∧
      s.revisions.get? key = some revision ∧ seen key = some token ∧
      contentAt head packets compact finance revision key = .ok (own.summary, part) ∧
      contentAt head packets compact finance token key = .ok (own.summary, part)
  revised : ∀ key revision, s.revisions.get? key = some revision → (s.own.get? key).isSome
  same : ∀ key e own, s.presenter.cache.get? key = some e → s.own.get? key = some own →
    e.2.stamp = own.stamp → e.2 = own ∧ ∃ part, s.partials.get? key = some part ∧
      contentAt head packets compact finance e.1 key = .ok (own.summary, part)
  packed : ∀ key pr, s.presenter.presented.get? key = some pr →
    ∃ packet, s.summaries.get? key = some packet ∧ packet.shown = pr.summary.shown ∧
      packet.speed = pr.speed ∧ packet.complete = pr.complete
  detailed : ∀ key pr, s.presenter.presented.get? key = some pr →
    ∃ c ∈ calls, s.detailRevisions.get? key = some c.token ∧
      some pr.summary.shown = shownIn head packets compact finance c key
  revealed : ∀ key packet, s.summaries.get? key = some packet →
    ∃ c ∈ calls, packet.overlayRevision = c.token ∧
      some packet.shown = shownIn head packets compact finance c key

variable {head packets compact finance} {seen : Owner → Option Token} {calls : List Call}
  {s s' : Overlays μ τ π} {c : Call} {key : Owner}

theorem sound_init : Overlays.Sound head packets compact finance (fun _ => none) []
    ({ compact, finance } : Overlays μ τ π) where
  compact_eq := rfl
  finance_eq := rfl
  presenter := sound_empty
  kept _ _ h := nomatch h
  revised _ _ h := nomatch h
  same _ _ _ h := nomatch h
  packed _ _ h := nomatch h
  detailed _ _ h := nomatch h
  revealed _ _ h := nomatch h

/-! ## prime -/

section

variable (hs : s.Sound head packets compact finance seen calls)

include hs

theorem prime_new {packet : ρ} (hpacket : packets token key = some packet)
    (h : prime head s token key packet false = .ok s') :
    s'.Sound head packets compact finance (Function.update seen key (some token)) calls := by
  obtain ⟨hcompact, hfinance, hpresenter, hkept, hrevised, hsame, hpacked, hdetailed, hrevealed⟩ :=
    hs
  cases hhead : head s.compact s.finance packet with
  | error e => simp [prime, hhead, bind, Except.bind] at h
  | ok value =>
    obtain ⟨summary, part⟩ := value
    simp only [prime, hhead, bind, Except.bind, pure, Except.pure, Except.ok.injEq,
      Bool.false_eq_true, if_false] at h
    subst h
    have hcontent : contentAt head packets compact finance token key = .ok (summary, part) := by
      simp [contentAt, hpacket, ← hcompact, ← hfinance, hhead]
    refine ⟨hcompact, hfinance, hpresenter, fun other own hown => ?_, fun other revision h => ?_,
      fun other e own he hown hstamp => ?_, hpacked, hdetailed, hrevealed⟩
    · simp only [get?_set] at hown ⊢
      by_cases hother : other = key
      · grind
      · simpa [hother] using hkept other own (by simpa [hother] using hown)
    · simp only [get?_set] at h ⊢
      have := hrevised other revision
      grind
    · simp only [get?_set] at hown ⊢
      by_cases hother : other = key
      · have := hpresenter.cached other e he
        grind
      · simpa [hother] using hsame other e own he (by simpa [hother] using hown) hstamp

theorem keep_sound (hcontent : ∀ token', seen key = some token' →
      contentAt head packets compact finance token key =
        contentAt head packets compact finance token' key) :
    s.Sound head packets compact finance (Function.update seen key (some token)) calls := by
  refine { hs with kept := fun other own hown => ?_ }
  obtain ⟨hstamp, part, revision, token', hpart, hrevision, hseen, hold, hnew⟩ :=
    hs.kept other own hown
  by_cases hother : other = key
  · subst hother
    exact ⟨hstamp, part, revision, token, hpart, hrevision, by simp, hold,
      by rw [hcontent token' hseen, hnew]⟩
  · exact ⟨hstamp, part, revision, token', hpart, hrevision, by simp [hother, hseen], hold, hnew⟩

theorem prime_preserved
    {packet : ρ} (hown : (s.own.get? key).isSome) (hcontent : ∀ token', seen key = some token' →
      contentAt head packets compact finance token key =
        contentAt head packets compact finance token' key)
    (h : prime head s token key packet true = .ok s') :
    s'.Sound head packets compact finance (Function.update seen key (some token)) calls := by
  have hkeep := keep_sound hs hcontent
  simp only [prime, bind, Except.bind, pure, Except.pure, if_true, Except.ok.injEq] at h
  subst h
  refine { hkeep with kept := fun other own hother => ?_, revised := fun other revision h => ?_ }
  · obtain ⟨hstamp, part, revision, token', hpart, hrevision, hseen, hold, hnew⟩ :=
      hkeep.kept other own hother
    simp only [get?_set]
    by_cases heq : other = key
    · subst heq
      simp only [Function.update_self, Option.some.injEq] at hseen
      subst hseen
      exact ⟨hstamp, part, token, token, hpart, by simp, by simp, hnew, hnew⟩
    · exact ⟨hstamp, part, revision, token', hpart, by simpa [heq] using hrevision, hseen, hold,
        hnew⟩
  · simp only [get?_set] at h
    have := hs.revised other revision
    grind

end

/-! ## the loop of collect -/

def remaining (c : Call) (seen : Owner → Option Token) (key : Owner) : Option Token :=
  if (c.visible.get? key).isSome ∧ key ∉ c.removed then seen key else none

theorem forget_sound (hs : s.Sound head packets compact finance seen calls) (c : Call) :
    (forget s c).Sound head packets compact finance (remaining c seen) calls := by
  refine { hs with
    kept := fun key own h => ?_
    revised := fun key revision h => ?_
    same := fun key e own he h hstamp => ?_ }
  · simp only [forget, get?_build, Option.bind_eq_some_iff] at h ⊢
    obtain ⟨own', hown, h⟩ := h
    obtain ⟨hstamp, part, revision, token, hpart, hrevision, hseen, hold, hnew⟩ :=
      hs.kept key own' hown
    grind [remaining]
  · simp only [forget, get?_build, Option.bind_eq_some_iff] at h ⊢
    obtain ⟨revision', hrevision, h⟩ := h
    obtain ⟨own, hown⟩ := Option.isSome_iff_exists.mp (hs.revised key revision' hrevision)
    simp only [hown, Option.bind_some] at h ⊢
    grind
  · simp only [forget, get?_build, Option.bind_eq_some_iff] at h ⊢
    obtain ⟨own', hown, h⟩ := h
    have := hs.same key e own' he hown
    grind

/-- What the loop raises for an owner, by the generation alone. -/
def checkAt (head : Head μ τ π ρ) (packets : Token → Owner → Option ρ) (compact finance : Bool)
    (token : Token) (key : Owner) : Except OverlayError Unit :=
  (contentAt head packets compact finance token key).map fun _ => ()

omit [Zero μ] [Add μ] in
theorem own_prime {packet : ρ} {preserve : Bool}
    (h : prime head s token key packet preserve = .ok s') :
    (s'.own.get? key).isSome = (preserve = false ∨ (s.own.get? key).isSome) ∧
      ∀ other ≠ key, s'.own.get? other = s.own.get? other := by
  cases preserve with
  | true =>
    simp only [prime, bind, Except.bind, pure, Except.pure, if_true, Except.ok.injEq] at h
    subst h
    simp
  | false =>
    cases hhead : head s.compact s.finance packet with
    | error e => simp [prime, hhead, bind, Except.bind] at h
    | ok value =>
      simp only [prime, hhead, bind, Except.bind, pure, Except.pure, Except.ok.injEq,
        Bool.false_eq_true, if_false] at h
      subst h
      simp +contextual [get?_set]

/-- The contract of a call: a visible owner whose packet is not that of the last generation
at which it was seen is changed or removed. -/
def Covers (packets : Token → Owner → Option ρ) (seen : Owner → Option Token) (c : Call) : Prop :=
  ∀ key token, (c.visible.get? key).isSome → c.changes key = false → key ∉ c.removed →
    seen key = some token → packets c.token key = packets token key

omit [Zero μ] [Add μ] in
theorem contentAt_congr {token' : Token} (h : packets token key = packets token' key) :
    contentAt head packets compact finance token key =
      contentAt head packets compact finance token' key := by
  rw [contentAt, contentAt, h]

theorem primeOne_sound (hs : s.Sound head packets compact finance seen calls)
    (hcovers : c.changes key = false → ∀ token, seen key = some token →
      packets c.token key = packets token key) :
    match primeOne head (packets c.token) c s key with
    | .ok s' => s'.Sound head packets compact finance
          (Function.update seen key (some c.token)) calls ∧
        (s'.own.get? key).isSome ∧ (∀ other ≠ key, s'.own.get? other = s.own.get? other) ∧
        checkAt head packets compact finance c.token key = .ok ()
    | .error e => checkAt head packets compact finance c.token key = .error e := by
  rw [primeOne]
  split
  next s'' hone =>
    split at hone
    next hskip =>
      -- the owner is not changed and its summary is there
      obtain ⟨hchanges, hown⟩ := hskip
      simp only [Except.ok.injEq] at hone
      subst hone
      obtain ⟨own, hown'⟩ := Option.isSome_iff_exists.mp hown
      obtain ⟨-, part, -, token, -, -, hseen, -, hnew⟩ := hs.kept key own hown'
      have hcongr := hcovers (by simpa using hchanges)
      refine ⟨keep_sound hs fun token h => contentAt_congr (hcongr token h), hown,
        fun _ _ => rfl, ?_⟩
      rw [checkAt, contentAt_congr (hcongr token hseen), hnew]
      rfl
    next =>
      split at hone
      next hrevision =>
        -- it was primed at this generation
        simp only [Except.ok.injEq] at hone
        subst hone
        obtain ⟨own, hown⟩ := Option.isSome_iff_exists.mp (hs.revised key c.token hrevision)
        obtain ⟨-, part, revision, token, -, hrevision', hseen, hold, hnew⟩ := hs.kept key own hown
        rw [hrevision, Option.some.injEq] at hrevision'
        subst hrevision'
        refine ⟨keep_sound hs fun token' h => ?_, by simp [hown], fun _ _ => rfl, ?_⟩
        · rw [hseen, Option.some.injEq] at h
          rw [hold, ← h, hnew]
        · rw [checkAt, hold]
          rfl
      next =>
        cases hpacket : packets c.token key with
        | none => simp [hpacket] at hone
        | some packet =>
          simp only [hpacket] at hone
          obtain ⟨hown, hother⟩ := own_prime hone
          refine ⟨prime_new hs hpacket hone, by simp [hown], hother, ?_⟩
          cases hhead : head s.compact s.finance packet with
          | error e => simp [prime, hhead, bind, Except.bind] at hone
          | ok value =>
            simp [checkAt, contentAt, hpacket, ← hs.compact_eq, ← hs.finance_eq, hhead, Except.map]
  next e hone =>
    split at hone
    next => simp at hone
    next =>
      split at hone
      next => simp at hone
      next =>
        cases hpacket : packets c.token key with
        | none =>
          simp only [hpacket, Except.error.injEq] at hone
          simp [checkAt, contentAt, hpacket, Except.map, hone]
        | some packet =>
          simp only [hpacket] at hone
          cases hhead : head s.compact s.finance packet with
          | error e' =>
            simp only [prime, hhead, bind, Except.bind, Bool.false_eq_true, if_false,
              Except.error.injEq] at hone
            simp [checkAt, contentAt, hpacket, ← hs.compact_eq, ← hs.finance_eq, hhead,
              Except.map, hone]
          | ok value => simp [prime, hhead, bind, Except.bind, pure, Except.pure] at hone

theorem foldlM_primeOne {keys : List Owner} (hkeys : keys.Nodup)
    (hs : s.Sound head packets compact finance seen calls)
    (hcovers : ∀ key ∈ keys, c.changes key = false → ∀ token, seen key = some token →
      packets c.token key = packets token key) :
    match keys.foldlM (primeOne head (packets c.token) c) s with
    | .ok s' => s'.Sound head packets compact finance
          (fun key => if key ∈ keys then some c.token else seen key) calls ∧
        (∀ key ∈ keys, (s'.own.get? key).isSome) ∧
        (∀ key ∉ keys, s'.own.get? key = s.own.get? key) ∧
        forM keys (checkAt head packets compact finance c.token) = .ok ()
    | .error e => forM keys (checkAt head packets compact finance c.token) = .error e := by
  induction keys generalizing s seen with
  | nil => simpa [pure, Except.pure] using hs
  | cons key keys ih =>
    rw [List.nodup_cons] at hkeys
    have hone := primeOne_sound hs (hcovers key List.mem_cons_self)
    rw [List.foldlM_cons]
    simp only [List.forM_cons]
    cases hfirst : primeOne head (packets c.token) c s key with
    | error e =>
      rw [hfirst] at hone
      simp only [bind, Except.bind, hone]
    | ok s₁ =>
      rw [hfirst] at hone
      obtain ⟨hs₁, hown, hother, hcheck⟩ := hone
      have hrest := ih hkeys.2 hs₁ fun other hmem hchanges token hseen =>
        hcovers other (List.mem_cons_of_mem key hmem) hchanges token (by
          have hne : other ≠ key := fun h => hkeys.1 (h ▸ hmem)
          simpa [hne] using hseen)
      simp only [bind, Except.bind, hcheck] at hrest ⊢
      cases hfold : keys.foldlM (primeOne head (packets c.token) c) s₁ with
      | error e =>
        rw [hfold] at hrest
        exact hrest
      | ok s₂ =>
        rw [hfold] at hrest
        obtain ⟨hs₂, hpresent, hframe, hchecks⟩ := hrest
        have hseen : (fun other => if other ∈ keys then some c.token
            else Function.update seen key (some c.token) other) =
            fun other => if other ∈ key :: keys then some c.token else seen other := by
          funext other
          by_cases h : other = key <;> simp [h]
        refine ⟨hseen ▸ hs₂, fun other hmem => ?_, fun other hmem => ?_, hchecks⟩
        · rcases List.mem_cons.mp hmem with rfl | hmem
          · rw [hframe other hkeys.1]
            exact hown
          · exact hpresent other hmem
        · rw [List.mem_cons, not_or] at hmem
          rw [hframe other hmem.2, hother other hmem.1]

/-! ## after the loop -/

/-- What holds between the loop and `present`: the visible owners have the content of the
generation, and no others are left. -/
structure Loaded (head : Head μ τ π ρ) (packets : Token → Owner → Option ρ)
    (compact finance : Bool) (calls : List Call) (c : Call) (s : Overlays μ τ π) : Prop where
  sound : s.Sound head packets compact finance
    (fun key => if (c.visible.get? key).isSome then some c.token else none) calls
  present : ∀ key, (c.visible.get? key).isSome → (s.own.get? key).isSome

def updated (s : Overlays μ τ π) (c : Call) : Dict Owner (Token × Own μ τ) :=
  c.visible.build fun key _ => updatedOf s key

theorem updatedOf_spec (hs : s.Sound head packets compact finance seen calls) {own : Own μ τ}
    (hown : s.own.get? key = some own) :
    ∃ e part, updatedOf s key = some e ∧ e.2 = own ∧ s.partials.get? key = some part ∧
      contentAt head packets compact finance e.1 key = .ok (own.summary, part) := by
  obtain ⟨-, part, revision, token, hpart, hrevision, -, hold, -⟩ := hs.kept key own hown
  simp only [updatedOf, hown, hrevision]
  cases hprior : s.presenter.cache.get? key with
  | none => exact ⟨(revision, own), part, rfl, rfl, hpart, hold⟩
  | some prior =>
    by_cases hstamp : prior.2.stamp = own.stamp
    · obtain ⟨hsame, part', hpart', hcontent⟩ := hs.same key prior own hprior hown hstamp
      exact ⟨prior, part', by simp [hstamp], hsame, hpart', hcontent⟩
    · exact ⟨(revision, own), part, by simp [hstamp], rfl, hpart, hold⟩

section

variable (h : Loaded head packets compact finance calls c s)

include h

theorem get?_updated {e : Token × Own μ τ} (he : (updated s c).get? key = some e) :
    (c.visible.get? key).isSome ∧ s.own.get? key = some e.2 ∧
      ∃ part, s.partials.get? key = some part ∧
        contentAt head packets compact finance e.1 key = .ok (e.2.summary, part) ∧
        contentAt head packets compact finance c.token key = .ok (e.2.summary, part) := by
  rw [updated, get?_build, Option.bind_eq_some_iff] at he
  obtain ⟨session, hvisible, he⟩ := he
  have hvisible' : (c.visible.get? key).isSome := by simp [hvisible]
  obtain ⟨own, hown⟩ := Option.isSome_iff_exists.mp (h.present key hvisible')
  obtain ⟨e', part, hupdated, hsame, hpart, hcontent⟩ := updatedOf_spec h.sound hown
  obtain ⟨-, part', -, token, hpart', -, hseen, -, hnew⟩ := h.sound.kept key own hown
  rw [he, Option.some.injEq] at hupdated
  subst hupdated
  simp only [hvisible', if_true, Option.some.injEq] at hseen
  grind

theorem ready_of_loaded :
    Ready (contentOf head packets compact finance) s.presenter (updated s c) s.partials where
  named key e he := by
    obtain ⟨-, -, part, hpart, hcontent, -⟩ := get?_updated h he
    exact ⟨part, hpart, contentOf_eq_some.mpr hcontent⟩
  made key e he := by
    obtain ⟨-, hown, -⟩ := get?_updated h he
    exact (h.sound.kept key e.2 hown).1
  same key e e' he he' hstamp := by
    obtain ⟨-, hown, -⟩ := get?_updated h he
    exact (h.sound.same key e' e.2 he' hown hstamp).1

theorem keys_updated :
    (updated s c).keys = c.visible.keys := by
  rw [updated, keys_build, List.filter_eq_self]
  intro key hkey
  rw [mem_keys] at hkey
  obtain ⟨own, hown⟩ := Option.isSome_iff_exists.mp (h.present key hkey)
  obtain ⟨e, -, hupdated, -⟩ := updatedOf_spec h.sound hown
  obtain ⟨session, hsession⟩ := Option.isSome_iff_exists.mp hkey
  simp [hsession, hupdated]

theorem value_of_loaded (hkey : key ∈ c.visible.keys) :
    valueOf (updated s c) s.partials key = contentOf head packets compact finance key c.token := by
  rw [← keys_updated h, mem_keys, Option.isSome_iff_exists] at hkey
  obtain ⟨e, he⟩ := hkey
  obtain ⟨-, -, part, hpart, -, hcontent⟩ := get?_updated h he
  rw [contentOf_eq_some.mpr hcontent]
  simp [valueOf, he, hpart]

theorem detailOf_spec {pr : Presented μ τ π}
    (hpr : (presentPrepared s c).presenter.presented.get? key = some pr) :
    ∃ c' ∈ calls ++ [c], detailOf s c.token key pr = c'.token ∧
      some pr.summary.shown = shownIn head packets compact finance c' key := by
  have hready := ready_of_loaded h
  obtain ⟨e, hkey, hoffered, hsummary, -⟩ := presented_spec h.sound.presenter hready hpr
  have hvisible : key ∈ c.visible.keys := by
    rw [← keys_updated h, mem_keys, hkey]
    rfl
  have hnow : some pr.summary.shown = shownIn head packets compact finance c key := by
    rw [hsummary, shown_objectOf h.sound.presenter hready hkey hoffered, h.sound.compact_eq,
      h.sound.finance_eq]
    exact shownOf_congr (by simpa using hvisible) fun member hmember =>
      value_of_loaded h (by simpa using hmember)
  cases hprior : s.presenter.presented.get? key with
  | none => exact ⟨c, by simp, by simp [detailOf, hprior], hnow⟩
  | some prior =>
    obtain ⟨c', hc', hrevision, hshown⟩ := h.sound.detailed key prior hprior
    by_cases his : prior.summary.is pr.summary
    · have hsame : prior.summary = pr.summary := by
        rw [hsummary] at his ⊢
        exact eq_objectOf h.sound.presenter hready hkey hprior his
      exact ⟨c', by simp [hc'], by simp [detailOf, hprior, hrevision, his], hsame ▸ hshown⟩
    · exact ⟨c, by simp, by simp [detailOf, hprior, hrevision, his], hnow⟩

theorem packetOf_spec {pr : Presented μ τ π}
    (hpr : (presentPrepared s c).presenter.presented.get? key = some pr) :
    let packet := packetOf s c.token key pr
    (packet.shown = pr.summary.shown ∧ packet.speed = pr.speed ∧ packet.complete = pr.complete) ∧
      ∃ c' ∈ calls ++ [c], packet.overlayRevision = c'.token ∧
        some packet.shown = shownIn head packets compact finance c' key := by
  obtain ⟨e, hkey, -, -, -, -, hstamp⟩ :=
    presented_spec h.sound.presenter (ready_of_loaded h) hpr
  cases hprior : s.presenter.presented.get? key with
  | none => simpa [packetOf, hprior] using detailOf_spec h hpr
  | some prior =>
    obtain ⟨packet, hpacket, hshown, hspeed, hcomplete⟩ := h.sound.packed key prior hprior
    by_cases hsame : prior.stamp = pr.stamp
    · have heq : prior = pr := by
        have := (h.sound.presenter.shown key prior hprior).1
        grind
      obtain ⟨c', hc', hrevision, hrevealed⟩ := h.sound.revealed key packet hpacket
      simp only [packetOf, hprior, hpacket, hsame, if_true]
      exact ⟨heq ▸ ⟨hshown, hspeed, hcomplete⟩, c', by simp [hc'], hrevision, hrevealed⟩
    · simpa [packetOf, hprior, hpacket, hsame] using detailOf_spec h hpr

theorem sound_presentPrepared :
    (presentPrepared s c).Sound head packets compact finance
      (fun key => if (c.visible.get? key).isSome then some c.token else none) (calls ++ [c]) where
  compact_eq := h.sound.compact_eq
  finance_eq := h.sound.finance_eq
  presenter := present_sound h.sound.presenter (ready_of_loaded h)
  kept key own hown := ⟨Nat.le_succ_of_le (h.sound.kept key own hown).1,
    (h.sound.kept key own hown).2⟩
  revised := h.sound.revised
  same key e own he hown _ := by
    obtain ⟨-, hown', part, hpart, hcontent, -⟩ := get?_updated h he
    obtain rfl : e.2 = own := Option.some.inj (hown'.symm.trans hown)
    exact ⟨rfl, part, hpart, hcontent⟩
  packed key pr hpr := by
    refine ⟨packetOf s c.token key pr, ?_, (packetOf_spec h hpr).1⟩
    exact (get?_mapVal _ _ key).trans (by
      rw [show (present _ _ _ _ _ _ _ _).presented.get? key = some pr from hpr]
      rfl)
  detailed key pr hpr := by
    obtain ⟨c', hc', hrevision, hshown⟩ := detailOf_spec h hpr
    refine ⟨c', hc', ?_, hshown⟩
    rw [← hrevision]
    exact (get?_mapVal _ _ key).trans (by
      rw [show (present _ _ _ _ _ _ _ _).presented.get? key = some pr from hpr]
      rfl)
  revealed key packet hpacket := by
    obtain ⟨pr, hpr, rfl⟩ := Option.map_eq_some_iff.mp
      ((get?_mapVal _ (packetOf s c.token) key).symm.trans hpacket)
    exact (packetOf_spec h hpr).2

theorem output_presentPrepared :
    (presentPrepared s c).output = (presentPrepared s c).presenter.output := by
  refine map_entries_congr
    (f := fun key (packet : Packet μ τ π) => (key, packet.shown, packet.speed, packet.complete))
    (g := fun key (pr : Presented μ τ π) => (key, pr.summary.shown, pr.speed, pr.complete)) ?_
    fun key packet pr hpacket hpr => ?_
  · simp [presentPrepared, Dict.keys, Dict.mapVal, Function.comp_def]
  · obtain ⟨packet', hpacket', hshown, hspeed, hcomplete⟩ :=
      (sound_presentPrepared h).packed key pr hpr
    obtain rfl : packet' = packet := Option.some.inj (hpacket'.symm.trans hpacket)
    rw [hshown, hspeed, hcomplete]

end

/-- **One call**: it raises what the generation makes it raise; otherwise the visible owners
are loaded. -/
theorem collectPrepared_spec (hs : s.Sound head packets compact finance seen calls)
    (hcovers : Covers packets seen c) :
    match forM c.visible.keys (checkAt head packets compact finance c.token) with
    | .ok _ => ∃ s₁, Loaded head packets compact finance calls c s₁ ∧
        collectPrepared head (packets c.token) s c = .ok (presentPrepared s₁ c)
    | .error e => collectPrepared head (packets c.token) s c = .error e := by
  have hloop := foldlM_primeOne (nodup_keys c.visible) (forget_sound hs c) (c := c)
    fun key _ hchanges token hseen => by
      rw [remaining] at hseen
      split at hseen
      next hstays => exact hcovers key token hstays.1 hchanges hstays.2 hseen
      next => simp at hseen
  rw [collectPrepared]
  cases hfold : c.visible.keys.foldlM (primeOne head (packets c.token) c) (forget s c) with
  | error e =>
    rw [hfold] at hloop
    rw [hloop]
    rfl
  | ok s₁ =>
    rw [hfold] at hloop
    obtain ⟨hs₁, hpresent, -, hchecks⟩ := hloop
    rw [hchecks]
    refine ⟨s₁, ⟨?_, fun key hkey => hpresent key (mem_keys.mpr hkey)⟩, rfl⟩
    have hseen : (fun key => if key ∈ c.visible.keys then some c.token
        else remaining c seen key) =
        fun key => if (c.visible.get? key).isSome then some c.token else none := by
      funext key
      by_cases hkey : (c.visible.get? key).isSome <;> simp [mem_keys, hkey, remaining]
    exact hseen ▸ hs₁

end prepared

end Codexon.OverlaySummaries
