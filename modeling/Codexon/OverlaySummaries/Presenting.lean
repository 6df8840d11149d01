import Codexon.OverlaySummaries

/-!
# Codexon.OverlaySummaries.Presenting

What `present` shows of an owner is `shownOf` its family: a rollup or a summary that is
kept from an earlier call has the content that a new one would have.  The revision of an
entry must name its content (`D`), and an object must not change (`Ready`).
-/

namespace Codexon

namespace OverlaySummaries

/-! ## ancestry -/

theorem mem_members {indexed : Lineage} {key member : Owner} (hkey : key ∈ indexed.keys)
    (h : member ∈ members indexed key) : member ∈ indexed.keys := by
  grind [members]

@[simp] theorem keys_lineage (sessions : Dict Owner Session) :
    (lineage sessions).keys = sessions.keys := by
  simp [lineage, Dict.keys, Dict.mapVal, Function.comp_def]

/-! ## the content of a family -/

variable {μ τ π ν : Type} [Zero μ] [Add μ]

/-- What is shown of an owner, when `values` are the own summaries and partial sums. -/
def shownOf (finance compact : Bool) (indexed : Lineage)
    (values : Owner → Option (Summary μ τ × π)) (key : Owner) : Option (Shown μ τ π) :=
  if (members indexed key).length = 1 then (values key).map fun value => .own value.1
  else some (rollupOf finance compact
    ((members indexed key).filterMap fun member => (values member).map (member, ·)))

theorem shownOf_congr {finance compact : Bool} {indexed : Lineage}
    {values values' : Owner → Option (Summary μ τ × π)} {key : Owner} (hkey : key ∈ indexed.keys)
    (h : ∀ member ∈ indexed.keys, values member = values' member) :
    shownOf finance compact indexed values key = shownOf finance compact indexed values' key := by
  have hmembers : ((members indexed key).filterMap fun member => (values member).map (member, ·)) =
      (members indexed key).filterMap fun member => (values' member).map (member, ·) :=
    List.filterMap_congr fun member hmember => by rw [h member (mem_members hkey hmember)]
  rw [shownOf, shownOf, h key hkey, hmembers]

/-- `updated[key]` and `partials[key]`. -/
def valueOf (updated : Dict Owner (ν × Own μ τ)) (partials : Dict Owner π) (key : Owner) :
    Option (Summary μ τ × π) :=
  match updated.get? key, partials.get? key with
  | some entry, some part => some (entry.2.summary, part)
  | _, _ => none

omit [Zero μ] [Add μ] in
theorem map_entriesOf (updated : Dict Owner (ν × Own μ τ)) (partials : Dict Owner π)
    (keys : List Owner) : ((entriesOf updated partials keys).map fun e => (e.1, e.2.2)) =
      keys.filterMap fun key => (valueOf updated partials key).map (key, ·) := by
  rw [entriesOf, List.map_filterMap]
  refine List.filterMap_congr fun key _ => ?_
  cases hentry : updated.get? key <;> cases hpart : partials.get? key <;>
    simp [valueOf, hentry, hpart]

/-! ## what is kept -/

variable (D : Owner → ν → Option (Summary μ τ × π))

def Rolled (r : Signature ν × Obj μ τ π) : Prop :=
  ∃ entries : List (Owner × ν × Summary μ τ × π),
    r.1.2.2 = (entries.map fun e => (e.1, e.2.1)) ∧
    r.2.shown = rollupOf r.1.1 r.1.2.1 (entries.map fun e => (e.1, e.2.2)) ∧
    ∀ e ∈ entries, D e.1 e.2.1 = some e.2.2

variable {D}

omit [Zero μ] [Add μ] in
theorem entries_unique {xs ys : List (Owner × ν × Summary μ τ × π)}
    (heq : (xs.map fun e => (e.1, e.2.1)) = ys.map fun e => (e.1, e.2.1))
    (hxs : ∀ e ∈ xs, D e.1 e.2.1 = some e.2.2) (hys : ∀ e ∈ ys, D e.1 e.2.1 = some e.2.2) :
    xs = ys := by
  induction xs generalizing ys with
  | nil => simpa using heq.symm
  | cons x xs ih =>
    cases ys with
    | nil => simp at heq
    | cons y ys =>
      obtain ⟨key, revision, value⟩ := x
      obtain ⟨key', revision', value'⟩ := y
      simp only [List.map_cons, List.cons.injEq, Prod.mk.injEq, List.forall_mem_cons] at *
      grind

theorem isFamily_rolled {r : Signature ν × Obj μ τ π} (h : Rolled D r) :
    r.2.shown.isFamily = true := by
  obtain ⟨entries, -, hshown, -⟩ := h
  simp [hshown, rollupOf, Shown.isFamily]

variable [DecidableEq ν]

theorem rollup_spec (finance compact : Bool) (stamp : Nat)
    {entries : List (Owner × ν × Summary μ τ × π)} {previous : Option (Signature ν × Obj μ τ π)}
    (hentries : ∀ e ∈ entries, D e.1 e.2.1 = some e.2.2)
    (hprevious : ∀ r, previous = some r → Rolled D r) :
    let r := rollup finance compact stamp entries previous
    Rolled D r ∧ r.2.shown = rollupOf finance compact (entries.map fun e => (e.1, e.2.2)) ∧
      (previous = some r ∨ r.2.stamp = stamp) := by
  have hfresh : Rolled D ((finance, compact, entries.map fun e => (e.1, e.2.1)),
      (⟨stamp, rollupOf finance compact (entries.map fun e => (e.1, e.2.2))⟩ : Obj μ τ π)) :=
    ⟨entries, rfl, rfl, hentries⟩
  cases previous with
  | none => exact ⟨hfresh, rfl, .inr rfl⟩
  | some r =>
    by_cases hsignature : r.1 = (finance, compact, entries.map fun e => (e.1, e.2.1))
    · simp only [rollup, hsignature, if_true]
      obtain ⟨entries', hkeys, hshown, hnamed⟩ := hprevious r rfl
      have hsame : entries' = entries :=
        entries_unique (by rw [← hkeys, hsignature]) hnamed hentries
      refine ⟨hprevious r rfl, ?_, .inl trivial⟩
      rw [hshown, hsame, hsignature]
    · simpa [rollup, hsignature] using hfresh

omit [Zero μ] [Add μ] [DecidableEq ν] in
theorem keep_spec (stamp : Nat) (previous : Option (Presented μ τ π)) (summary : Obj μ τ π)
    (speed : Speed) (complete : Option Bool) :
    let k := keep stamp previous summary speed complete
    k.speed = speed ∧ k.complete = complete ∧
      (previous = some k ∧ k.summary.is summary ∨ k.summary = summary ∧ k.stamp = stamp) := by
  cases previous with
  | none => simp [keep]
  | some previous =>
    simp only [keep]
    split
    next h => exact ⟨h.2.1, h.2.2, .inl ⟨rfl, h.1⟩⟩
    next => simp

variable (D)

/-- What a presenter keeps, when its last call is over. -/
structure Presenter.Sound (p : Presenter μ τ π ν) : Prop where
  cached : ∀ key e, p.cache.get? key = some e → e.2.stamp < p.clock
  rolled : ∀ key r, p.rollups.get? key = some r → r.2.stamp < p.clock ∧ Rolled D r
  shown : ∀ key pr, p.presented.get? key = some pr → pr.stamp < p.clock ∧
    match p.rollups.get? key with
    | some r => pr.summary = r.2
    | none => ∃ e, p.cache.get? key = some e ∧ pr.summary = e.2.obj

/-- What `present` may be given. -/
structure Ready (p : Presenter μ τ π ν) (updated : Dict Owner (ν × Own μ τ))
    (partials : Dict Owner π) : Prop where
  named : ∀ key e, updated.get? key = some e →
    ∃ part, partials.get? key = some part ∧ D key e.1 = some (e.2.summary, part)
  made : ∀ key e, updated.get? key = some e → e.2.stamp ≤ p.clock
  same : ∀ key e e', updated.get? key = some e → p.cache.get? key = some e' →
    e'.2.stamp = e.2.stamp → e'.2 = e.2

variable {D}

omit [Zero μ] [Add μ] [DecidableEq ν] in
theorem entriesOf_of_ready {p : Presenter μ τ π ν} {updated : Dict Owner (ν × Own μ τ)}
    {partials : Dict Owner π} (hready : Ready D p updated partials) (keys : List Owner) :
    ∀ e ∈ entriesOf updated partials keys, D e.1 e.2.1 = some e.2.2 := by
  intro e he
  rw [entriesOf, List.mem_filterMap] at he
  obtain ⟨key, -, hentry⟩ := he
  have := hready.named key
  grind

/-! ## present -/

section present

variable {finance compact : Bool} {selected : Option (List Owner)} {sessions : Dict Owner Session}
  {updated : Dict Owner (ν × Own μ τ)} {partials : Dict Owner π} {speeds : Dict Owner Speed}
  {p : Presenter μ τ π ν} {key : Owner}

theorem rollups_present (finance compact : Bool) (selected : Option (List Owner))
    (sessions : Dict Owner Session) (updated : Dict Owner (ν × Own μ τ)) (partials : Dict Owner π)
    (speeds : Dict Owner Speed) (p : Presenter μ τ π ν) (key : Owner) :
    (present finance compact selected sessions updated partials speeds p).rollups.get? key =
      (updated.get? key).bind fun _ =>
        if offered selected key ∧ (members (lineage sessions) key).length ≠ 1 then
          some (rollup finance compact p.clock
            (entriesOf updated partials (members (lineage sessions) key)) (p.rollups.get? key))
        else none :=
  Dict.get?_build _ _ key

def objectOf (p : Presenter μ τ π ν) (key : Owner) (own : Own μ τ) : Obj μ τ π :=
  ((p.rollups.get? key).map Prod.snd).getD own.obj

theorem presented_present (finance compact : Bool) (selected : Option (List Owner))
    (sessions : Dict Owner Session) (updated : Dict Owner (ν × Own μ τ)) (partials : Dict Owner π)
    (speeds : Dict Owner Speed) (p : Presenter μ τ π ν) (key : Owner) :
    (present finance compact selected sessions updated partials speeds p).presented.get? key =
      (updated.get? key).bind fun entry =>
        if offered selected key then
          some (keep p.clock (p.presented.get? key)
            (objectOf (present finance compact selected sessions updated partials speeds p) key
              entry.2)
            (speedOf speeds key entry.2.summary)
            (completeOf ((members (lineage sessions) key).map fun member =>
              (sessions.get? member).bind Session.collectionComplete)))
        else none :=
  Dict.get?_build _ _ key

theorem keys_presented (hkeys : updated.keys = sessions.keys) :
    (present finance compact selected sessions updated partials speeds p).presented.keys =
      sessions.keys.filter (offered selected) := by
  have hbuild : (present finance compact selected sessions updated partials speeds p).presented.keys
      = _ := Dict.keys_build updated _
  rw [hbuild, hkeys]
  refine List.filter_congr fun key hkey => ?_
  rw [← hkeys, Dict.mem_keys, Option.isSome_iff_exists] at hkey
  obtain ⟨e, he⟩ := hkey
  cases offered selected key <;> simp [he]

section

variable (hp : p.Sound D) (hready : Ready D p updated partials)

include hp hready

theorem shown_objectOf {e : ν × Own μ τ}
    (hkey : updated.get? key = some e) (hoffered : offered selected key) :
    some (objectOf (present finance compact selected sessions updated partials speeds p) key
      e.2).shown = shownOf finance compact (lineage sessions) (valueOf updated partials) key := by
  rw [objectOf, rollups_present, hkey, Option.bind_some, shownOf]
  by_cases hone : (members (lineage sessions) key).length = 1
  · obtain ⟨part, hpart, -⟩ := hready.named key e hkey
    simp [hone, valueOf, hkey, hpart, Own.obj]
  · have hspec := rollup_spec finance compact p.clock
      (entriesOf_of_ready hready (members (lineage sessions) key))
      (fun r hr => (hp.rolled key r hr).2)
    simp only [hoffered, hone, ne_eq, not_false_iff, and_self, if_true, if_false,
      Option.map_some, Option.getD_some]
    rw [hspec.2.1, map_entriesOf]

theorem eq_objectOf {e : ν × Own μ τ}
    (hkey : updated.get? key = some e) {pr : Presented μ τ π} (hpr : p.presented.get? key = some pr)
    (his : pr.summary.is (objectOf
      (present finance compact selected sessions updated partials speeds p) key e.2)) :
    pr.summary = objectOf (present finance compact selected sessions updated partials speeds p) key
      e.2 := by
  have hlast := (hp.shown key pr hpr).2
  have hown : (e.2.obj : Obj μ τ π).shown.isFamily = false := rfl
  rw [objectOf, rollups_present, hkey, Option.bind_some] at his ⊢
  by_cases hfamily : offered selected key ∧ (members (lineage sessions) key).length ≠ 1
  · have hspec := rollup_spec finance compact p.clock
      (entriesOf_of_ready hready (members (lineage sessions) key))
      (fun r hr => (hp.rolled key r hr).2)
    rw [if_pos hfamily, Option.map_some, Option.getD_some] at his ⊢
    obtain ⟨hrolled, -, hkept⟩ := hspec
    have hisFamily := isFamily_rolled hrolled
    cases hrollup : p.rollups.get? key with
    | none =>
      simp only [hrollup] at hlast his
      obtain ⟨e', he', hsummary⟩ := hlast
      grind [Obj.is, Own.obj, Shown.isFamily]
    | some r =>
      have hstamp := (hp.rolled key r hrollup).1
      simp only [hrollup] at hlast his hkept ⊢
      grind [Obj.is]
  · rw [if_neg hfamily] at his ⊢
    simp only [Option.map_none, Option.getD_none] at his ⊢
    cases hrollup : p.rollups.get? key with
    | none =>
      simp only [hrollup] at hlast
      obtain ⟨e', he', hsummary⟩ := hlast
      have hsame := hready.same key e e' hkey he'
      grind [Obj.is, Own.obj]
    | some r =>
      have hisFamily := isFamily_rolled (hp.rolled key r hrollup).2
      simp only [hrollup] at hlast
      grind [Obj.is]

/-- **What is presented of an owner**, after any earlier calls. -/
theorem presented_spec {pr : Presented μ τ π}
    (hpr : (present finance compact selected sessions updated partials speeds
      p).presented.get? key = some pr) : ∃ e, updated.get? key = some e ∧ offered selected key ∧
      pr.summary = objectOf (present finance compact selected sessions updated partials speeds p)
        key e.2 ∧ pr.speed = speedOf speeds key e.2.summary ∧
      pr.complete = completeOf ((members (lineage sessions) key).map fun member =>
        (sessions.get? member).bind Session.collectionComplete) ∧
      (p.presented.get? key = some pr ∨ pr.stamp = p.clock) := by
  rw [presented_present, Option.bind_eq_some_iff] at hpr
  obtain ⟨e, hkey, hpr⟩ := hpr
  by_cases hoffered : offered selected key
  · rw [if_pos hoffered, Option.some.injEq] at hpr
    obtain ⟨hspeed, hcomplete, hkept⟩ := keep_spec p.clock (p.presented.get? key)
      (objectOf (present finance compact selected sessions updated partials speeds p) key e.2)
      (speedOf speeds key e.2.summary)
      (completeOf ((members (lineage sessions) key).map fun member =>
        (sessions.get? member).bind Session.collectionComplete))
    rw [hpr] at hspeed hcomplete hkept
    refine ⟨e, hkey, hoffered, ?_, hspeed, hcomplete, ?_⟩
    · rcases hkept with ⟨hprevious, his⟩ | ⟨hsummary, -⟩
      · exact eq_objectOf hp hready hkey hprevious his
      · exact hsummary
    · exact hkept.imp And.left And.right
  · simp [hoffered] at hpr

theorem present_sound :
    (present finance compact selected sessions updated partials speeds p).Sound D where
  cached key e he := Nat.lt_succ_of_le (hready.made key e he)
  rolled key r hr := by
    rw [rollups_present, Option.bind_eq_some_iff] at hr
    obtain ⟨e, -, hr⟩ := hr
    have hspec := rollup_spec finance compact p.clock
      (entriesOf_of_ready hready (members (lineage sessions) key))
      (fun r hr => (hp.rolled key r hr).2)
    have hclock : (present finance compact selected sessions updated partials speeds p).clock =
        p.clock + 1 := rfl
    have := hp.rolled key r
    grind
  shown key pr hpr := by
    have hclock : (present finance compact selected sessions updated partials speeds p).clock =
        p.clock + 1 := rfl
    obtain ⟨e, hkey, -, hsummary, -, -, hstamp⟩ := presented_spec hp hready hpr
    refine ⟨?_, ?_⟩
    · have := fun h => (hp.shown key pr h).1
      grind
    · rw [objectOf] at hsummary
      cases hrollup : (present finance compact selected sessions updated partials speeds
          p).rollups.get? key with
      | none => exact ⟨e, hkey, by simpa [hrollup] using hsummary⟩
      | some r => simpa [hrollup] using hsummary

end

omit [Zero μ] [Add μ] [DecidableEq ν] in
theorem value_of_ready (hready : Ready D p updated partials) {e : ν × Own μ τ}
    (hkey : updated.get? key = some e) :
    ∃ part, valueOf updated partials key = some (e.2.summary, part) := by
  obtain ⟨part, hpart, -⟩ := hready.named key e hkey
  exact ⟨part, by simp [valueOf, hkey, hpart]⟩

/-- **History independence of `present`**: the summaries that are returned depend on the
sessions, on the values of their owners and on the speeds, not on what was kept. -/
theorem output_present {p' : Presenter μ τ π ν} {updated' : Dict Owner (ν × Own μ τ)}
    {partials' : Dict Owner π} (hp : p.Sound D) (hready : Ready D p updated partials)
    (hp' : p'.Sound D) (hready' : Ready D p' updated' partials')
    (hkeys : updated.keys = sessions.keys) (hkeys' : updated'.keys = sessions.keys)
    (hvalues : ∀ key ∈ sessions.keys,
      valueOf updated partials key = valueOf updated' partials' key) :
    (present finance compact selected sessions updated partials speeds p).output =
      (present finance compact selected sessions updated' partials' speeds p').output := by
  refine Dict.map_entries_congr (f := fun key pr => (key, pr.summary.shown, pr.speed, pr.complete))
    (g := fun key pr => (key, pr.summary.shown, pr.speed, pr.complete))
    ((keys_presented hkeys).trans (keys_presented hkeys').symm) fun key pr pr' hpr hpr' => ?_
  obtain ⟨e, hkey, hoffered, hsummary, hspeed, hcomplete, -⟩ := presented_spec hp hready hpr
  obtain ⟨e', hkey', -, hsummary', hspeed', hcomplete', -⟩ := presented_spec hp' hready' hpr'
  have hmem : key ∈ sessions.keys := by
    rw [← hkeys, Dict.mem_keys, hkey]
    rfl
  have hown : e.2.summary = e'.2.summary := by
    obtain ⟨part, hvalue⟩ := value_of_ready hready hkey
    obtain ⟨part', hvalue'⟩ := value_of_ready hready' hkey'
    have := hvalues key hmem
    grind
  have hshown : some pr.summary.shown = some pr'.summary.shown := by
    rw [hsummary, hsummary', shown_objectOf hp hready hkey hoffered,
      shown_objectOf hp' hready' hkey' hoffered]
    exact shownOf_congr (by simpa using hmem) fun member hmember => hvalues member (by
      simpa using hmember)
  rw [Option.some.inj hshown, hspeed, hspeed', hown, hcomplete, hcomplete']

omit [DecidableEq ν] in
theorem sound_empty : (({} : Presenter μ τ π ν)).Sound D where
  cached _ _ h := nomatch h
  rolled _ _ h := nomatch h
  shown _ _ h := nomatch h

end present

end OverlaySummaries

/-!
## the engine

`OverlaySummaries.collect` over the states of an engine: an own summary is kept for an
equal revision.  The engine numbers the content of an owner (`Numbered`), so what is kept
is what would be summarized.
-/

namespace OverlaySummaries

variable {μ τ π ρ : Type} [Zero μ] [Add μ] {summarize : ρ → Summary μ τ × π}

/-- An engine gives the content of an owner a number of its own: states of one number are
summarized alike. -/
def Numbered (summarize : ρ → Summary μ τ × π) (engines : List (Dict Owner (EngineState ρ))) :
    Prop :=
  ∀ engine ∈ engines, ∀ engine' ∈ engines, ∀ key state state',
    engine.get? key = some state → engine'.get? key = some state' →
    state.number = state'.number → summarize state.prepared = summarize state'.prepared

def Contents (summarize : ρ → Summary μ τ × π) (D : Owner → Nat × Bool → Option (Summary μ τ × π))
    (engine : Dict Owner (EngineState ρ)) : Prop :=
  ∀ key state, engine.get? key = some state →
    D key state.number = some (summarize state.prepared)

omit [Zero μ] [Add μ] in
open scoped Classical in
theorem exists_contents {engines : List (Dict Owner (EngineState ρ))}
    (h : Numbered summarize engines) : ∃ D, ∀ engine ∈ engines, Contents summarize D engine := by
  refine ⟨fun key number =>
    if hex : ∃ state, (∃ engine ∈ engines, engine.get? key = some state) ∧ state.number = number
    then some (summarize hex.choose.prepared) else none, fun engine hengine key state hstate => ?_⟩
  have hex : ∃ state', (∃ engine ∈ engines, engine.get? key = some state') ∧
      state'.number = state.number := ⟨state, ⟨engine, hengine, hstate⟩, rfl⟩
  obtain ⟨⟨engine', hengine', hstate'⟩, hnumber⟩ := hex.choose_spec
  simp only [hex, dif_pos, Option.some.injEq]
  exact h engine' hengine' engine hengine key _ state hstate' hstate hnumber

variable (D : Owner → Nat × Bool → Option (Summary μ τ × π))

/-- What the presenter of an engine keeps. -/
structure Presenter.Summarized (p : Presenter μ τ π (Nat × Bool)) : Prop where
  sound : p.Sound D
  named : ∀ key e, p.cache.get? key = some e →
    ∃ part, p.partials.get? key = some part ∧ D key e.1 = some (e.2.summary, part)

variable {D} {engine : Dict Owner (EngineState ρ)} {p : Presenter μ τ π (Nat × Bool)}

theorem summarized_spec (hp : p.Summarized D) {key : Owner} {state : EngineState ρ}
    (hstate : D key state.number = some (summarize state.prepared)) :
    let r := summarized summarize p key state
    r.1.1 = state.number ∧ (r.1.2.summary, r.2) = summarize state.prepared ∧
      (p.cache.get? key = some r.1 ∨ r.1.2.stamp = p.clock) := by
  have hnamed := hp.named key
  simp only [summarized]
  split
  next previous part hprevious hpart =>
    split
    next hnumber =>
      obtain ⟨part', hpart', hD⟩ := hnamed previous hprevious
      grind
    next => simp
  next => simp

theorem ready_of_engine (hp : p.Summarized D) (hengine : Contents summarize D engine) :
    Ready D p (engine.mapVal fun key state => (summarized summarize p key state).1)
      (engine.mapVal fun key state => (summarized summarize p key state).2) where
  named key e he := by
    rw [Dict.get?_mapVal, Option.map_eq_some_iff] at he
    obtain ⟨state, hstate, rfl⟩ := he
    obtain ⟨hnumber, hvalue, -⟩ := summarized_spec hp (hengine key state hstate)
    exact ⟨_, by rw [Dict.get?_mapVal, hstate]; rfl, by
      rw [hnumber, hengine key state hstate, ← hvalue]⟩
  made key e he := by
    rw [Dict.get?_mapVal, Option.map_eq_some_iff] at he
    obtain ⟨state, hstate, rfl⟩ := he
    obtain ⟨-, -, hkept⟩ := summarized_spec hp (hengine key state hstate)
    rcases hkept with hkept | hstamp
    · exact (hp.sound.cached key _ hkept).le
    · exact hstamp.le
  same key e e' he he' hsame := by
    rw [Dict.get?_mapVal, Option.map_eq_some_iff] at he
    obtain ⟨state, hstate, rfl⟩ := he
    obtain ⟨-, -, hkept⟩ := summarized_spec hp (hengine key state hstate)
    have := hp.sound.cached key e' he'
    rcases hkept with hkept | hstamp
    · rw [Option.some.inj (he'.symm.trans hkept)]
    · omega

theorem collect_summarized (hp : p.Summarized D) (hengine : Contents summarize D engine)
    (speeds : Dict Owner Speed) : (collect summarize p engine speeds).Summarized D := by
  exact ⟨present_sound hp.sound (ready_of_engine hp hengine), (ready_of_engine hp hengine).named⟩

def collects (summarize : ρ → Summary μ τ × π)
    (states : List (Dict Owner (EngineState ρ) × Dict Owner Speed)) :
    Presenter μ τ π (Nat × Bool) :=
  states.foldl (fun p state => collect summarize p state.1 state.2) {}

theorem collects_summarized {states : List (Dict Owner (EngineState ρ) × Dict Owner Speed)}
    (hstates : ∀ state ∈ states, Contents summarize D state.1) :
    (collects summarize states).Summarized D := by
  have hrun : ∀ p : Presenter μ τ π (Nat × Bool), p.Summarized D →
      (states.foldl (fun p state => collect summarize p state.1 state.2) p).Summarized D := by
    induction states with
    | nil => exact fun p hp => hp
    | cons state states ih =>
      rw [List.forall_mem_cons] at hstates
      exact fun p hp => ih hstates.2 _ (collect_summarized hp hstates.1 state.2)
  exact hrun {} ⟨sound_empty, fun _ _ h => nomatch h⟩

theorem value_of_engine (hp : p.Summarized D) (hengine : Contents summarize D engine)
    (key : Owner) : valueOf (engine.mapVal fun key state => (summarized summarize p key state).1)
        (engine.mapVal fun key state => (summarized summarize p key state).2) key =
      (engine.get? key).map fun state => summarize state.prepared := by
  rw [valueOf, Dict.get?_mapVal, Dict.get?_mapVal]
  cases hstate : engine.get? key with
  | none => rfl
  | some state => simp [← (summarized_spec hp (hengine key state hstate)).2.1]

/-- **History independence of `OverlaySummaries.collect`**: after any engine states, the
summaries of one are those of a fresh presenter. -/
theorem collect_history_free {states : List (Dict Owner (EngineState ρ) × Dict Owner Speed)}
    {speeds : Dict Owner Speed} (hnumbered : Numbered summarize (engine :: states.map Prod.fst)) :
    (collect summarize (collects summarize states) engine speeds).output =
      (collect summarize {} engine speeds).output := by
  obtain ⟨D, hD⟩ := exists_contents hnumbered
  rw [List.forall_mem_cons] at hD
  have hstates : ∀ state ∈ states, Contents summarize D state.1 := fun state hstate =>
    hD.2 state.1 (List.mem_map_of_mem hstate)
  have hp := collects_summarized hstates
  have hp' : (collects summarize ([] : List (Dict Owner (EngineState ρ) × _))).Summarized D :=
    collects_summarized (by simp)
  have hkeys : ∀ p : Presenter μ τ π (Nat × Bool),
      (engine.mapVal fun key state => (summarized summarize p key state).1).keys =
        (engine.mapVal fun _ state => state.session).keys := fun p => by
    simp [Dict.keys, Dict.mapVal, Function.comp_def]
  refine output_present hp.sound (ready_of_engine hp hD.1) hp'.sound (ready_of_engine hp' hD.1)
    (hkeys _) (hkeys _) fun key _ => ?_
  exact (value_of_engine hp hD.1 key).trans (value_of_engine hp' hD.1 key).symm

end OverlaySummaries

end Codexon
