import Codexon.OverlaySummaries.Prepared

/-!
# Codexon.OverlaySummaries.History

Sequences of calls.  Where the changed and removed sets cover what changed, presentation
does not depend on its history; an `_overlay_revision` names the content of a summary
where the calls of one generation are given the same owners.
-/

namespace Codexon.OverlaySummaries

open List

section history

variable {μ τ π ρ : Type} [Zero μ] [Add μ] {head : Head μ τ π ρ}
  {packets : Token → Owner → Option ρ} {compact finance : Bool}

def seenAfter (seen : Owner → Option Token) : Step → Owner → Option Token
  | .prime token key _ => Function.update seen key (some token)
  | .collect c => fun key => if (c.visible.get? key).isSome then some c.token else none

variable (head packets compact finance) in
/-- The contracts of the steps.  What is adopted with an unchanged entry has the content of
the last generation; what was not changed or removed since then has its packet. -/
def Contract (seen : Owner → Option Token) : List Step → Prop
  | [] => True
  | .prime token key unchanged :: steps =>
    (packets token key).isSome ∧
      (unchanged = true → ∀ token', seen key = some token' →
        contentAt head packets compact finance token key =
          contentAt head packets compact finance token' key) ∧
      Contract (seenAfter seen (.prime token key unchanged)) steps
  | .collect c :: steps => Covers packets seen c ∧ Contract (seenAfter seen (.collect c)) steps

def callsOf : List Step → List Call
  | [] => []
  | .prime .. :: steps => callsOf steps
  | .collect c :: steps => c :: callsOf steps

variable {steps : List Step}

omit [Zero μ] [Add μ] in
theorem contract_append {seen : Owner → Option Token} {rest : List Step} :
    Contract head packets compact finance seen (steps ++ rest) ↔
      Contract head packets compact finance seen steps ∧
        Contract head packets compact finance (steps.foldl seenAfter seen) rest := by
  induction steps generalizing seen with
  | nil => simp [Contract]
  | cons step steps ih => cases step <;> simp [Contract, ih, and_assoc]

theorem mem_callsOf {c : Call} : c ∈ callsOf steps ↔ .collect c ∈ steps := by
  induction steps with
  | nil => simp [callsOf]
  | cons step steps ih => cases step <;> simp [callsOf, ih]

variable {s : Overlays μ τ π}

/-- **A run** keeps what every call relies on. -/
theorem run_sound {seen : Owner → Option Token} {calls : List Call}
    {s' : Overlays μ τ π} (hs : s.Sound head packets compact finance seen calls)
    (hcontract : Contract head packets compact finance seen steps)
    (hrun : run head packets s steps = .ok s') :
    s'.Sound head packets compact finance (steps.foldl seenAfter seen)
      (calls ++ callsOf steps) := by
  induction steps generalizing s seen calls with
  | nil =>
    obtain rfl : s = s' := Except.ok.inj hrun
    simpa [callsOf] using hs
  | cons step₁ steps ih =>
    simp only [run, foldlM_cons, bind, Except.bind] at hrun
    cases hstep : step head packets s step₁ with
    | error e => simp [hstep] at hrun
    | ok s₁ =>
      simp only [hstep] at hrun
      cases step₁ with
      | prime token key unchanged =>
        obtain ⟨hpacket, hunchanged, hrest⟩ := hcontract
        obtain ⟨packet, hpacket⟩ := Option.isSome_iff_exists.mp hpacket
        simp only [step, hpacket] at hstep
        have hs₁ : s₁.Sound head packets compact finance
            (seenAfter seen (.prime token key unchanged)) calls := by
          cases hpreserve : unchanged && (s.own.get? key).isSome with
          | false => exact prime_new hs hpacket (hpreserve ▸ hstep)
          | true =>
            rw [Bool.and_eq_true] at hpreserve
            exact prime_preserved hs hpreserve.2 (hunchanged hpreserve.1)
              (by simpa [hpreserve.1, hpreserve.2] using hstep)
        exact ih hs₁ hrest hrun
      | collect c =>
        obtain ⟨hcovers, hrest⟩ := hcontract
        have hspec := collectPrepared_spec hs hcovers
        simp only [step] at hstep
        split at hspec
        next =>
          obtain ⟨s₂, hloaded, hcollect⟩ := hspec
          rw [hcollect, Except.ok.injEq] at hstep
          subst hstep
          have hs₃ : (presentPrepared s₂ c).Sound head packets compact finance
              (seenAfter seen (.collect c)) (calls ++ [c]) := sound_presentPrepared hloaded
          have hrest' := ih hs₃ hrest hrun
          simpa [callsOf] using hrest'
        next => simp [hspec] at hstep

/-- **History independence of `PreparedOverlays.collect`**: after any calls, a call returns
or raises what a fresh presenter does. -/
theorem collectPrepared_history_free {c : Call}
    (hcontract : Contract head packets compact finance (fun _ => none) (steps ++ [.collect c]))
    (hrun : run head packets { compact, finance } steps = .ok s) (changed : Option (List Owner))
    (removed : List Owner) :
    (collectPrepared head (packets c.token) s c).map Overlays.output =
      (collectPrepared head (packets c.token) { compact, finance }
        { c with changed, removed }).map Overlays.output := by
  rw [contract_append] at hcontract
  have hs := run_sound sound_init hcontract.1 hrun
  have hspec := collectPrepared_spec hs hcontract.2.1
  have hinit : ({ compact, finance } : Overlays μ τ π).Sound head packets compact finance
      (fun _ => none) [] := sound_init
  have hfresh := collectPrepared_spec (c := { c with changed, removed }) hinit
    fun _ _ _ _ _ h => nomatch h
  have hvisible : Call.visible { c with changed, removed } = c.visible := rfl
  rw [hvisible] at hfresh
  cases hchecks : forM c.visible.keys (checkAt head packets compact finance c.token) with
  | error e =>
    simp only [hchecks] at hspec hfresh
    rw [hspec, hfresh]
  | ok _ =>
    simp only [hchecks] at hspec hfresh
    obtain ⟨s₁, hloaded, hcollect⟩ := hspec
    obtain ⟨s₂, ⟨hsound, hpresent⟩, hcollect'⟩ := hfresh
    have hloaded' : Loaded head packets compact finance [] c s₂ := ⟨hsound, hpresent⟩
    have hsame : presentPrepared s₂ { c with changed, removed } = presentPrepared s₂ c := rfl
    rw [hcollect, hcollect', hsame, Except.map, Except.map, output_presentPrepared hloaded,
      output_presentPrepared hloaded']
    refine congrArg Except.ok ?_
    simp only [presentPrepared, hloaded.sound.compact_eq, hloaded.sound.finance_eq,
      hloaded'.sound.compact_eq, hloaded'.sound.finance_eq]
    exact output_present hloaded.sound.presenter (ready_of_loaded hloaded)
      hloaded'.sound.presenter (ready_of_loaded hloaded') (keys_updated hloaded)
      (keys_updated hloaded') fun key hkey =>
        (value_of_loaded hloaded hkey).trans (value_of_loaded hloaded' hkey).symm

/-- The calls of one generation are given the same visible owners, in order, with the same
parents. -/
def SameOwners (steps : List Step) : Prop :=
  ∀ c c', .collect c ∈ steps → .collect c' ∈ steps → c.token = c'.token →
    lineage c.visible = lineage c'.visible

theorem overlayRevision_names {earlier later : List Step} {s' : Overlays μ τ π}
    (hcontract : Contract head packets compact finance (fun _ => none) steps)
    (howners : SameOwners steps) (hearlier : earlier <+: steps) (hlater : later <+: steps)
    (hrun : run head packets { compact, finance } earlier = .ok s)
    (hrun' : run head packets { compact, finance } later = .ok s') {key : Owner}
    {packet packet' : Packet μ τ π} (hpacket : s.summaries.get? key = some packet)
    (hpacket' : s'.summaries.get? key = some packet')
    (hrevision : packet.overlayRevision = packet'.overlayRevision) :
    packet.shown = packet'.shown := by
  have hreveal : ∀ {part : List Step} {s : Overlays μ τ π}, part <+: steps →
      run head packets { compact, finance } part = .ok s → ∀ packet,
      s.summaries.get? key = some packet → ∃ c, .collect c ∈ steps ∧
        packet.overlayRevision = c.token ∧
        some packet.shown = shownIn head packets compact finance c key := by
    intro part s hpart hrun packet hpacket
    obtain ⟨rest, rfl⟩ := hpart
    rw [contract_append] at hcontract
    obtain ⟨c, hc, hrevision, hshown⟩ :=
      (run_sound sound_init hcontract.1 hrun).revealed key packet hpacket
    rw [nil_append, mem_callsOf] at hc
    exact ⟨c, mem_append_left rest hc, hrevision, hshown⟩
  obtain ⟨c, hc, htoken, hshown⟩ := hreveal hearlier hrun packet hpacket
  obtain ⟨c', hc', htoken', hshown'⟩ := hreveal hlater hrun' packet' hpacket'
  have hsame : c.token = c'.token := by rw [← htoken, ← htoken', hrevision]
  rw [shownIn, howners c c' hc hc' hsame, hsame] at hshown
  exact Option.some.inj (hshown.trans hshown'.symm)

/-- **Presentation is history independent**: a call of `OverlaySummaries.collect` or
`PreparedOverlays.collect` returns what a fresh presenter does, and where the calls of one
generation are given the same owners, `_overlay_revision` names the content of a summary. -/
theorem presentation_history_free {σ : Type} (summarize : σ → Summary μ τ × π)
    (head : Head μ τ π ρ) (packets : Token → Owner → Option ρ) (compact finance : Bool) :
    (∀ states engine speeds, Numbered summarize (engine :: states.map Prod.fst) →
      (collect summarize (collects summarize states) engine speeds).output =
        (collect summarize {} engine speeds).output) ∧
    (∀ steps c s, Contract head packets compact finance (fun _ => none) (steps ++ [.collect c]) →
      run head packets { compact, finance } steps = .ok s → ∀ changed removed,
      (collectPrepared head (packets c.token) s c).map Overlays.output =
        (collectPrepared head (packets c.token) { compact, finance }
          { c with changed, removed }).map Overlays.output) ∧
    (∀ steps, Contract head packets compact finance (fun _ => none) steps → SameOwners steps →
      ∀ earlier later s s', earlier <+: steps → later <+: steps →
      run head packets { compact, finance } earlier = .ok s →
      run head packets { compact, finance } later = .ok s' → ∀ key packet packet',
      s.summaries.get? key = some packet → s'.summaries.get? key = some packet' →
      packet.overlayRevision = packet'.overlayRevision → packet.shown = packet'.shown) :=
  ⟨fun _ _ _ => collect_history_free, fun _ _ _ => collectPrepared_history_free,
    fun _ hcontract howners _ _ _ _ hearlier hlater hrun hrun' _ _ _ =>
      overlayRevision_names hcontract howners hearlier hlater hrun hrun'⟩

end history

/-! ## a family -/

namespace Family

def parent : Owner := (py "h", py "p")

def child : Owner := (py "h", py "c")

def first : Token := ⟨py "i", 1⟩

def second : Token := ⟨py "i", 2⟩

def costing (cost : Nat) : Summary Nat Unit × Unit :=
  (⟨some cost, 1, 1, false, some true, ()⟩, ())

def head : Head Nat Unit Unit Nat := fun _ _ cost => .ok (costing cost)

def packets (token : Token) (key : Owner) : Option Nat :=
  if key = parent then some (10 * token.generation) else some 2

def alone : Dict Owner Metadata := Dict.set {} parent {}

def family : Dict Owner Metadata :=
  alone.set child { session := { parentThreadId := some (py "p") } }

def steps : List Step :=
  [.collect { token := first, owners := family }, .prime second parent false]

def next : Call := { token := second, owners := family, changed := some [parent] }

def engine (revision cost : Nat) : Dict Owner (EngineState Nat) :=
  Dict.set {} parent { revision, coverageGaps := false, prepared := cost, session := {} }

theorem contract_next :
    Contract head packets true false (fun _ => none) (steps ++ [.collect next]) := by
  refine ⟨fun _ _ _ h => by simp [Call.changes] at h, rfl, by simp, fun key token _ h _ _ => ?_,
    trivial⟩
  have hne : key ≠ parent := by simpa [Call.changes, next] using h
  simp [packets, hne]

theorem sameOwners_next : SameOwners (steps ++ [.collect next]) := by
  intro c c' hc hc' _
  simp only [steps, cons_append, nil_append, mem_cons, not_mem_nil, or_false,
    Step.collect.injEq, reduceCtorEq, false_or] at hc hc'
  rcases hc with rfl | rfl <;> rcases hc' with rfl | rfl <;> rfl

theorem numbered_engine : Numbered costing [engine 2 22, engine 1 12] := by
  intro e he e' he' key state state' hstate hstate' hnumber
  simp only [mem_cons, not_mem_nil, or_false] at he he'
  rcases he with rfl | rfl <;> rcases he' with rfl | rfl <;>
    grind [engine, Dict.get?_set, EngineState.number]

end Family

open Family in
/-- The cost of the parent rises; the presenter that has kept the child agrees with a fresh
one, and shows the child under its first revision. -/
theorem presentation_history_free_next :
    (collect costing (collects costing [(engine 1 12, {})]) (engine 2 22) {}).output =
        (collect costing {} (engine 2 22) {}).output ∧
      (∃ s, run head packets { compact := true, finance := false } steps = .ok s ∧
        (collectPrepared head (packets second) s next).map Overlays.output =
          (collectPrepared head (packets second) { compact := true, finance := false }
            { next with changed := none, removed := [] }).map Overlays.output) ∧
      ∃ s s' packet packet',
        run head packets { compact := true, finance := false } steps = .ok s ∧
        run head packets { compact := true, finance := false } (steps ++ [.collect next]) = .ok s' ∧
        s.summaries.get? child = some packet ∧ s'.summaries.get? child = some packet' ∧
        packet.overlayRevision = packet'.overlayRevision ∧ packet.shown = packet'.shown := by
  have h := presentation_history_free costing head packets true false
  refine ⟨h.1 [(engine 1 12, {})] (engine 2 22) {} numbered_engine,
    ⟨_, rfl, h.2.1 steps next _ contract_next rfl none []⟩, _, _, _, _, rfl, rfl, rfl, rfl, rfl, ?_⟩
  exact h.2.2 (steps ++ [.collect next]) contract_next sameOwners_next steps
    (steps ++ [.collect next]) _ _ (prefix_append _ _) (prefix_refl _) rfl rfl child _ _
    rfl rfl rfl

open Family in
/-- Not so where the publisher is given other owners in one generation: the parent is shown
alone and with its child under one revision. -/
theorem rescoped_revision_repeats :
    ¬ ∀ steps, Contract head packets false false (fun _ => none) steps →
      ∀ earlier later s s', earlier <+: steps → later <+: steps →
      run head packets {} earlier = .ok s → run head packets {} later = .ok s' →
      ∀ key packet packet', s.summaries.get? key = some packet →
      s'.summaries.get? key = some packet' → packet.overlayRevision = packet'.overlayRevision →
      packet.shown = packet'.shown := by
  intro h
  have hcontract : Contract head packets false false (fun _ => none)
      [.collect { token := first, owners := alone },
        .collect { token := first, owners := family }] :=
    ⟨fun _ _ _ h => by simp [Call.changes] at h, fun _ _ _ h => by simp [Call.changes] at h,
      trivial⟩
  have hshown := h _ hcontract [.collect { token := first, owners := alone }] _ _ _
    (prefix_append _ _) (prefix_refl _) rfl rfl parent _ _ rfl rfl rfl
  exact absurd hshown (by decide +kernel)

end Codexon.OverlaySummaries
