import Codexon.SnapshotDelivery.Following

/-!
# Codexon.SnapshotDelivery.Publishing

What a publisher sends says what changed since its last message: over what it sent
before, the message says what is published now.
-/

namespace Codexon.SnapshotDelivery

open Dict

variable {ε κ ν β : Type} [DecidableEq κ] [LinearOrder ν] [DecidableEq β]

/-! ## changed entries -/

section

variable {α γ : Type}

variable {after before : Dict κ α}

theorem mem_dropped {key : κ} :
    key ∈ dropped before after ↔ (before.get? key).isSome ∧ after.get? key = none := by
  rw [dropped, List.mem_filter, mem_keys_iff, Option.isNone_iff_eq_none]

theorem nodup_differing [DecidableEq α] (before after : Dict κ α) :
    ((differing before after).map Prod.fst).Nodup :=
  after.nodup.sublist (List.filter_sublist.map _)

theorem isSome_of_mem_differing [DecidableEq α] {key : κ}
    (h : key ∈ (differing before after).map Prod.fst) : (after.get? key).isSome :=
  mem_keys_iff.mp ((List.filter_sublist.map Prod.fst).subset h)

theorem found_differing [DecidableEq α] (before after : Dict κ α) (key : κ) :
    found (differing before after) key =
      (after.get? key).filter fun v => before.get? key ≠ some v := by
  have hmem : ∀ v, found (differing before after) key = some v ↔
      (key, v) ∈ differing before after := fun v =>
    get?_eq_some (d := ⟨differing before after, nodup_differing before after⟩)
  ext v
  rw [hmem, differing, List.mem_filter, Option.filter_eq_some_iff]
  exact and_congr_left' get?_eq_some.symm

theorem amended_differing [DecidableEq α] {removed : List κ} {key : κ}
    (hremoved : key ∈ removed ↔ (before.get? key).isSome ∧ after.get? key = none) :
    amended removed (differing before after) (before.get? key) key = after.get? key := by
  rw [amended, found_differing]
  cases hbefore : before.get? key <;> cases hafter : after.get? key <;> simp_all
  grind

end

/-! ## the loop over the sessions -/

omit [LinearOrder ν] in
theorem sessions_visit (engine : Dict κ (State ν β)) (v : Visit κ ν β) (source : Source κ β) :
    (visit engine v source).sessions = match engine.get? source.owner with
      | none => v.sessions
      | some state => v.sessions.set source.owner (light source state) := by
  unfold visit
  cases engine.get? source.owner with
  | none => rfl
  | some state =>
    simp only
    split <;> rfl

omit [LinearOrder ν] in
theorem isSome_visited (engine : Dict κ (State ν β)) (sources : List (Source κ β))
    (v : Visit κ ν β) (key : κ) : ((sources.foldl (visit engine) v).sessions.get? key).isSome ↔
      (v.sessions.get? key).isSome ∨ key ∈ sources.map (·.owner) ∧ (engine.get? key).isSome := by
  induction sources generalizing v with
  | nil => simp
  | cons source sources ih =>
    rw [List.foldl_cons, ih, sessions_visit]
    cases hstate : engine.get? source.owner with
    | none =>
      have hother : (engine.get? key).isSome → key ≠ source.owner := fun h heq => by
        simp [heq, hstate] at h
      grind
    | some state =>
      simp only [get?_set, List.map_cons, List.mem_cons]
      by_cases hkey : key = source.owner <;> simp [hkey, hstate]

/-- **Sessions and overlays have the same owners.** -/
theorem isSome_publish (P : Publisher ε κ ν β) (p : Publication κ ν β) (key : κ) :
    ((publish P p).2.sessions.get? key).isSome = ((publish P p).2.overlays.get? key).isSome := by
  have hvisited : ((visited P p).sessions.get? key).isSome ↔ _ :=
    isSome_visited p.engine p.sources _ key
  have hlisted := p.listed key
  rw [mem_keys_iff] at hlisted
  simp only [publish, get?_mapVal, Option.isSome_map]
  rw [Bool.eq_iff_iff, hvisited]
  have hempty : (Dict.get? (κ := κ) ({} : Dict κ (Row β)) key).isSome = false := rfl
  simp only [hempty, Bool.false_eq_true, false_or]
  exact ⟨fun h => h.2, fun h => ⟨hlisted h, h⟩⟩

/-! ## messages -/

def published (P : Publisher ε κ ν β) (p : Publication κ ν β) (last : Content κ ν β) :
    Content κ ν β :=
  { sessions := (publish P p).2.sessions
    overlays := (publish P p).2.overlays
    models := (publish P p).1.models.getD last.models
    choices := (publish P p).1.filterChoices.getD last.choices }

omit [DecidableEq κ] [LinearOrder ν] [DecidableEq β] in
theorem filterChoices_ne_empty [DecidableEq κ] (p : Publication κ ν β) : filterChoices p ≠ {} := by
  intro hempty
  have hmem : "sources" ∈ (filterChoices p).entries.map Prod.fst :=
    mem_keys_set.mpr (.inl rfl)
  rw [hempty] at hmem
  simp at hmem

theorem full_publish (P : Publisher ε κ ν β) (p : Publication κ ν β) : (publish P p).1.full := by
  simp only [Message.full, publish]
  split
  · exact fun h => filterChoices_ne_empty p (Option.some.inj h)
  · simp

theorem tidy_publish (P : Publisher ε κ ν β) (p : Publication κ ν β) :
    Tidy (parts (publish P p).1) := by
  obtain ⟨hsessions, hoverlays, hremoved, -⟩ := parts_say _ (full_publish P p)
  constructor
  · rw [hsessions]
    exact nodup_differing _ _
  · rw [hoverlays]
    exact nodup_differing _ _
  · intro key hkey
    rw [hremoved] at hkey
    have hgone : (publish P p).2.sessions.get? key = none := (mem_dropped.mp hkey).2
    have hgone' : ((publish P p).2.overlays.get? key).isSome = false := by
      rw [← isSome_publish, hgone]
      rfl
    rw [hsessions, hoverlays]
    constructor
    · intro hrow
      have hsome : ((publish P p).2.sessions.get? key).isSome := isSome_of_mem_differing hrow
      simp [hgone] at hsome
    · intro hrow
      have hsome : ((publish P p).2.overlays.get? key).isSome := isSome_of_mem_differing hrow
      simp [hgone'] at hsome

/-- **A publication** over what was sent before. -/
theorem says_publish {P : Publisher ε κ ν β} (p : Publication κ ν β) {base last : Content κ ν β}
    (hsessions : ∀ key, base.sessions.get? key = P.sessions.get? key)
    (hoverlays : ∀ key, base.overlays.get? key = P.overlays.get? key)
    (hkeys : ∀ key, (P.sessions.get? key).isSome = (P.overlays.get? key).isSome)
    (hrest : P.sequence ≠ 0 → base.models = last.models ∧ base.choices = last.choices) :
    Says (publish P p).1 base (published P p last) := by
  have hnow := isSome_publish P p
  constructor
  case sessions =>
    intro key
    rw [hsessions]
    exact amended_differing mem_dropped
  case overlays =>
    intro key
    rw [hoverlays]
    refine amended_differing ?_
    have hkey := hkeys key
    have hkey' := hnow key
    have hgone : key ∈ (publish P p).1.removed ↔ _ := mem_dropped
    have hsame : ∀ o : Option (Row β), ∀ o' : Option (Summary β), o.isSome = o'.isSome →
        (o = none ↔ o' = none) := by
      intro o o' h
      cases o <;> cases o' <;> simp_all
    rw [hgone, hkey]
    exact and_congr_right fun _ => hsame _ _ hkey'
  case models =>
    by_cases hzero : P.sequence = 0
    · simp [published, publish, hzero]
    · rw [published, (hrest hzero).1]
  case choices =>
    by_cases hzero : P.sequence = 0
    · simp [published, publish, hzero]
    · rw [published, (hrest hzero).2]
  case tidy => exact tidy_publish P p
  case full => exact full_publish P p
  case plain => exact ⟨rfl, rfl⟩

omit [LinearOrder ν] [DecidableEq β] in
theorem says_heartbeat {P P' : Publisher ε κ ν β} {m : Message ε κ ν β} {revision call : Nat}
    {token : Option β} (h : heartbeat P revision call token = some (m, P'))
    {base last : Content κ ν β} (hsessions : ∀ key, base.sessions.get? key = last.sessions.get? key)
    (hoverlays : ∀ key, base.overlays.get? key = last.overlays.get? key)
    (hrest : base.models = last.models ∧ base.choices = last.choices) : Says m base last := by
  unfold heartbeat at h
  split at h
  · contradiction
  · obtain ⟨rfl, -⟩ := Prod.mk.inj (Option.some.inj h)
    have hfull : Message.full
        { epoch := P.epoch, sequence := P.sequence + 1, reset := false, token := token :
          Message ε κ ν β } := by
      simp [Message.full]
    obtain ⟨hs, ho, hr, -⟩ := parts_say _ hfull
    exact {
      sessions := fun key => by rw [hsessions]; rfl
      overlays := fun key => by rw [hoverlays]; rfl
      models := hrest.1
      choices := hrest.2
      tidy := ⟨by rw [hs]; simp, by rw [ho]; simp, by rw [hr]; simp⟩
      full := hfull
      plain := ⟨rfl, rfl⟩ }

end Codexon.SnapshotDelivery
