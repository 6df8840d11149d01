import Codexon.LiveDelta

/-!
# Codexon.LiveDelta.Revisions

What the revisions of a publication say of an earlier one in its epoch
(`Live.Follows`): a row whose revision is not newer was in it with the same body,
an entry whose state revision is not newer was in it as it is, and a membership
that is not newer has the same keys.
-/

namespace Codexon.Delta

open List

open Channel (Codec)

variable {β : Type} {codec : Codec β}

theorem digestOf_injective (codec : Codec β) : Function.Injective (digestOf codec) := by
  intro a b h
  have hdecoded := congrArg codec.decode (codec.digest_inj h)
  rwa [codec.decode_encode, codec.decode_encode] at hdecoded

/-! ## one row -/

section

variable {r : Record β} {old : Option (Item β)} {sequence : Nat}

def Record.Honest (r : Record β) (old : Option (Item β)) : Prop :=
  r.certified = true → ∀ x, old = some x → x.body = r.body

theorem Record.body_of_keeps {x : Item β} (hhonest : r.Honest (some x))
    (h : r.keeps codec x = true) : x.body = r.body := by
  unfold Record.keeps at h
  split at h
  · exact digestOf_injective codec (by simpa using h)
  · rcases (Bool.or_eq_true _ _).mp h with hcertified | hfingerprint
    · exact hhonest hcertified x rfl
    · exact codec.fingerprint_inj (by simpa using hfingerprint)

theorem Record.saved_spec (codec : Codec β) (sequence : Nat) (hhonest : r.Honest old) :
    (r.saved codec old sequence).2 = r.body ∧ ((r.saved codec old sequence).1 = sequence ∨
        ∃ x, old = some x ∧ (r.saved codec old sequence).1 = x.revision ∧ x.body = r.body) := by
  unfold Record.saved
  split
  · next x =>
    split
    · next hkeeps =>
      have hbody := Record.body_of_keeps hhonest hkeeps
      exact ⟨hbody, Or.inr ⟨x, rfl, rfl, hbody⟩⟩
    · exact ⟨rfl, Or.inl rfl⟩
  · exact ⟨rfl, Or.inl rfl⟩

/-- What an entry is of the one before. -/
structure Item.Renews (x : Item β) (old : Option (Item β)) (sequence : Nat) : Prop where
  body : x.revision = sequence ∨
    ∃ y, old = some y ∧ y.revision = x.revision ∧ y.body = x.body
  state : x.stateRevision = sequence ∨
    ∃ y, old = some y ∧ y.revision = x.revision ∧ y.stateRevision = x.stateRevision ∧
      y.body = x.body ∧ y.state = x.state

theorem Record.item_spec (codec : Codec β) (hhonest : r.Honest old)
    (hold : ∀ x, old = some x → x.key = r.key ∧ x.revision < sequence) :
    (r.item codec old sequence).key = r.key ∧ (r.item codec old sequence).body = r.body ∧
      (r.item codec old sequence).state = r.state ∧
      (r.item codec old sequence).Renews old sequence := by
  obtain ⟨hbody, hrevision⟩ := Record.saved_spec codec sequence hhonest
  unfold Record.item
  dsimp only
  split
  · next x =>
    obtain ⟨hkey, hlt⟩ := hold x rfl
    split
    · next hsame =>
      have hx : x.body = r.body := by
        rcases hrevision with hnew | ⟨y, hy, -, hbody⟩
        · exact absurd (hsame.1.trans hnew) hlt.ne
        · cases hy
          exact hbody
      have hkept : x.body = (r.saved codec (some x) sequence).2 := hx.trans hbody.symm
      split
      · exact ⟨hkey, hbody, hsame.2, Or.inr ⟨x, rfl, rfl, hkept⟩,
          Or.inr ⟨x, rfl, rfl, rfl, hkept, rfl⟩⟩
      · exact ⟨hkey, hbody, hsame.2, Or.inr ⟨x, rfl, rfl, hkept⟩, Or.inl rfl⟩
    · refine ⟨rfl, hbody, rfl, ?_, Or.inl rfl⟩
      rcases hrevision with hnew | ⟨y, hy, hsaved, hy'⟩
      · exact Or.inl hnew
      · exact Or.inr ⟨y, hy, hsaved.symm, hy'.trans hbody.symm⟩
  · refine ⟨rfl, hbody, rfl, ?_, Or.inl rfl⟩
    rcases hrevision with hnew | ⟨y, hy, -⟩
    · exact Or.inl hnew
    · cases hy

end

/-! ## the rows of a publication -/

/-- Rows that are not newer than a publication have their place among earlier ones. -/
structure Rows (items records : List (Item β)) (sequence : Nat) : Prop where
  body : ∀ x ∈ items, x.revision = sequence ∨
    ∃ y ∈ records, y.key = x.key ∧ y.revision = x.revision ∧ y.body = x.body
  state : ∀ x ∈ items, x.stateRevision = sequence ∨
    ∃ y ∈ records, y.key = x.key ∧ y.revision = x.revision ∧ y.stateRevision = x.stateRevision ∧
      y.body = x.body ∧ y.state = x.state

section

variable {old : List (Item β)} {sequence : Nat} {records : List (Record β)}

def Honest (old : List (Item β)) (records : List (Record β)) : Prop :=
  ∀ r ∈ records, r.Honest (old.find? fun x => x.key = r.key)

theorem former {key : Channel.Key} {x : Item β} (h : old.find? (fun x => x.key = key) = some x) :
    x ∈ old ∧ x.key = key :=
  ⟨mem_of_find?_eq_some h, by simpa using find?_some h⟩

theorem itemsOf_spec (codec : Codec β) (hhonest : Honest old records)
    (hold : ∀ x ∈ old, x.revision < sequence) :
    (itemsOf codec old sequence records).map (fun x => (x.key, x.body, x.state)) =
        records.map (fun r => (r.key, r.body, r.state)) ∧
      Rows (itemsOf codec old sequence records) old sequence := by
  have hitem (r : Record β) (hr : r ∈ records) := Record.item_spec codec (hhonest r hr)
    fun x hx => ⟨(former hx).2, hold x (former hx).1⟩
  refine ⟨?_, fun x hx => ?_, fun x hx => ?_⟩
  · unfold itemsOf
    rw [List.map_map]
    refine map_congr_left fun r hr => ?_
    obtain ⟨hkey, hbody, hstate, -⟩ := hitem r hr
    simp only [Function.comp_apply, hkey, hbody, hstate]
  · obtain ⟨r, hr, rfl⟩ := List.mem_map.mp hx
    obtain ⟨hkey, -, -, hrenews⟩ := hitem r hr
    rcases hrenews.body with hnew | ⟨y, hy, hrest⟩
    · exact Or.inl hnew
    · exact Or.inr ⟨y, (former hy).1, (former hy).2.trans hkey.symm, hrest⟩
  · obtain ⟨r, hr, rfl⟩ := List.mem_map.mp hx
    obtain ⟨hkey, -, -, hrenews⟩ := hitem r hr
    rcases hrenews.state with hnew | ⟨y, hy, hrest⟩
    · exact Or.inl hnew
    · exact Or.inr ⟨y, (former hy).1, (former hy).2.trans hkey.symm, hrest⟩

end

/-! ## a publication -/

/-- What an earlier publication of the epoch has of a later one. -/
structure Live.Follows (l₀ l : Live β) : Prop where
  sequence : l₀.identity.2 ≤ l.identity.2
  body : ∀ x ∈ l.sessions, x.revision ≤ l₀.identity.2 →
    ∃ y ∈ l₀.sessions, y.key = x.key ∧ y.revision = x.revision ∧ y.body = x.body
  state : ∀ x ∈ l.sessions, x.stateRevision ≤ l₀.identity.2 →
    ∃ y ∈ l₀.sessions, y.key = x.key ∧ y.revision = x.revision ∧ y.stateRevision = x.stateRevision ∧
      y.body = x.body ∧ y.state = x.state
  activity : ∀ x ∈ l.activities, x.revision ≤ l₀.identity.2 →
    ∃ y ∈ l₀.activities, y.key = x.key ∧ y.revision = x.revision ∧ y.body = x.body
  membership : l.membershipRevision ≤ l₀.identity.2 →
    l₀.membershipRevision = l.membershipRevision ∧
      l₀.sessions.map (·.key) = l.sessions.map (·.key) ∧
      l₀.activities.map (·.key) = l.activities.map (·.key) ∧
      l₀.activitiesPresent = l.activitiesPresent

theorem Live.Follows.refl (l : Live β) : l.Follows l :=
  ⟨le_rfl, fun x hx _ => ⟨x, hx, rfl, rfl, rfl⟩, fun x hx _ => ⟨x, hx, rfl, rfl, rfl, rfl, rfl⟩,
    fun x hx _ => ⟨x, hx, rfl, rfl, rfl⟩, fun _ => ⟨rfl, rfl, rfl, rfl⟩⟩

theorem Live.Follows.trans {l₀ l₁ l : Live β} (h₀ : l₀.Follows l₁) (h : l₁.Follows l) :
    l₀.Follows l := by
  have hle := h₀.sequence
  refine ⟨hle.trans h.sequence, fun x hx hrevision => ?_, fun x hx hrevision => ?_,
    fun x hx hrevision => ?_, fun hmembership => ?_⟩
  · obtain ⟨y, hy, hkey, hsame, hbody⟩ := h.body x hx (hrevision.trans hle)
    obtain ⟨z, hz, hkey', hsame', hbody'⟩ := h₀.body y hy (hsame ▸ hrevision)
    exact ⟨z, hz, hkey'.trans hkey, hsame'.trans hsame, hbody'.trans hbody⟩
  · obtain ⟨y, hy, hkey, hrev, hsame, hbody, hstate⟩ := h.state x hx (hrevision.trans hle)
    obtain ⟨z, hz, hkey', hrev', hsame', hbody', hstate'⟩ := h₀.state y hy (hsame ▸ hrevision)
    exact ⟨z, hz, hkey'.trans hkey, hrev'.trans hrev, hsame'.trans hsame, hbody'.trans hbody,
      hstate'.trans hstate⟩
  · obtain ⟨y, hy, hkey, hsame, hbody⟩ := h.activity x hx (hrevision.trans hle)
    obtain ⟨z, hz, hkey', hsame', hbody'⟩ := h₀.activity y hy (hsame ▸ hrevision)
    exact ⟨z, hz, hkey'.trans hkey, hsame'.trans hsame, hbody'.trans hbody⟩
  · obtain ⟨hsame, hsessions, hactivities, hpresent⟩ := h.membership (hmembership.trans hle)
    obtain ⟨hsame', hsessions', hactivities', hpresent'⟩ := h₀.membership (hsame ▸ hmembership)
    exact ⟨hsame'.trans hsame, hsessions'.trans hsessions, hactivities'.trans hactivities,
      hpresent'.trans hpresent⟩

/-- What holds of every publication. -/
structure Live.Sound (l : Live β) : Prop where
  sessions : (l.sessions.map (·.key)).Nodup
  activities : (l.activities.map (·.key)).Nodup
  session_le : ∀ x ∈ l.sessions, x.revision ≤ l.identity.2
  activity_le : ∀ x ∈ l.activities, x.revision ≤ l.identity.2
  absent : l.activitiesPresent = false → l.activities = []

/-- A publication has the rows of its snapshot. -/
structure Live.Shows (l : Live β) (s : Snapshot β) : Prop where
  sessions : l.sessions.map (fun x => (x.key, x.body, x.state)) =
    s.sessions.map fun r => (r.key, r.body, r.state)
  activities : l.activities.map (fun x => (x.key, x.body)) =
    (s.activities.getD []).map fun r => (r.key, r.body)
  present : l.activitiesPresent = s.activities.isSome
  loading : l.loading = s.loading

/-- The tokens of a snapshot are honest: one that is the last publication's is of the
same body, or of the same activities. -/
structure Snapshot.Honest (s : Snapshot β) (previous : Option (Live β)) : Prop where
  sessions : Delta.Honest (previous.elim [] (·.sessions)) s.sessions
  activities : Delta.Honest (previous.elim [] (·.activities)) (s.activities.getD [])
  certified : s.activitiesCertified = true → ∀ l, previous = some l →
    l.activitiesPresent = s.activities.isSome →
      l.activities.map (fun x => (x.key, x.body)) =
        (s.activities.getD []).map fun r => (r.key, r.body)

theorem Rows.le {items old : List (Item β)} {sequence : Nat} (h : Rows items old sequence)
    (hold : ∀ x ∈ old, x.revision < sequence) : ∀ x ∈ items, x.revision ≤ sequence := by
  intro x hx
  rcases h.body x hx with hnew | ⟨y, hy, -, hsame, -⟩
  · exact hnew.le
  · rw [← hsame]
    exact (hold y hy).le

section

variable {current : Option (Live β)} {snapshot : Snapshot β} {identity : Identity}

def Before (previous : Option (Live β)) (sequence : Nat) : Prop :=
  ∀ l, previous = some l → l.Sound ∧ l.identity.2 < sequence

variable {previous : Option (Live β)}

theorem Before.session_lt {sequence : Nat} (h : Before previous sequence) :
    ∀ x ∈ previous.elim [] (·.sessions), x.revision < sequence := by
  intro x hx
  cases previous with
  | none => cases hx
  | some l =>
    obtain ⟨hsound, hlt⟩ := h l rfl
    exact (hsound.session_le x hx).trans_lt hlt

theorem Before.activity_lt {sequence : Nat} (h : Before previous sequence) :
    ∀ x ∈ previous.elim [] (·.activities), x.revision < sequence := by
  intro x hx
  cases previous with
  | none => cases hx
  | some l =>
    obtain ⟨hsound, hlt⟩ := h l rfl
    exact (hsound.activity_le x hx).trans_lt hlt

theorem activities_spec (codec : Codec β) (hbefore : Before previous identity.2)
    (hhonest : snapshot.Honest previous) :
    let activities :=
      if previous.any fun l => snapshot.activitiesCertified &&
          l.activitiesPresent == snapshot.activities.isSome then
        previous.elim [] (·.activities)
      else itemsOf codec (previous.elim [] (·.activities)) identity.2 (snapshot.activities.getD [])
    activities.map (fun x => (x.key, x.body)) =
        (snapshot.activities.getD []).map (fun r => (r.key, r.body)) ∧
      ∀ x ∈ activities, x.revision = identity.2 ∨
        ∃ y ∈ previous.elim [] (·.activities), y.key = x.key ∧ y.revision = x.revision ∧
          y.body = x.body := by
  dsimp only
  split
  · next hcertified =>
    cases previous with
    | none => cases hcertified
    | some l =>
      simp only [Option.any_some, Bool.and_eq_true, beq_iff_eq] at hcertified
      exact ⟨hhonest.certified hcertified.1 l rfl hcertified.2,
        fun x hx => Or.inr ⟨x, hx, rfl, rfl, rfl⟩⟩
  · obtain ⟨hmap, hrows⟩ := itemsOf_spec codec hhonest.activities hbefore.activity_lt
    refine ⟨?_, hrows.body⟩
    have hpairs := congrArg (List.map fun t : Channel.Key × β × Json => (t.1, t.2.1)) hmap
    simpa only [List.map_map, Function.comp_def] using hpairs

theorem prepare_spec (codec : Codec β)
    (hsound : ∀ l, current = some l → l.Sound ∧ (l.identity.1 = identity.1 → l.identity.2 < identity.2))
    (hhonest : snapshot.Honest (Live.inEpoch current identity.1)) :
    (prepare codec current snapshot identity).Sound ∧
      (prepare codec current snapshot identity).Shows snapshot ∧
      ∀ l, current = some l → l.identity.1 = identity.1 →
        l.Follows (prepare codec current snapshot identity) := by
  have hbefore : Before (Live.inEpoch current identity.1) identity.2 := by
    intro l hl
    obtain ⟨hcurrent, hepoch⟩ := Option.filter_eq_some_iff.mp hl
    obtain ⟨hl', hlater⟩ := hsound l hcurrent
    exact ⟨hl', hlater (by simpa using hepoch)⟩
  have hsame (l : Live β) (hl : current = some l) (hepoch : l.identity.1 = identity.1) :
      Live.inEpoch current identity.1 = some l := by
    rw [hl, Live.inEpoch, Option.filter_some, if_pos (by simp [hepoch])]
  have hactivities := activities_spec codec hbefore hhonest
  obtain ⟨hmap, hrows⟩ := itemsOf_spec codec hhonest.sessions hbefore.session_lt
  unfold prepare
  dsimp only at hactivities ⊢
  generalize Live.inEpoch current identity.1 = previous at *
  generalize itemsOf codec (previous.elim [] (·.sessions)) identity.2 snapshot.sessions = items at *
  generalize (if (previous.any _) = true then _ else _ : List (Item β)) = activities at *
  obtain ⟨hpairs, hnewer⟩ := hactivities
  have hkeys : items.map (·.key) = snapshot.sessions.map (·.key) := by
    have := congrArg (List.map Prod.fst) hmap
    simpa only [List.map_map, Function.comp_def] using this
  have hactivityKeys : activities.map (·.key) = (snapshot.activities.getD []).map (·.key) := by
    have := congrArg (List.map Prod.fst) hpairs
    simpa only [List.map_map, Function.comp_def] using this
  refine ⟨⟨hkeys ▸ snapshot.distinct, hactivityKeys ▸ snapshot.activitiesDistinct,
    hrows.le hbefore.session_lt, fun x hx => ?_, fun hpresent => ?_⟩, ⟨hmap, hpairs, rfl, rfl⟩,
    fun l hl hepoch => ?_⟩
  · rcases hnewer x hx with hnew | ⟨y, hy, -, hrevision, -⟩
    · exact hnew.le
    · rw [← hrevision]
      exact (hbefore.activity_lt y hy).le
  · have hnone : snapshot.activities = none := by simpa using hpresent
    rw [hnone] at hactivityKeys
    exact map_eq_nil_iff.mp hactivityKeys
  · obtain rfl := hsame l hl hepoch
    obtain ⟨-, hlt⟩ := hbefore l rfl
    refine ⟨hlt.le, fun x hx hle => ?_, fun x hx hle => ?_, fun x hx hle => ?_, fun hle => ?_⟩
    · rcases hrows.body x hx with hnew | hold
      · exact absurd (hnew ▸ hle) (not_le.mpr hlt)
      · exact hold
    · rcases hrows.state x hx with hnew | hold
      · exact absurd (hnew ▸ hle) (not_le.mpr hlt)
      · exact hold
    · rcases hnewer x hx with hnew | hold
      · exact absurd (hnew ▸ hle) (not_le.mpr hlt)
      · exact hold
    · dsimp only at hle ⊢
      split at hle
      · exact absurd hle (not_le.mpr hlt)
      · next hsame =>
        simp only [ne_eq, not_or, not_not] at hsame
        rw [if_neg (by simpa using hsame)]
        exact ⟨rfl, hsame.1.symm, hsame.2.1.symm, hsame.2.2.symm⟩

end

end Codexon.Delta
