import Codexon.CacheHealth.Resume

/-!
# Codexon.CacheHealth.Splits

A history read in two parts: the saved state after the first part, continued
over the second, is the saved state of the whole, and its changes complete the
stored incidents.  A `Health` never fails to find the ordinal of a key, since
each key it looks up belongs to a row at hand or to the incident's baseline.
-/

namespace Codexon.Caching

open List

/-! ## looking up ordinals -/

theorem get?_update (ord : PyStr → Nat) {pairs : List (PyStr × Nat)}
    (hpairs : ∀ p ∈ pairs, p.2 = ord p.1) (d : Dict PyStr Nat) {key : PyStr}
    (hkey : key ∈ pairs.map Prod.fst ∨ d.get? key = some (ord key)) :
    (Dict.update d pairs).get? key = some (ord key) := by
  induction pairs generalizing d with
  | nil => simpa [Dict.update] using hkey
  | cons p pairs ih =>
    have hp : p.2 = ord p.1 := hpairs p mem_cons_self
    refine ih (fun q hq => hpairs q (mem_cons_of_mem p hq)) (d.set p.1 p.2) ?_
    rw [Dict.get?_set]
    by_cases hsame : key = p.1
    · refine Or.inr ?_
      rw [if_pos hsame, hp, hsame]
    · rw [if_neg hsame]
      refine hkey.imp_left fun hmem => ?_
      exact (mem_cons.mp hmem).resolve_left hsame

theorem pick_eq {f : PyStr → Option Nat} (ord : PyStr → Nat) {keys : List PyStr}
    (hkeys : ∀ key ∈ keys, f key = some (ord key)) :
    pick f keys = .ok (keys.map fun key => (key, ord key)) := by
  induction keys with
  | nil => rfl
  | cons key keys ih =>
    have hhead := hkeys key mem_cons_self
    have htail := ih fun k hk => hkeys k (mem_cons_of_mem key hk)
    unfold pick at htail ⊢
    rw [mapM_cons, hhead, htail]
    rfl

namespace Health

/-! ## the keys that join -/

theorem get?_join (h : Health) (id : PyStr) (pairs : List (PyStr × Nat)) (id' : PyStr) :
    ((h.join id pairs).members.get? id').getD [] =
      (h.members.get? id').getD [] ++ if id' = id then pairs else [] := by
  induction pairs generalizing h with
  | nil => simp [join]
  | cons p pairs ih =>
    refine (ih _).trans ?_
    dsimp only
    rw [Dict.get?_set]
    by_cases hid : id' = id
    · rw [if_pos hid, if_pos hid, if_pos hid, hid]
      simp
    · rw [if_neg hid, if_neg hid, if_neg hid]

/-! ## one row -/

/-- **The invariant of a continuation**: `h` continues the classifier `s` over
`prior`, the incidents stored when it was loaded. -/
structure Continues (ord : PyStr → Nat) (prior : List Incident) (s : CacheHealth Call)
    (recent : List Call) (h : Health) : Prop where
  reducer_eq : h.reducer = retained s
  recent_eq : h.recent = recent.map healthRow
  positions : ∀ e, s.incident = some e →
    h.incidentPositions.entries = e.baselineKeys.map fun key => (key, ord key)
  members : ∀ (i : Nat) (e : Incident), s.events[i]? = some e → e.occurrenceKeys.list =
    (prior[i]?.map (·.occurrenceKeys.list)).getD [] ++
      ((h.members.get? e.id).getD []).map Prod.fst
  foreign : ∀ id, (∀ e ∈ s.events, e.id ≠ id) → (h.members.get? id).getD [] = []
  changed : ∀ (i : Nat) (e : Incident), s.events[i]? = some e →
    (∃ change, h.changed.get? e.id = some change ∧ change.ordinal = i ∧
      change.event = tallied e) ∨ (h.changed.get? e.id = none ∧ prior[i]? = some e)
  placed : ∀ (id : PyStr) (change : Change), h.changed.get? id = some change →
    ∃ e, s.events[change.ordinal]? = some e ∧ e.id = id
  prior_le : prior.length ≤ s.events.length

variable {ord : PyStr → Nat} {prior : List Incident} {s : CacheHealth Call} {seen recent : List Call}
  {h : Health} {c : Call}

theorem found_eq {seen : List Call} {s : CacheHealth Call} (hsound : CacheHealth.Sound seen s)
    (hord : ∀ r ∈ seen, r.sessionOrdinal = ord (keyOf r)) {recent : List Call}
    (hrecent : recent.Sublist seen) (hc : c ∈ seen) {key : PyStr}
    (hkey : key = keyOf c ∨ key ∈ s.baseline.map keyOf ∨ key ∈ s.candidateRows.map keyOf ∨
      key ∈ s.recoveryRows.map keyOf) :
    (positions (retained s) (recent.map healthRow) (healthRow c)).get? key = some (ord key) := by
  unfold positions
  refine get?_update ord ?_ {} (Or.inl ?_)
  · intro p hp
    obtain ⟨r, hr, rfl⟩ := List.mem_map.mp hp
    have hplaced : ∀ r ∈ seen, (healthRow r).ordinal = ord (healthRow r).key := hord
    rcases mem_cons.mp hr with rfl | hr
    · exact hplaced c hc
    · simp only [retained, mem_append, or_assoc, List.mem_map] at hr
      rcases hr with ⟨q, hq, rfl⟩ | ⟨q, hq, rfl⟩ | ⟨q, hq, rfl⟩ | ⟨q, hq, rfl⟩
      · exact hplaced q (hsound.baseline_sublist.subset hq)
      · exact hplaced q (hsound.candidate_sublist.subset hq)
      · exact hplaced q (hsound.recovery_sublist.subset hq)
      · exact hplaced q (hrecent.subset hq)
  · simp only [retained, List.map_map, map_cons, map_append, mem_cons,
      mem_append]
    rcases hkey with hkey | hkey | hkey | hkey
    · exact Or.inl hkey
    · exact Or.inr (Or.inl (Or.inl (Or.inl hkey)))
    · exact Or.inr (Or.inl (Or.inl (Or.inr hkey)))
    · exact Or.inr (Or.inl (Or.inr hkey))

theorem events_eq {s s' : CacheHealth Call} {e' : Incident} (heffect : CacheHealth.Effect s s')
    (hsound' : CacheHealth.Sound (seen ++ [c]) s') (hincident : s'.incident = some e') :
    s'.events[s'.count - 1]? = some e' ∧ 0 < s'.count ∧
      (∀ i e, i ≠ s'.count - 1 → s'.events[i]? = some e → s.events[i]? = some e) := by
  obtain ⟨earlier, hevents⟩ := hsound'.linked e' hincident
  have hcount : s'.count = earlier.length + 1 := by
    rw [hsound'.count_eq, hevents]
    simp
  refine ⟨by simp [hevents, hcount], by omega, fun i e hi he => ?_⟩
  have hbefore : earlier[i]? = some e := by
    rw [hevents, List.getElem?_append] at he
    split at he
    · exact he
    · rw [List.getElem?_singleton] at he
      split at he
      · omega
      · cases he
  cases heffect with
  | quiet _ hsame => exact hsame ▸ he
  | amends e₁ e₂ earlier₁ _ _ _ hold hnew =>
    have hsame : earlier₁ = earlier :=
      (append_inj' (hnew.symm.trans hevents) rfl).1
    rw [hold, hsame, List.getElem?_append_left]
    · exact hbefore
    · exact (List.getElem?_eq_some_iff.mp hbefore).1
  | opens e₁ _ _ hnew =>
    have hsame : s.events = earlier := (append_inj' (hnew.symm.trans hevents) rfl).1
    rw [hsame]
    exact hbefore

theorem add_of_incident {h : Health} (heligible : c.eligible) {r : CacheHealth Kept}
    (hr : h.reducer.consume (healthRow c) = r) {e : Incident} (he : r.incident = some e)
    {found ip : Dict PyStr Nat} {joined : List (PyStr × Nat)} {changed : Dict PyStr Change}
    (hfound : positions r (pushFive h.recent (healthRow c)) (healthRow c) = found)
    (hpositions : h.basePositions (decide (r.count ≠ h.reducer.count)) found e = .ok ip)
    (hjoined : pick (Dict.update found ip.entries).get? e.occurrenceKeys.kept.list = .ok joined)
    (hchanged : (if e.occurrenceKeys.kept.list ≠ [] ∨ r.recoveryRows ≠ [] ∨
        decide (r.count ≠ h.reducer.count) = true then
      h.register r (Dict.update found ip.entries) (handedOver e) else .ok h.changed) = .ok changed) :
    h.add c = .ok { h.join e.id joined with
      reducer := { r with incident := some (handedOver e), events := [] }
      recent := pushFive h.recent (healthRow c)
      incidentPositions := ip, changed } := by
  unfold add
  rw [if_pos heligible]
  dsimp only
  rw [hr, he]
  dsimp only
  rw [hfound, hpositions]
  simp only [bind, Except.bind]
  rw [hjoined]
  dsimp only
  unfold handedOver at hchanged
  rw [hchanged]
  rfl

theorem ids_prefix {s s' : CacheHealth Call} (heffect : CacheHealth.Effect s s') :
    s.events.map (·.id) <+: s'.events.map (·.id) := by
  cases heffect with
  | quiet _ hsame =>
    simp [hsame]
  | amends _ _ _ _ _ _ hold hnew hid =>
    simp [hold, hnew, hid]
  | opens _ _ _ hnew =>
    rw [hnew, map_append]
    exact prefix_append _ _

theorem id_at {s s' : CacheHealth Call} (heffect : CacheHealth.Effect s s') {i : Nat}
    {e : Incident} (he : s.events[i]? = some e) : ∃ e', s'.events[i]? = some e' ∧ e'.id = e.id := by
  have hid : (s.events.map (·.id))[i]? = some e.id := by rw [List.getElem?_map, he]; rfl
  obtain ⟨later, hlater⟩ := ids_prefix heffect
  have hid' : (s'.events.map (·.id))[i]? = some e.id := by
    rw [← hlater, List.getElem?_append_left (List.getElem?_eq_some_iff.mp hid).1]
    exact hid
  rw [List.getElem?_map] at hid'
  exact Option.map_eq_some_iff.mp hid'

theorem place_eq {events : List Incident} (hnodup : (events.map (·.id)).Nodup) {i j : Nat}
    {e e' : Incident} (he : events[i]? = some e) (he' : events[j]? = some e')
    (hid : e.id = e'.id) : i = j := by
  have hi : (events.map (·.id))[i]? = some e.id := by rw [List.getElem?_map, he]; rfl
  have hj : (events.map (·.id))[j]? = some e.id := by rw [List.getElem?_map, he', hid]; rfl
  have hlt : i < (events.map (·.id)).length := (List.getElem?_eq_some_iff.mp hi).1
  exact (List.getElem?_inj hlt hnodup).mp (hi.trans hj.symm)

theorem same_incident {s s' : CacheHealth Call} (heffect : CacheHealth.Effect s s')
    (hsound : CacheHealth.Sound seen s) {e' : Incident} (hincident : s'.incident = some e')
    (hcount : s'.count = s.count) : ∃ e, s.incident = some e ∧ e.id = e'.id ∧
      e.baselineKeys = e'.baselineKeys ∧ s.events[s'.count - 1]? = some e ∧
      (e' = e ∨ e.occurrenceKeys.len < e'.occurrenceKeys.len ∨ s'.recoveryRows ≠ []) := by
  have hplace : ∀ e, s.incident = some e → s.events[s'.count - 1]? = some e := by
    intro e he
    obtain ⟨earlier, hevents⟩ := hsound.linked e he
    rw [hcount, hsound.count_eq, hevents]
    simp
  cases heffect with
  | quiet _ _ hsame =>
    rcases hsame with hnone | hsame
    · cases hnone.symm.trans hincident
    · have he := hsame.symm.trans hincident
      exact ⟨e', he, rfl, rfl, hplace e' he, Or.inl rfl⟩
  | amends e e₁ _ _ he he₁ _ _ hid hbaseline hmarked =>
    obtain rfl := Option.some.inj (he₁.symm.trans hincident)
    exact ⟨e, he, hid.symm, hbaseline.symm, hplace e he, hmarked⟩
  | opens _ hgrown => omega

theorem new_incident {s s' : CacheHealth Call} (heffect : CacheHealth.Effect s s')
    {e' : Incident} (hincident : s'.incident = some e') (hcount : s'.count ≠ s.count) :
    e'.baselineKeys = s'.baseline.map keyOf ∧ s'.events = s.events ++ [e'] ∧
      s'.count = s.count + 1 := by
  cases heffect with
  | quiet hsame => exact absurd hsame hcount
  | amends _ _ _ hsame => exact absurd hsame hcount
  | opens e₁ hgrown he₁ hnew hbaseline =>
    obtain rfl := Option.some.inj (he₁.symm.trans hincident)
    exact ⟨hbaseline, hnew, hgrown⟩

section Step

variable (hcontinues : Continues ord prior s recent h) (hsound : CacheHealth.Sound seen s)
  (hkeys : ((seen ++ [c]).map keyOf).Nodup)
  (hord : ∀ r ∈ seen ++ [c], r.sessionOrdinal = ord (keyOf r))
  (hrecent : recent.Sublist seen)

include hcontinues hsound hkeys hord hrecent

theorem basePositions_eq {e : Incident} {e' : Incident}
    (hincident : (s.consume c).incident = some e') (he : e.baselineKeys = e'.baselineKeys) :
    ∃ ip, h.basePositions (decide ((s.consume c).count ≠ s.count))
        (positions (retained (s.consume c)) ((pushFive recent c).map healthRow) (healthRow c)) e =
          .ok ip ∧ ip.entries = e'.baselineKeys.map fun key => (key, ord key) := by
  have heffect := CacheHealth.consume_effect hsound c
  have hsound' := hsound.consume c
  unfold basePositions
  by_cases hcount : (s.consume c).count = s.count
  · obtain ⟨e₀, he₀, -, hbaseline, -⟩ := same_incident heffect hsound hincident hcount
    refine ⟨h.incidentPositions, by simp [hcount], ?_⟩
    rw [hcontinues.positions e₀ he₀, hbaseline]
  · have hbaseline := (new_incident heffect hincident hcount).1
    have hpick := pick_eq ord
      (f := (positions (retained (s.consume c)) ((pushFive recent c).map healthRow)
        (healthRow c)).get?) fun key (hkey : key ∈ e.baselineKeys) => by
          refine found_eq hsound' hord (pushFive_sublist hrecent) (by simp) (Or.inr (Or.inl ?_))
          rw [← hbaseline, ← he]
          exact hkey
    refine ⟨Dict.update {} (e.baselineKeys.map fun key => (key, ord key)), ?_, ?_⟩
    · rw [if_pos (by simpa using hcount), hpick]
      rfl
    · rw [Dict.entries_update, he]
      · rfl
      · have hnodup : e.baselineKeys.Nodup := by
          rw [he]
          exact hkeys.sublist (hsound'.based e' hincident)
        have hkeysOf : (e.baselineKeys.map fun key => (key, ord key)).map Prod.fst =
            e.baselineKeys := by
          rw [List.map_map]
          exact map_id _
        rw [hkeysOf]
        exact hnodup

theorem add_eq (heligible : c.eligible) {e' : Incident}
    (hincident : (s.consume c).incident = some e') :
    ∃ h' new changed, h.add c = .ok h' ∧ h'.reducer = retained (s.consume c) ∧
      h'.recent = (pushFive recent c).map healthRow ∧
      h'.incidentPositions.entries = e'.baselineKeys.map (fun key => (key, ord key)) ∧
      h'.members = (h.join e'.id (new.map fun key => (key, ord key))).members ∧
      h'.changed = changed ∧ (((s.consume c).count ≠ s.count ∧ e'.occurrenceKeys = .keys new) ∨
        ((s.consume c).count = s.count ∧ ∃ e₀, s.incident = some e₀ ∧
          e'.occurrenceKeys.list = e₀.occurrenceKeys.list ++ new)) ∧
      ((∃ base recovery, changed = h.changed.set e'.id
          ⟨tallied e', (s.consume c).count - 1, base, recovery⟩) ∨
        (changed = h.changed ∧ new = [] ∧ (s.consume c).recoveryRows = [] ∧
          (s.consume c).count = s.count)) := by
  have hsound' := hsound.consume c
  obtain ⟨hretained, hgained⟩ := CacheHealth.consume_mirror hsound c
  have hr : h.reducer.consume (healthRow c) = (retained s).consume (healthRow c) := by
    rw [hcontinues.reducer_eq]
  generalize (retained s).consume (healthRow c) = r at hretained hgained hr
  have hrcount : r.count = (s.consume c).count := congrArg (·.count) hretained
  have hhcount : h.reducer.count = s.count := by
    rw [hcontinues.reducer_eq]
    rfl
  have hrows : r.recoveryRows = (s.consume c).recoveryRows.map healthRow :=
    congrArg (·.recoveryRows) hretained
  have hrincident : r.incident.map handedOver = (s.consume c).incident.map tallied :=
    congrArg (·.incident) hretained
  rw [hincident, Option.map_some, Option.map_eq_some_iff] at hrincident
  obtain ⟨e, he, htallied⟩ := hrincident
  obtain ⟨⟨e'', he'', hgrown⟩, hnamed, hrecovering⟩ := hgained e he
  obtain rfl := Option.some.inj (he''.symm.trans hincident)
  have hfixed : e.toEventFixed = e''.toEventFixed := congrArg (·.toEventFixed) htallied
  have hbaseline : e.baselineKeys = e''.baselineKeys := congrArg (·.baselineKeys) hfixed
  have hid : e.id = e''.id := congrArg (·.id) hfixed
  have hfound : positions r (pushFive h.recent (healthRow c)) (healthRow c) =
      positions (retained (s.consume c)) ((pushFive recent c).map healthRow) (healthRow c) := by
    rw [← hretained, hcontinues.recent_eq, map_pushFive]
    rfl
  obtain ⟨ip, hip, hentries⟩ := basePositions_eq hcontinues hsound hkeys hord hrecent
    hincident hbaseline
  have hat : ∀ {key : PyStr}, (key = keyOf c ∨ key ∈ (s.consume c).baseline.map keyOf ∨
      key ∈ (s.consume c).candidateRows.map keyOf ∨ key ∈ (s.consume c).recoveryRows.map keyOf) →
      (positions (retained (s.consume c)) ((pushFive recent c).map healthRow)
        (healthRow c)).get? key = some (ord key) :=
    found_eq hsound' hord (pushFive_sublist hrecent) (by simp)
  generalize positions (retained (s.consume c)) ((pushFive recent c).map healthRow)
    (healthRow c) = found at hfound hip hat
  have hlookup : ∀ key, key ∈ e''.baselineKeys ∨ found.get? key = some (ord key) →
      (Dict.update found ip.entries).get? key = some (ord key) := by
    intro key hkey
    refine get?_update ord ?_ found ?_
    · simp [hentries]
    · refine hkey.imp_left fun hmem => ?_
      rw [hentries, List.map_map]
      exact List.mem_map.mpr ⟨key, hmem, rfl⟩
  have hjoined := pick_eq (f := (Dict.update found ip.entries).get?) ord
    fun key (hkey : key ∈ e.occurrenceKeys.kept.list) => hlookup key <| Or.inr <| hat <|
      (hnamed key hkey).imp_right fun hcandidate => Or.inr (Or.inl hcandidate)
  have hbase := pick_eq (f := (Dict.update found ip.entries).get?) ord
    fun key (hkey : key ∈ e.baselineKeys) => hlookup key (Or.inl (hbaseline ▸ hkey))
  have hdecide : decide (r.count ≠ h.reducer.count) =
      decide ((s.consume c).count ≠ s.count) := by
    rw [hrcount, hhcount]
  -- A registered incident recovered with the rows at hand, or not at all.
  have hchanged : ∃ changed, (if e.occurrenceKeys.kept.list ≠ [] ∨ r.recoveryRows ≠ [] ∨
      decide (r.count ≠ h.reducer.count) = true then
        h.register r (Dict.update found ip.entries) (handedOver e) else .ok h.changed) =
          .ok changed ∧
      ((∃ base recovery, changed = h.changed.set e''.id
          ⟨tallied e'', (s.consume c).count - 1, base, recovery⟩) ∨
        (changed = h.changed ∧ e.occurrenceKeys.kept.list = [] ∧
          (s.consume c).recoveryRows = [] ∧ (s.consume c).count = s.count)) := by
    by_cases hmarked : e.occurrenceKeys.kept.list ≠ [] ∨ r.recoveryRows ≠ [] ∨
        decide (r.count ≠ h.reducer.count) = true
    · have hrecovered : ∀ key ∈ e.recoveryKeys,
          (Dict.update found ip.entries).get? key = some (ord key) := by
        have hkeysOf : e.recoveryKeys = e''.recoveryKeys := congrArg (·.recoveryKeys) hfixed
        have hheld : ∀ key ∈ (s.consume c).recoveryRows.map keyOf,
            (Dict.update found ip.entries).get? key = some (ord key) :=
          fun key hkey => hlookup key (Or.inr (hat (Or.inr (Or.inr (Or.inr hkey)))))
        rcases hsound'.recovered e'' hincident with hnone | hnone | hsome
        · simp [hkeysOf, hnone]
        · have hnew : e.occurrenceKeys.kept.list ≠ [] := by
            rcases hmarked with hnew | hrow | hcount
            · exact hnew
            · simp [hrows, hnone] at hrow
            · rw [hdecide] at hcount
              obtain ⟨hne, hnewkeys⟩ | ⟨hsame, -⟩ := hgrown
              · obtain ⟨first, second, rest, hlist, -⟩ := hsound'.formed e''
                  ((new_incident (CacheHealth.consume_effect hsound c) hincident hne).2.1 ▸
                    mem_append_right _ mem_cons_self)
                rw [hnewkeys] at hlist
                simp [Occurrences.keys.inj hlist]
              · simp [hsame] at hcount
          have hempty : e.recoveryKeys = [] :=
            (hrecovering hnew).resolve_right fun hrow => hrow hnone
          simp [hempty]
        · rw [hkeysOf, hsome]
          exact hheld
      have hrecovery := pick_eq ord hrecovered
      have hregister : h.register r (Dict.update found ip.entries) (handedOver e) =
          .ok (h.changed.set e''.id ⟨tallied e'', (s.consume c).count - 1,
            e.baselineKeys.map fun key => (key, ord key),
            e.recoveryKeys.map fun key => (key, ord key)⟩) := by
        unfold register
        show (pick _ e.baselineKeys >>= fun base => pick _ e.recoveryKeys >>= fun recovery => _) = _
        rw [hbase, hrecovery, htallied, hrcount]
        rfl
      exact ⟨_, (if_pos hmarked).trans hregister, Or.inl ⟨_, _, rfl⟩⟩
    · refine ⟨h.changed, if_neg hmarked, Or.inr ⟨rfl, ?_⟩⟩
      rw [hdecide, hrows] at hmarked
      push Not at hmarked
      refine ⟨hmarked.1, by simpa using hmarked.2.1, by simpa using hmarked.2.2⟩
  obtain ⟨changed, hregistered, hcases⟩ := hchanged
  rw [← hrcount, ← hhcount] at hip
  refine ⟨_, e.occurrenceKeys.kept.list, changed,
    add_of_incident heligible hr he hfound hip hjoined hregistered, ?_, ?_, hentries, ?_, rfl,
    hgrown, hcases⟩
  · have hsome : r.incident.map handedOver = some (handedOver e) := by rw [he]; rfl
    rw [hsome] at hretained
    exact hretained
  · rw [hcontinues.recent_eq, map_pushFive]
  · rw [hid]

omit hkeys hord hrecent in
theorem Continues.add_none (heligible : c.eligible) (hincident : (s.consume c).incident = none) :
    ∃ h', h.add c = .ok h' ∧ Continues ord prior (s.consume c) (pushFive recent c) h' := by
  obtain ⟨hretained, -⟩ := CacheHealth.consume_mirror hsound c
  have hr : h.reducer.consume (healthRow c) = (retained s).consume (healthRow c) := by
    rw [hcontinues.reducer_eq]
  generalize (retained s).consume (healthRow c) = r at hretained hr
  have he : r.incident = none := by
    have hmap := congrArg (·.incident) hretained
    simpa [retained, hincident] using hmap
  have hevents : (s.consume c).events = s.events := by
    cases CacheHealth.consume_effect hsound c with
    | quiet _ hsame => exact hsame
    | amends _ _ _ _ _ hsome => cases hsome.symm.trans hincident
    | opens _ _ hsome => cases hsome.symm.trans hincident
  refine ⟨{ h with reducer := { r with events := [] }, recent := pushFive h.recent (healthRow c) },
    ?_, ?_⟩
  · unfold add
    rw [if_pos heligible]
    dsimp only
    rw [hr, he]
  · refine ⟨?_, ?_, ?_, ?_, ?_, ?_, ?_, ?_⟩
    · have hsame : r.incident.map handedOver = r.incident := by rw [he]; rfl
      rw [hsame] at hretained
      exact hretained
    · rw [hcontinues.recent_eq, map_pushFive]
    · intro e hsome
      cases hincident.symm.trans hsome
    · rw [hevents]
      exact hcontinues.members
    · rw [hevents]
      exact hcontinues.foreign
    · rw [hevents]
      exact hcontinues.changed
    · rw [hevents]
      exact hcontinues.placed
    · rw [hevents]
      exact hcontinues.prior_le

/-- **One row keeps the continuation**, and no ordinal is missing. -/
theorem Continues.add (heligible : c.eligible) :
    ∃ h', h.add c = .ok h' ∧ Continues ord prior (s.consume c) (pushFive recent c) h' := by
  have heffect := CacheHealth.consume_effect hsound c
  have hsound' := hsound.consume c
  have hids := hsound'.ids_nodup hkeys
  cases hincident : (s.consume c).incident with
  | none => exact hcontinues.add_none hsound heligible hincident
  | some e' =>
    obtain ⟨h', new, changed, hadd, hreducer, hrecent', hpositions, hmembers, rfl, hgrown,
      hcases⟩ := add_eq hcontinues hsound hkeys hord hrecent heligible hincident
    obtain ⟨hlast, hpos, hbefore⟩ := events_eq heffect hsound' hincident
    have hjoin : ∀ id, ((h'.members.get? id).getD []) = (h.members.get? id).getD [] ++
        if id = e'.id then new.map (fun key => (key, ord key)) else [] := by
      intro id
      rw [hmembers]
      exact get?_join h e'.id _ id
    have hnames : (new.map fun key => (key, ord key)).map Prod.fst = new := by
      rw [List.map_map]
      exact map_id _
    have hother : ∀ (i : Nat) (e : Incident), i ≠ (s.consume c).count - 1 →
        (s.consume c).events[i]? = some e → e.id ≠ e'.id :=
      fun i e hi he hid => hi (place_eq hids he hlast hid)
    refine ⟨h', hadd, hreducer, hrecent', ?_, ?_, ?_, ?_, ?_, ?_⟩
    · intro e he
      obtain rfl := Option.some.inj (he.symm.trans hincident)
      exact hpositions
    · intro i e he
      rw [hjoin]
      by_cases hi : i = (s.consume c).count - 1
      · obtain rfl : e = e' := Option.some.inj (he.symm.trans (hi ▸ hlast))
        rw [if_pos rfl, map_append, hnames]
        rcases hgrown with ⟨hcount, hkeysOf⟩ | ⟨hcount, e₀, he₀, hlist⟩
        · -- A new incident: nothing is stored at its place or under its id.
          obtain ⟨-, hevents, hnext⟩ := new_incident heffect hincident hcount
          have hplace : s.events.length ≤ i := by rw [hi, hnext, hsound.count_eq]; omega
          have hprior : prior[i]? = none :=
            List.getElem?_eq_none (hcontinues.prior_le.trans hplace)
          have hforeign := hcontinues.foreign e.id fun x hx hid => by
            rw [hevents, map_append] at hids
            exact (nodup_append.mp hids).2.2 x.id (List.mem_map.mpr ⟨x, hx, rfl⟩) e.id
              (by simp) hid
          rw [hkeysOf, hprior, hforeign]
          rfl
        · obtain ⟨e₁, he₁, hid, -, hold, -⟩ := same_incident heffect hsound hincident hcount
          obtain rfl := Option.some.inj (he₀.symm.trans he₁)
          have hstored := hcontinues.members _ _ hold
          rw [hlist, hstored, hid, hi, append_assoc]
      · rw [if_neg (hother i e hi he), List.append_nil]
        exact hcontinues.members i e (hbefore i e hi he)
    · intro id hid
      rw [hjoin, if_neg fun hsame => hid e' (mem_of_getElem? hlast) hsame.symm, List.append_nil]
      refine hcontinues.foreign id fun e he hsame => ?_
      obtain ⟨i, hi, hget⟩ := List.getElem_of_mem he
      obtain ⟨e₁, he₁, hid₁⟩ := id_at heffect (List.getElem?_eq_some_iff.mpr ⟨hi, hget⟩)
      exact hid e₁ (mem_of_getElem? he₁) (hid₁.trans hsame)
    · intro i e he
      by_cases hi : i = (s.consume c).count - 1
      · obtain rfl : e = e' := Option.some.inj (he.symm.trans (hi ▸ hlast))
        rcases hcases with ⟨base, recovery, hset⟩ | ⟨hsame, hnew, hrows, hcount⟩
        · refine Or.inl ⟨⟨tallied e, (s.consume c).count - 1, base, recovery⟩, ?_, hi.symm, rfl⟩
          rw [hset, Dict.get?_set, if_pos rfl]
        · -- Neither a new key nor a recovery: the incident is as it was.
          obtain ⟨e₀, he₀, hid, -, hold, hmarked⟩ :=
            same_incident heffect hsound hincident hcount
          have hunchanged : e = e₀ := by
            rcases hmarked with hsame | hlen | hrow
            · exact hsame
            · obtain ⟨hne, -⟩ | ⟨-, e₁, he₁, hlist⟩ := hgrown
              · exact absurd hcount hne
              · obtain rfl := Option.some.inj (he₀.symm.trans he₁)
                obtain ⟨_, _, _, hkeys₀, -⟩ := hsound.formed e₀ (mem_of_getElem? hold)
                obtain ⟨_, _, _, hkeys₁, -⟩ := hsound'.formed e (mem_of_getElem? he)
                rw [hnew, List.append_nil, hkeys₀, hkeys₁] at hlist
                rw [hkeys₀, hkeys₁] at hlen
                have := congrArg List.length hlist
                simp only [Occurrences.len, Occurrences.list] at hlen this
                omega
            · exact absurd hrows hrow
          rw [hsame, hunchanged, hi]
          exact hcontinues.changed _ _ hold
      · have hne := hother i e hi he
        have hget : h'.changed.get? e.id = h.changed.get? e.id := by
          rcases hcases with ⟨base, recovery, hset⟩ | ⟨hsame, -⟩
          · rw [hset, Dict.get?_set, if_neg hne]
          · rw [hsame]
        rw [hget]
        exact hcontinues.changed i e (hbefore i e hi he)
    · intro id change hchange
      have hkept : h.changed.get? id = some change →
          ∃ e, (s.consume c).events[change.ordinal]? = some e ∧ e.id = id := by
        intro hold
        obtain ⟨e, he, hid⟩ := hcontinues.placed id change hold
        obtain ⟨e₁, he₁, hid₁⟩ := id_at heffect he
        exact ⟨e₁, he₁, hid₁.trans hid⟩
      rcases hcases with ⟨base, recovery, hset⟩ | ⟨hsame, -⟩
      · rw [hset, Dict.get?_set] at hchange
        split at hchange
        case isTrue hid =>
          obtain rfl := Option.some.inj hchange
          exact ⟨e', hlast, hid.symm⟩
        case isFalse => exact hkept hchange
      · rw [hsame] at hchange
        exact hkept hchange
    · obtain ⟨later, hlater⟩ := ids_prefix heffect
      have hlength := congrArg List.length hlater
      simp only [length_append, length_map] at hlength
      have := hcontinues.prior_le
      omega

end Step

end Health

end Codexon.Caching
