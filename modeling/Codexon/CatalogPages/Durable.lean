import Codexon.CatalogPages.Follow

/-!
# Codexon.CatalogPages.Durable

Why a catalog's identity may be carried over to a later publication: in one
epoch a revision stands for one body (`Live.Sound`), and a publication that
changes a body, a place or the membership has its own sequence as meaningful
revision.  So two catalogs with one `durable` commit the same
(`committed_eq_of_durable`).
-/

namespace Codexon.Catalog

open List

/-! ## one entry -/

section

variable {s : Session} {row : Row} {sequence ordinal : Nat} {old : Option Entry}

theorem Session.saved_cases (s : Session) (old : Option Row) (sequence : Nat) :
    old = some (s.saved old sequence) ∨ (s.saved old sequence).revision = sequence := by
  unfold Session.saved
  repeat' split
  all_goals first | exact Or.inl rfl | exact Or.inr rfl

theorem Session.entry_reference (hkey : ∀ e, old = some e → e.key = s.key)
    (hdigest : ∀ e, old = some e → e.revision = row.revision → e.bodyDigest = row.bodyDigest) :
    (s.entry old row ordinal).1.reference =
      ⟨s.key.1, s.key.2, row.revision, row.bodyDigest, ordinal⟩ := by
  unfold Session.entry
  split
  · next e =>
    split
    · next hsame =>
      have hk : (e.home, e.sid) = s.key := hkey e rfl
      rw [← hk]
      exact congrArg₂ (fun revision digest => Reference.mk e.home e.sid revision digest ordinal)
        hsame.1 (hdigest e rfl hsame.1)
    · rfl
  · rfl

theorem Session.entry_unchanged (h : (s.entry old row ordinal).2 = false) :
    ∃ e, old = some e ∧ e.revision = row.revision := by
  unfold Session.entry at h
  split at h
  · next e =>
    refine ⟨e, rfl, ?_⟩
    split at h
    · next hsame => exact hsame.1
    · simp only [ne_eq, decide_eq_false_iff_not, not_or, not_not] at h
      exact h.1
  · cases h

end

/-! ## a publication -/

section

variable {δ : Type} {fingerprint : Durable → δ}

/-- What holds of the current publication. -/
structure Live.Sound (fingerprint : Durable → δ) (l : Live δ) : Prop where
  distinct : (l.content.manifest.map Entry.key).Nodup
  ordinal : ∀ (i : Nat) (e : Entry), l.content.manifest[i]? = some e → e.sourceOrdinal = i
  rows : ∀ e ∈ l.content.manifest, ∃ row, l.rows.get? e.key = some row ∧
    row.revision = e.revision ∧ row.bodyDigest = e.bodyDigest
  revision : ∀ key row, l.rows.get? key = some row → row.revision ≤ l.content.publication.2
  meaningful : l.meaningfulRevision ≤ l.content.publication.2
  durable : ∃ snapshot : Snapshot, l.durable = fingerprint (durableOf snapshot l.content.publication.1
      l.meaningfulRevision l.content.manifest) ∧ l.content.header = snapshot.header ∧
    l.content.selections = snapshot.selections.map fun s => (s.1, s.2.frozen l.content.manifest)

def Earlier (fingerprint : Durable → δ) (previous : Option (Live δ)) (sequence : Nat) : Prop :=
  ∀ l, previous = some l → l.Sound fingerprint ∧ l.content.publication.2 < sequence

variable {previous : Option (Live δ)} {sequence : Nat}

section

variable (h : Earlier fingerprint previous sequence)

include h

theorem former {key : Key} {e : Entry}
    (he : (previous.bind fun l => l.content.manifest.find? fun e => e.key = key) = some e) :
    e.key = key ∧ e.revision < sequence ∧
      ∃ row, (previous.bind fun l => l.rows.get? key) = some row ∧ row.revision = e.revision ∧
        row.bodyDigest = e.bodyDigest := by
  obtain ⟨l, hl, hfind⟩ := Option.bind_eq_some_iff.mp he
  obtain ⟨hsound, hearlier⟩ := h l hl
  have hmem := mem_of_find?_eq_some hfind
  have hkey : e.key = key := by simpa using find?_some hfind
  obtain ⟨row, hrow, hrest⟩ := hsound.rows e hmem
  refine ⟨hkey, ?_, row, ?_, hrest⟩
  · rw [← hrest.1]
    exact (hsound.revision _ row hrow).trans_lt hearlier
  · rw [hl, Option.bind_some, ← hkey, hrow]

theorem former_digest {s : Session} {e : Entry}
    (he : (previous.bind fun l => l.content.manifest.find? fun e => e.key = s.key) = some e)
    (hrevision : e.revision = (savedRow previous sequence s).revision) :
    e.bodyDigest = (savedRow previous sequence s).bodyDigest := by
  obtain ⟨-, hlt, row, hrow, -, hdigest⟩ := former h he
  rcases s.saved_cases (previous.bind fun l => l.rows.get? s.key) sequence with hkept | hnew
  · rw [hrow] at hkept
    rw [← hdigest, Option.some.inj hkept, ← hrow]
    rfl
  · exact absurd (hrevision.trans hnew) hlt.ne

theorem preparedEntry_reference (t : Session × Nat) :
    (preparedEntry previous sequence t).1.reference =
      ⟨t.1.key.1, t.1.key.2, (savedRow previous sequence t.1).revision,
        (savedRow previous sequence t.1).bodyDigest, t.2⟩ :=
  Session.entry_reference (fun _ he => (former h he).1) fun _ he hrevision =>
    former_digest h he hrevision

theorem preparedEntry_key (t : Session × Nat) :
    (preparedEntry previous sequence t).1.key = t.1.key :=
  congrArg (fun r : Reference => (r.home, r.sid)) (preparedEntry_reference h t)

theorem savedRow_le (s : Session) :
    (savedRow previous sequence s).revision ≤ sequence := by
  rcases s.saved_cases (previous.bind fun l => l.rows.get? s.key) sequence with hkept | hnew
  · obtain ⟨l, hl, hrow⟩ := Option.bind_eq_some_iff.mp hkept
    obtain ⟨hsound, hearlier⟩ := h l hl
    exact (hsound.revision _ _ hrow).trans hearlier.le
  · exact hnew.le

end

theorem getElem?_preparedEntries (previous : Option (Live δ)) (sequence : Nat)
    (sessions : List Session) (i : Nat) : (preparedEntries previous sequence sessions)[i]? =
      sessions[i]?.map fun s => preparedEntry previous sequence (s, i) := by
  unfold preparedEntries
  rw [List.getElem?_map, List.getElem?_zipIdx, Option.map_map, Nat.zero_add]
  rfl

theorem prepared_keys (h : Earlier fingerprint previous sequence) (sessions : List Session) :
    ((preparedEntries previous sequence sessions).map (·.1)).map Entry.key =
      sessions.map (·.key) := by
  refine ext_getElem? fun i => ?_
  simp only [List.getElem?_map, getElem?_preparedEntries, Option.map_map]
  congr 1
  funext s
  exact preparedEntry_key h (s, i)

theorem get?_rows (rowOf : Session → Row) {sessions : List Session}
    (hdistinct : (sessions.map (·.key)).Nodup) (d : Dict Key Row) (key : Key) :
    (sessions.foldl (fun d s => d.set s.key (rowOf s)) d).get? key =
      match sessions.find? (·.key = key) with
      | some s => some (rowOf s)
      | none => d.get? key := by
  have hfold := Dict.get?_foldl_set (fun s : Session => s.key) (fun s => some (rowOf s)) hdistinct d key
  refine hfold.trans ?_
  cases sessions.find? (·.key = key) with
  | none => rfl
  | some s => rfl

theorem nextMeaningful_le (h : Earlier fingerprint previous sequence) (snapshot : Snapshot) :
    nextMeaningful previous snapshot sequence ≤ sequence := by
  unfold nextMeaningful
  split
  · exact le_rfl
  · next l =>
    split
    · exact le_rfl
    · obtain ⟨hsound, hearlier⟩ := h l rfl
      exact hsound.meaningful.trans hearlier.le

variable {current : Option (Live δ)} {snapshot : Snapshot} {epoch : PyStr}

theorem earlier_inEpoch (h : ∀ l, current = some l → l.Sound fingerprint ∧
      (l.content.publication.1 = epoch → l.content.publication.2 < sequence)) :
    Earlier fingerprint (Live.inEpoch current epoch) sequence := by
  intro l hl
  obtain ⟨hcurrent, hepoch⟩ := Option.filter_eq_some_iff.mp hl
  obtain ⟨hsound, hearlier⟩ := h l hcurrent
  exact ⟨hsound, hearlier (by simpa using hepoch)⟩

theorem prepare_sound (h : ∀ l, current = some l → l.Sound fingerprint ∧
      (l.content.publication.1 = epoch → l.content.publication.2 < sequence)) :
    (prepare fingerprint current snapshot epoch sequence).Sound fingerprint := by
  have hearlier := earlier_inEpoch h
  unfold prepare
  generalize Live.inEpoch current epoch = previous at hearlier
  have hentry {i : Nat} {e : Entry}
      (he : ((preparedEntries previous sequence snapshot.sessions).map (·.1))[i]? = some e) :
      ∃ s ∈ snapshot.sessions, e = (preparedEntry previous sequence (s, i)).1 := by
    rw [List.getElem?_map, getElem?_preparedEntries, Option.map_map] at he
    obtain ⟨s, hs, rfl⟩ := Option.map_eq_some_iff.mp he
    exact ⟨s, mem_of_getElem? hs, rfl⟩
  refine ⟨?_, fun i e he => ?_, fun e he => ?_, fun key row hrow => ?_,
    nextMeaningful_le hearlier snapshot, ⟨snapshot, rfl, rfl, rfl⟩⟩
  · rw [prepared_keys hearlier]
    exact snapshot.distinct
  · obtain ⟨s, -, rfl⟩ := hentry he
    exact congrArg Reference.sourceOrdinal (preparedEntry_reference hearlier (s, i))
  · obtain ⟨i, hi⟩ := mem_iff_getElem?.mp he
    obtain ⟨s, hs, rfl⟩ := hentry hi
    have hreference := preparedEntry_reference hearlier (s, i)
    refine ⟨savedRow previous sequence s, ?_, (congrArg Reference.revision hreference).symm,
      (congrArg Reference.bodyDigest hreference).symm⟩
    dsimp only
    rw [get?_rows _ snapshot.distinct, preparedEntry_key hearlier,
      Dict.find?_key (fun s : Session => s.key) snapshot.distinct hs]
  · dsimp only at hrow
    rw [get?_rows _ snapshot.distinct] at hrow
    split at hrow
    · cases hrow
      exact savedRow_le hearlier _
    · cases hrow

theorem prepared_references {l : Live δ} (hsound : l.Sound fingerprint)
    (hearlier : l.content.publication.2 < sequence)
    (hentries : (preparedEntries (some l) sequence snapshot.sessions).any (·.2) = false)
    (hkeys : snapshot.sessions.map (·.key) = l.content.manifest.map Entry.key) :
    ((preparedEntries (some l) sequence snapshot.sessions).map (·.1)).map Entry.reference =
      l.content.manifest.map Entry.reference := by
  have hformer : Earlier fingerprint (some l) sequence := by
    rintro l' hl'
    cases hl'
    exact ⟨hsound, hearlier⟩
  refine ext_getElem? fun i => ?_
  have hkey : snapshot.sessions[i]?.map (·.key) = l.content.manifest[i]?.map Entry.key := by
    rw [← List.getElem?_map, hkeys, List.getElem?_map]
  simp only [List.getElem?_map, getElem?_preparedEntries, Option.map_map]
  cases hs : snapshot.sessions[i]? with
  | none =>
    rw [hs] at hkey
    rw [Option.map_eq_none_iff.mp hkey.symm]
    rfl
  | some s =>
    rw [hs] at hkey
    obtain ⟨e, he, hsame⟩ := Option.map_eq_some_iff.mp hkey.symm
    change e.key = s.key at hsame
    have hfind : l.content.manifest.find? (fun e => e.key = s.key) = some e := by
      rw [← hsame]
      exact Dict.find?_key Entry.key hsound.distinct (mem_of_getElem? he)
    have hunchanged : (preparedEntry (some l) sequence (s, i)).2 = false := by
      have hmem : preparedEntry (some l) sequence (s, i) ∈
          preparedEntries (some l) sequence snapshot.sessions := by
        refine mem_of_getElem? (i := i) ?_
        rw [getElem?_preparedEntries, hs]
        rfl
      simpa using any_eq_false.mp hentries _ hmem
    obtain ⟨e', hfind', hrevision⟩ := Session.entry_unchanged hunchanged
    obtain rfl : e = e' := Option.some.inj (hfind.symm.trans hfind')
    have hdigest := former_digest hformer (s := s) hfind hrevision
    rw [he]
    have hreference := preparedEntry_reference hformer (s, i)
    refine congrArg some (hreference.trans ?_)
    dsimp only
    rw [← hrevision, ← hdigest, ← hsame, ← hsound.ordinal i e he]
    rfl

/-- **Durably equal catalogs** commit the same. -/
theorem committed_eq_of_durable (hfingerprint : Function.Injective fingerprint) {l : Live δ}
    (hsound : l.Sound fingerprint)
    (hlater : l.content.publication.1 = epoch → l.content.publication.2 < sequence)
    (hdurable : (prepare fingerprint (some l) snapshot epoch sequence).durable = l.durable) :
    (prepare fingerprint (some l) snapshot epoch sequence).content.committed =
      l.content.committed := by
  obtain ⟨old, hold, hheader, hselections⟩ := hsound.durable
  have hsame := hfingerprint (hdurable.trans hold)
  have hepoch : epoch = l.content.publication.1 := congrArg Durable.epoch hsame
  have hprevious : Live.inEpoch (some l) epoch = some l := by
    rw [Live.inEpoch, Option.filter_some, if_pos (by simp [hepoch])]
  have hlater := hlater hepoch.symm
  unfold prepare at hsame ⊢
  rw [hprevious] at hsame ⊢
  have hrevision : nextMeaningful (some l) snapshot sequence = l.meaningfulRevision :=
    congrArg Durable.meaningfulRevision hsame
  -- a change would have the sequence as its meaningful revision
  have hquiet : ¬((preparedEntries (some l) sequence snapshot.sessions).any (·.2) ||
      membershipChanged (some l) snapshot) = true := by
    intro hchanged
    rw [nextMeaningful, if_pos hchanged] at hrevision
    have := hsound.meaningful
    omega
  simp only [Bool.or_eq_true, not_or, Bool.not_eq_true] at hquiet
  obtain ⟨hentries, hmembership⟩ := hquiet
  have hkeys : snapshot.sessions.map (·.key) = l.content.manifest.map Entry.key := by
    simp only [membershipChanged, ne_eq, Bool.or_eq_false_iff, decide_eq_false_iff_not,
      not_not] at hmembership
    exact hmembership.1.1
  have howners := prepared_references hsound hlater hentries hkeys
  have hselected := congrArg (fun d : Durable => d.selections.map fun s =>
    (s.1, s.2.membership, s.2.owners.map (·.1))) hsame
  have hlists : snapshot.header.lists = old.header.lists := by
    have hsessions : snapshot.header.sessionCatalog = old.header.sessionCatalog :=
      congrArg Durable.sessionCatalog hsame
    have hmembers : snapshot.header.demandMembers = old.header.demandMembers :=
      congrArg Durable.demandMembers hsame
    rw [Header.lists, hsessions, hmembers]
    rfl
  unfold Content.committed
  rw [hheader, hselections]
  simp only [durableOf, List.map_map] at hselected
  simp only [Committed.mk.injEq]
  refine ⟨hlists, howners, ?_⟩
  have hcontent (manifest : List Entry) :
      ((fun s : PyStr × Selection => (s.1, s.2.membership, s.2.owners.map Entry.reference)) ∘
        fun s : PyStr × Selected => (s.1, s.2.frozen manifest)) =
      ((fun s : PyStr × SelectedContent => (s.1, s.2.membership, s.2.owners.map (·.1))) ∘
        fun s : PyStr × Selected => (s.1, s.2.content manifest)) := by
    funext s
    simp only [Function.comp_apply, Selected.frozen, Selected.content, List.map_map]
    rfl
  rw [List.map_map, List.map_map, hcontent, hcontent]
  exact hselected

end

end Codexon.Catalog
