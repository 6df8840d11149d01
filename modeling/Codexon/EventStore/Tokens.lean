import Codexon.EventStore
import Codexon.Run

/-!
# Codexon.EventStore.Tokens

When an equal replay token means equal visible rows.

A statement either rotates the epoch, which no later token repeats, or keeps
the owner's session row and raises its revision whenever the owner's rows
change (`Continues`).  `Covered` is what the triggers need for that: every
record of the owner is under the session row the token reads, an inserted path
row gives no path to records its trigger does not count, and nothing else
writes the counter.
-/

namespace Codexon.EventStore

open List

namespace Store

variable {α : Type} [DecidableEq α]

/-! ## covered statements -/

def Attributed (home tid : Option α) (s : Store α) (r : RecordRow α) : Prop :=
  ∀ o ∈ s.sessions, o.owns home tid → r.sessionId = some o.id → s.ownerRow home tid = some o

/-- The triggers count what the statement changes for the owner. -/
def Covered (home tid : Option α) (s : Store α) (statement : Statement α) : Prop :=
  s.admits statement → (∀ r ∈ s.records, s.Attributed home tid r) ∧
    match statement with
    | .insertPath _ auto new => new.path.isSome →
        ∀ r ∈ s.records, r.pathId = some new.id →
          ∀ o ∈ s.sessions, o.owns home tid → r.sessionId = some o.id →
            s.replacesPath (seen auto new.id) new.path o
    | .insertRecord _ _ new => s.Attributed home tid new
    | .updateRecord seq new => (s.records.find? seq).isSome → s.Attributed home tid new
    | .updateSession id new => ∀ old ∈ s.sessions.find? id, old.owns home tid → moved old new = false →
        ∀ n ∈ new.revision, ∃ m ∈ old.revision, m ≤ n
    | _ => True

instance (home tid : Option α) (s : Store α) (r : RecordRow α) :
    Decidable (s.Attributed home tid r) :=
  inferInstanceAs (Decidable (∀ o ∈ s.sessions.rows, _))

instance (home tid : Option α) (s : Store α) : DecidablePred (s.Covered home tid)
  | .insertPath .. => inferInstanceAs (Decidable (_ → (∀ r ∈ s.records.rows, _) ∧
      (_ → ∀ r ∈ s.records.rows, _ → ∀ o ∈ s.sessions.rows, _)))
  | .insertRecord .. | .updateRecord .. | .updateSession .. | .updatePath .. | .deletePath .. |
    .insertSession .. | .deleteSession .. | .deleteRecord .. =>
      inferInstanceAs (Decidable (_ → (∀ r ∈ s.records.rows, _) ∧ _))

/-! ## the owner's rows -/

def body (s : Store α) (o : SessionRow α) : List (EventRow α) :=
  (s.records.rows.filter (·.sessionId = some o.id)).map (s.eventRow o)

variable {home tid : Option α} {s : Store α}

variable {o : SessionRow α}

theorem ownerRows_eq
    (ho : s.ownerRow home tid = some o) (hattr : ∀ r ∈ s.records, s.Attributed home tid r) :
    s.ownerRows home tid = s.body o := by
  obtain ⟨hmem, howns, -⟩ := Table.first_eq_some.mp ho
  rw [ownerRows, eventRows, body, filter_filterMap, ← filterMap_eq_map, filterMap_filter]
  refine filterMap_congr fun r hr => ?_
  cases hsession : r.sessionId with
  | none => simp
  | some i =>
    simp only [Option.bind_some, Option.some.injEq, decide_eq_true_eq]
    cases hfind : s.sessions.find? i with
    | none =>
      have hne : i ≠ o.id := fun h => Table.find?_eq_none.mp hfind o hmem h.symm
      simp [hne]
    | some p =>
      obtain ⟨hp, rfl⟩ := Table.find?_eq_some.mp hfind
      by_cases hpowns : p.owns home tid
      · obtain rfl : o = p := by
          simpa [ho] using hattr r hr p hp hpowns hsession
        simpa [eventRow, SessionRow.owns] using hpowns
      · have hne : p.id ≠ o.id := fun h =>
          hpowns (Table.eq_of_key_eq hp hmem h ▸ howns)
        simpa [eventRow, hne, SessionRow.owns] using hpowns

omit [DecidableEq α] in
theorem body_congr {s' : Store α} {o' : SessionRow α}
    (hsame : o'.id = o.id ∧ o'.home = o.home ∧ o'.tid = o.tid)
    (hrecords : s'.records.rows.filter (·.sessionId = some o.id) =
      s.records.rows.filter (·.sessionId = some o.id))
    (hpath : ∀ r ∈ s.records, r.sessionId = some o.id → s'.pathOf r = s.pathOf r) :
    s'.body o' = s.body o := by
  obtain ⟨hid, hhome, htid⟩ := hsame
  rw [body, body, hid, hrecords]
  refine map_congr_left fun r hr => ?_
  obtain ⟨hr, hsession⟩ := List.mem_filter.mp hr
  simp only [eventRow, hpath r hr (by simpa using hsession), hhome, htid]

/-! ## raised revisions -/

theorem raise_eq_some {n m' : Int} {revision : Option Int} (h : raise n revision = some m') :
    ∃ m, revision = some m ∧ m' = m + n := by
  obtain ⟨m, hm, h⟩ := Option.bind_eq_some_iff.mp h
  split at h
  · exact ⟨m, hm, (Option.some.inj h).symm⟩
  · cases h

/-- An update of the session rows that raises the revision of those hit. -/
structure Raises (f : SessionRow α → SessionRow α) (hit : SessionRow α → Bool) : Prop where
  id : ∀ o, (f o).id = o.id
  owner : ∀ o, (f o).home = o.home ∧ (f o).tid = o.tid
  revision : ∀ o, ∀ m' ∈ (f o).revision, ∃ m ∈ o.revision, m ≤ m' ∧ (m = m' → hit o = false)

omit [DecidableEq α] in
theorem Raises.bumped {n : Int} (hn : 0 < n) (hit : SessionRow α → Bool) :
    Raises (bumped n hit) hit where
  id := bumped_id n hit
  owner := fun o => by unfold Store.bumped; split <;> exact ⟨rfl, rfl⟩
  revision := fun o m' hm' => by
    unfold Store.bumped at hm'
    split at hm'
    · obtain ⟨m, hm, rfl⟩ := raise_eq_some hm'
      exact ⟨m, hm, by omega, fun h => absurd h (by omega)⟩
    · next hhit => exact ⟨m', hm', le_refl m', fun _ => by simpa using hhit⟩

omit [DecidableEq α] in
theorem Raises.comp {f g : SessionRow α → SessionRow α} {hit hit' : SessionRow α → Bool}
    (hf : Raises f hit) (hg : Raises g hit') (hsame : ∀ o, hit' (f o) = hit' o) :
    Raises (g ∘ f) (fun o => hit o || hit' o) where
  id := fun o => (hg.id (f o)).trans (hf.id o)
  owner := fun o => ⟨(hg.owner (f o)).1.trans (hf.owner o).1, (hg.owner (f o)).2.trans (hf.owner o).2⟩
  revision := fun o m'' hm'' => by
    obtain ⟨m', hm', hle', hhit'⟩ := hg.revision (f o) m'' hm''
    obtain ⟨m, hm, hle, hhit⟩ := hf.revision o m' hm'
    refine ⟨m, hm, hle.trans hle', fun heq => ?_⟩
    have h := hhit (by omega)
    have h' := hhit' (by omega)
    rw [hsame] at h'
    simp [h, h']

/-! ## statements that keep the epoch -/

/-- The owner's session row stays, and its revision rises when the owner's
rows change. -/
def Continues (home tid : Option α) (s s' : Store α) : Prop :=
  ∀ o ∈ s.ownerRow home tid, ∃ o' ∈ s'.ownerRow home tid, o'.id = o.id ∧
    ∀ m' ∈ o'.revision, ∃ m ∈ o.revision, m ≤ m' ∧
      (m = m' → s'.ownerRows home tid = s.ownerRows home tid)

theorem Continues.refl (home tid : Option α) (s : Store α) : Continues home tid s s :=
  fun o ho => ⟨o, ho, rfl, fun m hm => ⟨m, hm, le_refl m, fun _ => rfl⟩⟩

theorem Continues.trans {s' s'' : Store α}
    (h : Continues home tid s s') (h' : Continues home tid s' s'') : Continues home tid s s'' := by
  intro o ho
  obtain ⟨o', ho', hid, hrevision⟩ := h o ho
  obtain ⟨o'', ho'', hid', hrevision'⟩ := h' o' ho'
  refine ⟨o'', ho'', hid'.trans hid, fun m'' hm'' => ?_⟩
  obtain ⟨m', hm', hle', hsame'⟩ := hrevision' m'' hm''
  obtain ⟨m, hm, hle, hsame⟩ := hrevision m' hm'
  refine ⟨m, hm, hle.trans hle', fun heq => ?_⟩
  rw [hsame' (by omega), hsame (by omega)]

/-- **Counting rule**: the triggers raise the revision of each session row of
the owner whose records or their paths change. -/
theorem Continues.of_raises {s' : Store α}
    {f : SessionRow α → SessionRow α} {hit : SessionRow α → Bool} (hf : Raises f hit)
    (hsessions : s'.sessions = s.sessions.map f hf.id)
    (hattr : ∀ r ∈ s.records, s.Attributed home tid r)
    (hattr' : ∀ r ∈ s'.records, s.Attributed home tid r)
    (hbody : ∀ o ∈ s.sessions, o.owns home tid → hit o = false →
      s'.records.rows.filter (·.sessionId = some o.id) =
          s.records.rows.filter (·.sessionId = some o.id) ∧
        ∀ r ∈ s.records, r.sessionId = some o.id → s'.pathOf r = s.pathOf r) :
    Continues home tid s s' := by
  have howns (o : SessionRow α) : (f o).owns home tid = o.owns home tid := by
    simp [SessionRow.owns, hf.owner o]
  have hrow : s'.ownerRow home tid = (s.ownerRow home tid).map f := by
    have hsame : (SessionRow.owns · home tid) ∘ f = (·.owns home tid) := funext howns
    rw [ownerRow, hsessions]
    exact List.find?_map.trans (by rw [hsame]; rfl)
  -- The new rows are attributed as they were by the old session rows.
  have hattr'' : ∀ r ∈ s'.records, s'.Attributed home tid r := by
    intro r hr o' ho' howns' hsession
    rw [hsessions] at ho'
    obtain ⟨o, ho, rfl⟩ := Table.mem_map.mp ho'
    rw [howns] at howns'
    rw [hf.id] at hsession
    rw [hrow, hattr' r hr o ho howns' hsession, Option.map_some]
  intro o ho
  have ho' : s'.ownerRow home tid = some (f o) := by rw [hrow, ho]; rfl
  obtain ⟨hmem, howner, -⟩ := Table.first_eq_some.mp ho
  refine ⟨f o, ho', hf.id o, fun m' hm' => ?_⟩
  obtain ⟨m, hm, hle, hhit⟩ := hf.revision o m' hm'
  refine ⟨m, hm, hle, fun heq => ?_⟩
  obtain ⟨hrecords, hpath⟩ := hbody o hmem howner (hhit heq)
  rw [ownerRows_eq ho hattr, ownerRows_eq ho' hattr'',
    body_congr ⟨hf.id o, hf.owner o⟩ hrecords hpath]

/-! ## path rows -/

omit [DecidableEq α] in
theorem miss_of_inRecords {hit : RecordRow α → Bool}
    (h : s.inRecords hit o = false) {r : RecordRow α} (hr : r ∈ s.records)
    (hsession : r.sessionId = some o.id) : hit r = false := by
  have := any_eq_false.mp h r hr
  simpa [hsession] using this

theorem miss_of_replacesPath {id : Int} {path : Option α}
    (h : s.replacesPath id path o = false) {r : RecordRow α} (hr : r ∈ s.records)
    (hsession : r.sessionId = some o.id) {p : PathRow α} (hp : p ∈ s.paths)
    (hpath : r.pathId = some p.id) : p.id ≠ id ∧ p.path ≠ path := by
  have := any_eq_false.mp (miss_of_inRecords h hr hsession) p hp
  simpa [hpath] using this

omit [DecidableEq α] in
theorem pathOf_congr {s' : Store α} {r : RecordRow α}
    (h : ∀ id ∈ r.pathId, (s'.paths.find? id).bind (·.path) = (s.paths.find? id).bind (·.path)) :
    s'.pathOf r = s.pathOf r := by
  unfold pathOf
  cases hpath : r.pathId with
  | none => rfl
  | some id => exact h id hpath

variable {orReplace : Bool}

theorem continues_insertPath {auto : Bool}
    {new : PathRow α} (hvalid : s.admits (.insertPath orReplace auto new))
    (hcovered : s.Covered home tid (.insertPath orReplace auto new)) :
    Continues home tid s (s.apply (.insertPath orReplace auto new)) := by
  obtain ⟨hattr, hrevive⟩ := hcovered hvalid
  refine .of_raises (.bumped one_pos (s.replacesPath (seen auto new.id) new.path)) rfl hattr hattr
    fun o ho howns hhit => ⟨rfl, fun r hr hsession => pathOf_congr fun id hid => ?_⟩
  have hmiss {p : PathRow α} (hp : p ∈ s.paths) (hpath : p.id = id) :=
    miss_of_replacesPath hhit hr hsession hp (hpath ▸ hid)
  by_cases hnew : new.id = id
  · subst hnew
    simp only [apply, Table.find?_put_self, Option.bind_some]
    cases hold : s.paths.find? new.id with
    | none =>
      -- The new row gives a path to a record the trigger does not count.
      cases hpath : new.path with
      | none => rfl
      | some path => simpa [hhit] using hrevive (by simp [hpath]) r hr hid o ho howns hsession
    | some p =>
      obtain ⟨hp, hpid⟩ := Table.find?_eq_some.mp hold
      cases auto with
      | false => exact absurd hpid (hmiss hp hpid).1
      | true => simp [admits, hold] at hvalid
  · simp only [apply]
    rw [Table.find?_put_of_ne hnew]
    congr 1
    refine Table.find?_congr fun p hp => ?_
    rw [Table.mem_filter]
    refine and_iff_left_of_imp fun hmem => ?_
    have := (hmiss hmem hp).2
    simp [pathConflict, this, hp, Ne.symm hnew]

theorem continues_updatePath {id : Int} {new : PathRow α}
    (hattr : ∀ r ∈ s.records, s.Attributed home tid r) :
    Continues home tid s (s.apply (.updatePath id new)) := by
  simp only [apply]
  cases hold : s.paths.find? id with
  | none => exact .refl home tid s
  | some old =>
    obtain ⟨hmem, rfl⟩ := Table.find?_eq_some.mp hold
    dsimp only [path]
    split
    · refine .of_raises (.bumped one_pos
          (s.inRecords fun r => r.pathId = some old.id ∨ r.pathId = some new.id)) rfl hattr hattr
        fun o ho howns hhit => ⟨rfl, fun r hr hsession => pathOf_congr fun id hid => ?_⟩
      have hmiss := miss_of_inRecords hhit hr hsession
      simp only [Option.mem_def.mp hid, Option.some.injEq, decide_eq_false_iff_not, not_or]
        at hmiss
      congr 1
      refine (Table.find?_put_of_ne (Ne.symm hmiss.2)).trans (Table.find?_filter_of ?_)
      exact fun p hp => by simpa [hp] using hmiss.1
    · next hsame =>
      simp only [not_or, not_not] at hsame
      obtain rfl : old = new := by
        cases old; cases new; simpa using hsame
      rw [Table.put_filter_ne hmem]
      exact .refl home tid s

theorem continues_deletePath {id : Int} (hattr : ∀ r ∈ s.records, s.Attributed home tid r) :
    Continues home tid s (s.apply (.deletePath id)) := by
  simp only [apply]
  cases hold : s.paths.find? id with
  | none => exact .refl home tid s
  | some old =>
    obtain ⟨hmem, rfl⟩ := Table.find?_eq_some.mp hold
    refine .of_raises (.bumped one_pos (s.inRecords (·.pathId = some old.id))) rfl hattr hattr
      fun o ho howns hhit => ⟨rfl, fun r hr hsession => pathOf_congr fun id hid => ?_⟩
    have hmiss := miss_of_inRecords hhit hr hsession
    simp only [Option.mem_def.mp hid, Option.some.injEq, decide_eq_false_iff_not] at hmiss
    congr 1
    exact Table.find?_filter_of fun p hp => by simpa [hp] using hmiss

/-! ## record rows -/

theorem continues_insertRecord {auto : Bool}
    {new : RecordRow α} (hvalid : s.admits (.insertRecord orReplace auto new))
    (hcovered : s.Covered home tid (.insertRecord orReplace auto new)) :
    Continues home tid s (s.apply (.insertRecord orReplace auto new)) := by
  obtain ⟨hattr, hnew⟩ := hcovered hvalid
  have hraises := (Raises.bumped one_pos
    (s.inRecords fun r => r.samePlace new ∨ r.seq = seen auto new.seq)).comp
      (.bumped one_pos fun o => new.sessionId = some o.id) fun o => by rw [bumped_id]
  refine .of_raises hraises (by simp only [apply, insert, replace, bump, Table.map_map]) hattr
    (fun r hr => ?_) fun o ho howns hhit => ⟨?_, fun r hr hsession => rfl⟩
  · rcases Table.mem_put.mp hr with rfl | ⟨hr, -⟩
    · exact hnew
    · exact hattr r (Table.mem_filter.mp hr).1
  · rw [Bool.or_eq_false_iff] at hhit
    refine Table.filter_put_of (by simpa using hhit.2) fun r hr hout => ?_
    -- A row that gives way has the new place or the new `seq`, which the trigger sees.
    by_contra hsession
    have hmiss := miss_of_inRecords hhit.1 hr (by simpa using hsession)
    simp only [decide_eq_false_iff_not, not_or] at hmiss
    have hseq : r.seq = new.seq := by simpa [recordConflict, hmiss.1] using hout
    cases auto with
    | false => exact hmiss.2 hseq
    | true =>
      have hunused : s.records.find? new.seq = none := by
        simp only [admits, decide_eq_true_eq] at hvalid
        exact hvalid.1 trivial
      exact Table.find?_eq_none.mp hunused r hr hseq

theorem continues_updateRecord {seq : Int}
    {new : RecordRow α} (hvalid : s.admits (.updateRecord seq new))
    (hcovered : s.Covered home tid (.updateRecord seq new)) :
    Continues home tid s (s.apply (.updateRecord seq new)) := by
  obtain ⟨hattr, hnew⟩ := hcovered hvalid
  simp only [apply]
  cases hold : s.records.find? seq with
  | none => exact .refl home tid s
  | some old =>
    obtain ⟨hmem, rfl⟩ := Table.find?_eq_some.mp hold
    dsimp only [update]
    split
    · refine .of_raises (.bumped (by split <;> decide)
          fun o => old.sessionId = some o.id ∨ new.sessionId = some o.id) rfl hattr
        (fun r hr => ?_) fun o ho howns hhit => ⟨?_, fun r hr hsession => rfl⟩
      · rcases Table.mem_put.mp hr with rfl | ⟨hr, -⟩
        · exact hnew (by rw [hold]; rfl)
        · exact hattr r (Table.mem_filter.mp hr).1
      · simp only [decide_eq_false_iff_not, not_or] at hhit
        refine Table.filter_put_of (by simpa using hhit.2) fun r hr hout => ?_
        have hseq : r.seq = old.seq := by
          rcases hout with hout | hout
          · simpa using hout
          · -- Another row under the new `seq` would have stopped the update.
            by_contra hne
            simp only [admits, decide_eq_true_eq, any_eq_true, not_exists, not_and] at hvalid
            exact hvalid r hr hne (by simp [recordConflict, hout])
        obtain rfl := Table.eq_of_key_eq hr hmem hseq
        simpa using hhit.1
    · next hsame =>
      obtain rfl : old = new := by simpa using hsame
      rw [Table.put_filter_ne hmem]
      exact .refl home tid s

theorem continues_deleteRecord {seq : Int} (hattr : ∀ r ∈ s.records, s.Attributed home tid r) :
    Continues home tid s (s.apply (.deleteRecord seq)) := by
  simp only [apply]
  cases hold : s.records.find? seq with
  | none => exact .refl home tid s
  | some old =>
    obtain ⟨hmem, rfl⟩ := Table.find?_eq_some.mp hold
    refine .of_raises (.bumped one_pos fun o => old.sessionId = some o.id) rfl hattr
      (fun r hr => hattr r (Table.mem_filter.mp hr).1)
      fun o ho howns hhit => ⟨?_, fun r hr hsession => rfl⟩
    refine Table.filter_filter_of fun r hr hout => ?_
    obtain rfl := Table.eq_of_key_eq hr hmem (by simpa using hout)
    simpa using hhit

/-! ## session rows -/

theorem ownerRows_sessions {sessions : Table (SessionRow α) SessionRow.id}
    (h : ∀ r ∈ s.records, ∀ id ∈ r.sessionId, (sessions.find? id).map (fun o => (o.home, o.tid)) =
        (s.sessions.find? id).map fun o => (o.home, o.tid)) (home tid : Option α) :
    ownerRows { s with sessions } home tid = s.ownerRows home tid := by
  unfold ownerRows eventRows
  congr 1
  refine filterMap_congr fun r hr => ?_
  cases hid : r.sessionId with
  | none => rfl
  | some id =>
    have howner := h r hr id hid
    simp only [Option.bind_some]
    cases h : s.sessions.find? id <;> cases h' : sessions.find? id <;>
      simp_all [eventRow, pathOf]

theorem ownerReplace_cases (s : Store α) (id : Int) (new : SessionRow α) :
    s.ownerReplace id new = s ∧ (∀ o ∈ s.sessions, o.id ≠ id ∧ o.owns new.home new.tid = false) ∨
      s.ownerReplace id new = s.rotate := by
  unfold ownerReplace
  split
  · exact .inr rfl
  · next h =>
    simp only [any_eq_true, not_exists, not_and, decide_eq_true_eq, not_or] at h
    exact .inl ⟨rfl, fun o ho => ⟨(h o ho).1, by simpa using (h o ho).2⟩⟩

omit [DecidableEq α] in
theorem ownerRevive_cases (s : Store α) (new : SessionRow α) :
    s.ownerRevive new = s ∧ (∀ r ∈ s.records, r.sessionId ≠ some new.id) ∨
      s.ownerRevive new = s.rotate := by
  unfold ownerRevive
  split
  · exact .inr rfl
  · next h =>
    simp only [any_eq_true, not_exists, not_and, decide_eq_true_eq] at h
    exact .inl ⟨rfl, h⟩

theorem epoch_le_ownerReplace (s : Store α) (id : Int) (new : SessionRow α) :
    s.epoch ≤ (s.ownerReplace id new).epoch := by
  rcases ownerReplace_cases s id new with ⟨h, -⟩ | h <;> simp [h, rotate]

omit [DecidableEq α] in
theorem epoch_le_ownerRevive (s : Store α) (new : SessionRow α) :
    s.epoch ≤ (s.ownerRevive new).epoch := by
  rcases ownerRevive_cases s new with ⟨h, -⟩ | h <;> simp [h, rotate]

theorem continues_insertSession {auto : Bool}
    {new : SessionRow α} (hvalid : s.admits (.insertSession orReplace auto new))
    (hepoch : (s.apply (.insertSession orReplace auto new)).epoch = s.epoch) :
    Continues home tid s (s.apply (.insertSession orReplace auto new)) := by
  simp only [apply] at hepoch ⊢
  -- Neither trigger rotated the epoch, so the row is new and no record is under it.
  rcases ownerReplace_cases s (seen auto new.id) new with ⟨hsame, hreplace⟩ | hrotate
  case inr =>
    have hle := epoch_le_ownerRevive { s.rotate with
      sessions := (s.rotate.sessions.filter (!sessionConflict new ·)).put new } new
    rw [hrotate] at hepoch
    rw [hepoch] at hle
    exact absurd hle (Nat.not_succ_le_self s.epoch)
  rw [hsame] at hepoch ⊢
  rcases ownerRevive_cases { s with
    sessions := (s.sessions.filter (!sessionConflict new ·)).put new } new with
    ⟨hsame', hrevive⟩ | hrotate
  case inr =>
    rw [hrotate] at hepoch
    exact absurd hepoch (Nat.succ_ne_self s.epoch)
  rw [hsame']
  have hfresh : ∀ o ∈ s.sessions, o.id ≠ new.id ∧ o.owns new.home new.tid = false := by
    refine fun o ho => ⟨fun hid => ?_, (hreplace o ho).2⟩
    cases auto with
    | false => exact (hreplace o ho).1 hid
    | true =>
      simp only [admits, decide_eq_true_eq] at hvalid
      exact Table.find?_eq_none.mp (hvalid.1 trivial) o ho hid
  have hkeep : s.sessions.filter (!sessionConflict new ·) = s.sessions :=
    Table.ext_mem fun o => by
      rw [Table.mem_filter]
      refine and_iff_left_of_imp fun ho => ?_
      simp [sessionConflict, hfresh o ho]
  rw [hkeep]
  intro o ho
  obtain ⟨hmem, howns, hfirst⟩ := Table.first_eq_some.mp ho
  refine ⟨o, ?_, rfl, fun m hm => ⟨m, hm, le_refl m, fun _ => ?_⟩⟩
  · refine Table.first_eq_some.mpr ⟨Table.mem_put.mpr (.inr ⟨hmem, (hfresh o hmem).1⟩), howns,
      fun x hx hxowns => ?_⟩
    rcases Table.mem_put.mp hx with rfl | ⟨hx, -⟩
    · have := (hfresh o hmem).2
      simp only [SessionRow.owns, decide_eq_true_eq] at howns hxowns
      simp [SessionRow.owns, howns, hxowns] at this
    · exact hfirst x hx hxowns
  · refine ownerRows_sessions (fun r hr id hid => ?_) home tid
    have hne : new.id ≠ id := fun h => hrevive r hr (by rw [h]; exact hid)
    exact congrArg _ (Table.find?_put_of_ne hne)

theorem continues_updateSession {id : Int}
    {new : SessionRow α} (hvalid : s.admits (.updateSession id new))
    (hcovered : s.Covered home tid (.updateSession id new))
    (hepoch : (s.apply (.updateSession id new)).epoch = s.epoch) :
    Continues home tid s (s.apply (.updateSession id new)) := by
  obtain ⟨-, hlower⟩ := hcovered hvalid
  simp only [apply] at hepoch ⊢
  cases hold : s.sessions.find? id with
  | none => exact .refl home tid s
  | some old =>
    simp only [hold, ownerMove, owner] at hepoch ⊢
    obtain ⟨hmem, rfl⟩ := Table.find?_eq_some.mp hold
    -- The owner stayed where it was, else the epoch would have rotated.
    by_cases hmoved : moved old new
    · simp [hmoved, rotate, bump] at hepoch
    rw [Bool.not_eq_true] at hmoved
    simp only [hmoved, Bool.false_eq_true, if_false]
    have hsame : old.id = new.id ∧ old.home = new.home ∧ old.tid = new.tid := by
      simpa [moved, not_or] using hmoved
    have hfind (i : Int) : ((s.sessions.filter (·.id ≠ old.id)).put new).find? i =
        if i = old.id then some new else s.sessions.find? i := by
      split
      · next h => rw [h, hsame.1, Table.find?_put_self]
      · next h =>
        refine (Table.find?_put_of_ne (hsame.1 ▸ Ne.symm h)).trans (Table.find?_filter_of ?_)
        exact fun x hx => by simpa [hx] using h
    have hmemput (x : SessionRow α) : x ∈ (s.sessions.filter (·.id ≠ old.id)).put new ↔
        x = new ∨ x ∈ s.sessions ∧ x.id ≠ old.id := by
      simp [hsame.1]
    have howns : new.owns home tid = old.owns home tid := by simp [SessionRow.owns, hsame]
    have hrows : Store.ownerRows { s with
        sessions := (s.sessions.filter (·.id ≠ old.id)).put new } home tid =
          s.ownerRows home tid := by
      refine ownerRows_sessions (fun r hr i hi => ?_) home tid
      rw [hfind]
      split
      · next h => rw [h, hold]; simp [hsame]
      · rfl
    intro o ho
    obtain ⟨ho', howner, hfirst⟩ := Table.first_eq_some.mp ho
    by_cases hid : o.id = old.id
    · obtain rfl := Table.eq_of_key_eq ho' hmem hid
      refine ⟨new, Table.first_eq_some.mpr ⟨(hmemput new).mpr (.inl rfl), howns.trans howner,
        fun x hx hxowns => ?_⟩, hsame.1.symm, fun n hn => ?_⟩
      · rcases (hmemput x).mp hx with rfl | ⟨hx, -⟩
        · exact le_refl _
        · exact hsame.1 ▸ hfirst x hx hxowns
      · obtain ⟨m, hm, hle⟩ := hlower o hold howner hmoved n hn
        exact ⟨m, hm, hle, fun _ => hrows⟩
    · refine ⟨o, Table.first_eq_some.mpr ⟨(hmemput o).mpr (.inr ⟨ho', hid⟩), howner,
        fun x hx hxowns => ?_⟩, rfl, fun m hm => ⟨m, hm, le_refl m, fun _ => hrows⟩⟩
      rcases (hmemput x).mp hx with rfl | ⟨hx, -⟩
      · exact hsame.1 ▸ hfirst old hmem (howns ▸ hxowns)
      · exact hfirst x hx hxowns

/-! ## steps and runs -/

theorem epoch_le_apply (s : Store α) (statement : Statement α) :
    s.epoch ≤ (s.apply statement).epoch := by
  cases statement with
  | insertPath | insertRecord => exact le_refl _
  | insertSession orReplace auto new =>
    have hreplace := epoch_le_ownerReplace s (seen auto new.id) new
    simp only [apply]
    exact hreplace.trans (epoch_le_ownerRevive { s.ownerReplace (seen auto new.id) new with
      sessions := ((s.ownerReplace (seen auto new.id) new).sessions.filter
        (!sessionConflict new ·)).put new } new)
  | updatePath id new =>
    simp only [apply, path]
    split
    · exact le_refl _
    · split <;> exact le_refl _
  | deletePath id => simp only [apply]; split <;> exact le_refl _
  | updateSession id new =>
    simp only [apply, ownerMove, owner]
    split
    · exact le_refl _
    · split <;> simp [rotate, bump]
  | deleteSession id =>
    simp only [apply]
    split
    · exact le_refl _
    · exact Nat.le_succ _
  | updateRecord seq new =>
    simp only [apply, update]
    split
    · exact le_refl _
    · split <;> exact le_refl _
  | deleteRecord seq => simp only [apply]; split <;> exact le_refl _

theorem epoch_le_step (s : Store α) (statement : Statement α) :
    s.epoch ≤ (s.step statement).epoch := by
  unfold step
  split
  · exact epoch_le_apply s statement
  · exact le_refl _

/-- **Step lemma**: a covered statement rotates the epoch or continues. -/
theorem continues_step {statement : Statement α}
    (hcovered : s.Covered home tid statement) (hepoch : (s.step statement).epoch = s.epoch) :
    Continues home tid s (s.step statement) := by
  unfold step at hepoch ⊢
  split at hepoch
  case isFalse h => rw [if_neg h]; exact .refl home tid s
  next hvalid =>
  rw [if_pos hvalid]
  have hattr := (hcovered hvalid).1
  cases statement with
  | insertPath orReplace auto new => exact continues_insertPath hvalid hcovered
  | updatePath id new => exact continues_updatePath hattr
  | deletePath id => exact continues_deletePath hattr
  | insertSession orReplace auto new => exact continues_insertSession hvalid hepoch
  | updateSession id new => exact continues_updateSession hvalid hcovered hepoch
  | deleteSession id =>
    simp only [apply] at hepoch ⊢
    split at hepoch
    · exact .refl home tid s
    · exact absurd hepoch (Nat.succ_ne_self s.epoch)
  | insertRecord orReplace auto new => exact continues_insertRecord hvalid hcovered
  | updateRecord seq new => exact continues_updateRecord hvalid hcovered
  | deleteRecord seq => exact continues_deleteRecord hattr

theorem epoch_le_run (s : Store α) (statements : List (Statement α)) :
    s.epoch ≤ (run step s statements).epoch :=
  run_inv (I := fun s' : Store α => s.epoch ≤ s'.epoch)
    (fun s' statement h => h.trans (epoch_le_step s' statement)) (le_refl s.epoch) statements

theorem ownerReplayToken_eq_some {ε : Type} {draw : Nat → ε} {token : ε × Int × Int}
    (h : s.ownerReplayToken draw home tid = some token) :
    ∃ o m, s.ownerRow home tid = some o ∧ o.revision = some m ∧
      token = (draw s.epoch, o.id, m) := by
  unfold ownerReplayToken at h
  split at h
  · next id _ _ revision ho =>
    split at h
    · cases h
    · exact ⟨_, _, ho, rfl, (Option.some.inj h).symm⟩
  · cases h

/-- **Run lemma**: covered statements within one epoch continue. -/
theorem continues_run {statements : List (Statement α)}
    (hcovered : Along step (Covered home tid) s statements)
    (hepoch : (run step s statements).epoch = s.epoch) :
    Continues home tid s (run step s statements) := by
  induction statements generalizing s with
  | nil => exact .refl home tid s
  | cons statement statements ih =>
    rw [run_cons] at hepoch ⊢
    have hstep := epoch_le_step s statement
    have hrest := epoch_le_run (s.step statement) statements
    have hsame : (s.step statement).epoch = s.epoch := by omega
    exact (continues_step hcovered.1 hsame).trans (ih hcovered.2 (by omega))

end Store

open Store

/-- **Replay tokens are sound** over covered statements: equal tokens of an
owner before and after them mean equal visible rows.  `draw` is the sequence
of drawn epochs. -/
theorem replay_token_sound {α ε : Type} [DecidableEq α] (draw : Nat → ε)
    (hdraw : Function.Injective draw) (home tid : Option α) (s : Store α)
    (statements : List (Statement α)) (hcovered : Along step (Covered home tid) s statements)
    {token : ε × Int × Int} (hbefore : s.ownerReplayToken draw home tid = some token)
    (hafter : (run step s statements).ownerReplayToken draw home tid = some token) :
    (run step s statements).ownerRows home tid = s.ownerRows home tid := by
  obtain ⟨o, m, ho, hm, htoken⟩ := ownerReplayToken_eq_some hbefore
  obtain ⟨o', m', ho', hm', htoken'⟩ := ownerReplayToken_eq_some hafter
  obtain ⟨hepoch, -, hrevision⟩ : draw s.epoch = draw (run step s statements).epoch ∧
      o.id = o'.id ∧ m = m' := by simpa using htoken.symm.trans htoken'
  obtain ⟨o₁, ho₁, -, hcontinue⟩ := continues_run hcovered (hdraw hepoch).symm o ho
  obtain rfl : o' = o₁ := by simpa [ho'] using ho₁
  obtain ⟨m₁, hm₁, -, hrows⟩ := hcontinue m' hm'
  exact hrows (by simpa [hm, hrevision] using hm₁.symm)

/-- The store after an owner's only record lost its path row. -/
def orphaned : Store String :=
  run step {}
    [.insertPath false true ⟨7, some "a"⟩,
     .insertSession false true ⟨1, some "home", some "tid", some 0⟩,
     .insertRecord false true ⟨1, some 7, some "0", some 1, some "1.0", some "event", "0"⟩,
     .deletePath 7]

/-- A record replaced under another owner, a renamed path and a repeated
insertion that is refused leave the owner's token and rows alone. -/
theorem replay_token_sound_orphaned :
    let statements : List (Statement String) :=
      [.insertSession false true ⟨2, some "home", some "other", some 0⟩,
       .insertPath false true ⟨8, some "b"⟩,
       .insertRecord true true ⟨2, some 8, some "0", some 2, some "2.0", some "event", "0"⟩,
       .updatePath 8 ⟨8, some "c"⟩,
       .insertSession false false ⟨1, some "home", some "tid", some 5⟩]
    (run step orphaned statements).ownerRows (some "home") (some "tid") =
      orphaned.ownerRows (some "home") (some "tid") := by
  have hbefore : orphaned.ownerReplayToken id (some "home") (some "tid") = some (0, 1, 2) := by
    decide +kernel
  exact replay_token_sound id Function.injective_id (some "home") (some "tid") orphaned _
    (by decide +kernel) hbefore (by decide +kernel)

/-- **An uncounted change**: a path row inserted under the id the orphaned
record kept gives the record a path, and no trigger counts it. -/
theorem replay_token_revived_path :
    let later := orphaned.step (.insertPath false true ⟨7, some "b"⟩)
    orphaned.ownerReplayToken id (some "home") (some "tid") = some (0, 1, 2) ∧
      later.ownerReplayToken id (some "home") (some "tid") = some (0, 1, 2) ∧
      later.ownerRows (some "home") (some "tid") ≠ orphaned.ownerRows (some "home") (some "tid") := by
  decide +kernel

end Codexon.EventStore
