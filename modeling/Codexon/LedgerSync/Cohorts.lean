import Mathlib.Data.List.Flatten
import Codexon.LedgerSync.Evidence

/-!
# Codexon.LedgerSync.Cohorts

Owners written one after another, in any number of `sync` calls.  With distinct
owners and call identifiers each owner ends with its own rows (`Synced`), in
whatever order; only the columns of a stored row kept under an equivalent price
version depend on it.
-/

namespace Codexon.LedgerSync

open List

variable (pricing : Pricing)

/-! ## owners in order -/

def keysOf (ps : List Session) : List (PyStr × PyStr) := ps.flatMap fun s => s.history.map s.key

/-- Owners are distinct, and call identifiers are unique within a home. -/
structure Distinct (ps : List Session) : Prop where
  owners : (ps.map Session.owner).Nodup
  keys : (keysOf ps).Nodup

/-- The call of a row: its image, or the stored row of the same calculation under
its new owner. -/
structure Settles (s : Session) (row : HistoryRow) (old : Option Call) (c : Call) : Prop where
  sid : c.sid = s.sid
  same : pricing.same c row
  origin : c = pricing.image s.sid row ∨
    ∃ o, old = some o ∧ pricing.same o row ∧ c = { o with sid := s.sid }

/-- The tables after the owners `ps` were written. -/
structure Synced (ps : List Session) (db db' : Db) : Prop where
  calls : ∀ s ∈ ps, ∀ row ∈ s.history, ∃ c, db'.calls (s.key row) = some c ∧
    Settles pricing s row (db.calls (s.key row)) c
  calls_other : ∀ k, (∀ s ∈ ps, ∀ row ∈ s.history, s.key row ≠ k) →
    db'.calls k = (db.calls k).filter fun c => (k.1, c.sid) ∉ ps.map Session.owner
  boundaries : ∀ s ∈ ps, ∀ t ∈ s.timed, db'.boundaries (s.key t.1) = some t.2
  boundaries_other : ∀ k, (∀ s ∈ ps, ∀ row ∈ s.history, s.key row ≠ k) →
    db'.boundaries k = db.boundaries k
  archived : ∀ s ∈ ps, ∀ row ∈ s.history, ∀ old, db.calls (s.key row) = some old →
    ¬ pricing.same old row →
    ((s.home, old.sid) = s.owner ∨ (s.home, old.sid) ∉ ps.map Session.owner) →
    db'.archive (s.key row, old.priceId, old.signature) =
      (db.archive (s.key row, old.priceId, old.signature)).or (some ⟨old.cost, old.serviceTier⟩)
  archive_kept : ∀ a x, db.archive a = some x → db'.archive a = some x

section Owners

variable {pricing} {s : Session} {ps : List Session}

theorem same_image (sid : PyStr) (row : HistoryRow) : pricing.same (pricing.image sid row) row := by
  simp [Pricing.same, Pricing.image, Pricing.equivalent]

variable (pricing) in
theorem settles_settle (s : Session) (row : HistoryRow) (old : Option Call) :
    Settles pricing s row old (settle pricing s row old) := by
  unfold settle
  split
  · exact ⟨rfl, same_image s.sid row, Or.inl rfl⟩
  · next o =>
    split
    · next hsame => exact ⟨rfl, hsame, Or.inr ⟨o, rfl, hsame, rfl⟩⟩
    · exact ⟨rfl, same_image s.sid row, Or.inl rfl⟩

theorem mem_keysOf {k : PyStr × PyStr} :
    k ∈ keysOf ps ↔ ∃ s ∈ ps, ∃ row ∈ s.history, s.key row = k := by
  simp [keysOf]

theorem Distinct.tail (h : Distinct (s :: ps)) : Distinct ps where
  owners := (nodup_cons.mp h.owners).2
  keys := (nodup_append.mp h.keys).2.1

theorem nodup_uids (hkeys : (s.history.map s.key).Nodup) : (s.history.map s.uid).Nodup := by
  have hmap : s.history.map s.key = (s.history.map s.uid).map fun u => (s.home, u) := by
    rw [List.map_map]
    rfl
  rw [hmap] at hkeys
  exact hkeys.of_map _

theorem Distinct.uids (h : Distinct (s :: ps)) : (s.history.map s.uid).Nodup :=
  nodup_uids (nodup_append.mp h.keys).1

theorem Distinct.apart (h : Distinct (s :: ps)) {row : HistoryRow} (hrow : row ∈ s.history)
    {s' : Session} (hs' : s' ∈ ps) {row' : HistoryRow} (hrow' : row' ∈ s'.history) :
    s'.key row' ≠ s.key row := fun heq =>
  (nodup_append.mp h.keys).2.2 _ (mem_map_of_mem hrow) _
    (mem_keysOf.mpr ⟨s', hs', row', hrow', rfl⟩) heq.symm

/-- **Owners are written independently**: whatever the tables held before. -/
theorem synced_foldl (h : Distinct ps) :
    ∀ db, Synced pricing ps db (ps.foldl (syncOwner pricing) db) := by
  induction ps with
  | nil =>
    intro db
    refine ⟨fun _ hs => absurd hs not_mem_nil, fun k _ => ?_,
      fun _ hs => absurd hs not_mem_nil, fun _ _ => rfl,
      fun _ hs => absurd hs not_mem_nil, fun _ _ ha => ha⟩
    show db.calls k = _
    cases db.calls k with
    | none => rfl
    | some c => simp [Option.filter]
  | cons s ps ih =>
    intro db
    have howned := owned_syncOwner pricing h.uids db
    have hrest := ih h.tail (syncOwner pricing db s)
    have howner : s.owner ∉ ps.map Session.owner := (nodup_cons.mp h.owners).1
    have hapart : ∀ s' ∈ ps, ∀ row' ∈ s'.history, ∀ row ∈ s.history, s.key row ≠ s'.key row' :=
      fun s' hs' row' hrow' row hrow => Ne.symm (h.apart hrow hs' hrow')
    rw [foldl_cons]
    refine ⟨fun s' hs' row hrow => ?_, fun k hk => ?_, fun s' hs' t ht => ?_, fun k hk => ?_,
      fun s' hs' row hrow old hold hsame hfrom => ?_,
      fun a x hx => hrest.archive_kept a x (howned.archive_kept a x hx)⟩
    · rcases mem_cons.mp hs' with rfl | hs'
      · -- written first: the later owners neither write nor own this call
        refine ⟨settle pricing s' row (db.calls (s'.key row)), ?_, settles_settle pricing s' row _⟩
        have hsettles := settles_settle pricing s' row (db.calls (s'.key row))
        rw [hrest.calls_other _ fun s'' hs'' row'' hrow'' => h.apart hrow hs'' hrow'',
          howned.calls row hrow, Option.filter_some, if_pos]
        rw [decide_eq_true_eq, hsettles.sid]
        exact howner
      · obtain ⟨c, hc, hsettles⟩ := hrest.calls s' hs' row hrow
        refine ⟨c, hc, hsettles.sid, hsettles.same, hsettles.origin.imp_right ?_⟩
        rintro ⟨o, ho, hrest⟩
        rw [howned.calls_other _ (hapart s' hs' row hrow)] at ho
        exact ⟨o, (Option.filter_eq_some_iff.mp ho).1, hrest⟩
    · rw [hrest.calls_other k fun s' hs' => hk s' (mem_cons_of_mem _ hs'),
        howned.calls_other k (hk s mem_cons_self), Option.filter_filter]
      congr 1
      funext c
      simp [not_or]
    · rcases mem_cons.mp hs' with rfl | hs'
      · rw [hrest.boundaries_other _ fun s'' hs'' row'' hrow'' =>
          h.apart (mem_of_timed ht) hs'' hrow'', howned.boundaries t ht]
      · exact hrest.boundaries s' hs' t ht
    · rw [hrest.boundaries_other k fun s' hs' => hk s' (mem_cons_of_mem _ hs'),
        howned.boundaries_other k (hk s mem_cons_self)]
    · rcases mem_cons.mp hs' with rfl | hs'
      · have harchived := howned.archived row hrow old hold hsame
        cases hprior : db.archive (s'.key row, old.priceId, old.signature) with
        | none =>
          rw [hprior] at harchived
          exact hrest.archive_kept _ _ harchived
        | some x =>
          rw [hprior] at harchived
          exact hrest.archive_kept _ _ harchived
      · have hother := hapart s' hs' row hrow
        have hnot : (s'.home, old.sid) ≠ s.owner := by
          rcases hfrom with hown | hnone
          · rw [hown]
            intro heq
            exact howner (heq ▸ mem_map_of_mem hs')
          · intro heq
            exact hnone (heq ▸ mem_cons_self)
        have hkeep : (syncOwner pricing db s).calls (s'.key row) = some old := by
          rw [howned.calls_other _ hother, hold, Option.filter_some, if_pos]
          rw [decide_eq_true_eq]
          exact hnot
        rw [hrest.archived s' hs' row hrow old hkeep hsame, howned.archive_other _ hother]
        exact hfrom.imp_right fun hnone hmem => hnone (mem_cons_of_mem _ hmem)

theorem Synced.syncOwner_eq {db db' : Db} (h : Synced pricing ps db db') (hdistinct : Distinct ps)
    (hs : s ∈ ps) : syncOwner pricing db' s = db' := by
  have huids : (s.history.map s.uid).Nodup := by
    obtain ⟨left, right, rfl⟩ := append_of_mem hs
    have hkeys := hdistinct.keys
    rw [keysOf, flatMap_append, flatMap_cons] at hkeys
    exact nodup_uids (nodup_append.mp (nodup_append.mp hkeys).2.1).1
  have howned := owned_syncOwner pricing huids db'
  have hsame : ∀ row ∈ s.history, ∃ c, db'.calls (s.key row) = some c ∧ c.sid = s.sid ∧
      pricing.same c row := fun row hrow => by
    obtain ⟨c, hc, hsettles⟩ := h.calls s hs row hrow
    exact ⟨c, hc, hsettles.sid, hsettles.same⟩
  have hcalls : (syncOwner pricing db' s).calls = db'.calls := by
    funext k
    by_cases hk : ∃ row ∈ s.history, s.key row = k
    · obtain ⟨row, hrow, rfl⟩ := hk
      obtain ⟨c, hc, hsid, hcsame⟩ := hsame row hrow
      rw [howned.calls row hrow, hc, settle, if_pos hcsame, ← hsid]
    · have hk' : ∀ row ∈ s.history, s.key row ≠ k := fun row hrow heq => hk ⟨row, hrow, heq⟩
      rw [howned.calls_other k hk']
      cases hc : db'.calls k with
      | none => rfl
      | some c =>
        rw [Option.filter_some, if_pos]
        rw [decide_eq_true_eq]
        intro heq
        by_cases hkey : ∃ s' ∈ ps, ∃ row ∈ s'.history, s'.key row = k
        · -- a call of another written owner
          obtain ⟨s', hs', row, hrow, rfl⟩ := hkey
          obtain ⟨c', hc', hsettles⟩ := h.calls s' hs' row hrow
          obtain rfl : c' = c := Option.some.inj (hc'.symm.trans hc)
          have howner : s'.owner = s.owner := by
            rw [← heq, hsettles.sid]
            rfl
          obtain rfl := inj_on_of_nodup_map hdistinct.owners hs' hs howner
          exact hk ⟨row, hrow, rfl⟩
        · have hfilter := h.calls_other k fun s' hs' row hrow hkeq =>
            hkey ⟨s', hs', row, hrow, hkeq⟩
          rw [hc] at hfilter
          have hfree := (Option.filter_eq_some_iff.mp hfilter.symm).2
          rw [decide_eq_true_eq, heq] at hfree
          exact hfree (mem_map_of_mem hs)
  have hboundaries : (syncOwner pricing db' s).boundaries = db'.boundaries := by
    funext k
    by_cases hk : ∃ row ∈ s.history, s.key row = k
    · obtain ⟨row, hrow, rfl⟩ := hk
      obtain ⟨t, ht, rfl⟩ := exists_timed hrow
      rw [howned.boundaries t ht, h.boundaries s hs t ht]
    · exact howned.boundaries_other k fun row hrow heq => hk ⟨row, hrow, heq⟩
  have harchive : (syncOwner pricing db' s).archive = db'.archive := by
    refine howned.archive_same fun row hrow old hold => ?_
    obtain ⟨c, hc, -, hcsame⟩ := hsame row hrow
    obtain rfl : c = old := Option.some.inj (hc.symm.trans hold)
    exact hcsame
  cases hdb : syncOwner pricing db' s with
  | mk calls boundaries archive =>
    rw [hdb] at hcalls hboundaries harchive
    cases db'
    simp_all

end Owners

/-! ## calls of sync -/

/-- The sessions of several `sync` calls. -/
def sessionsOf (cohorts : List Cohort) : List Session := cohorts.flatMap Cohort.sessions

def stepsOf (cohorts : List Cohort) : List (Cohort × Session) :=
  cohorts.flatMap fun cohort => cohort.sessions.map (cohort, ·)

/-- The owners that are written: not retained, and not at their revision already. -/
def processed (ledger : Ledger) (cohorts : List Cohort) : List Session :=
  ((stepsOf cohorts).filter fun st => st.1.writes ledger.revisions st.2).map Prod.snd

/-- The ledger after several `sync` calls. -/
def syncAll (ledger : Ledger) (cohorts : List Cohort) : Ledger :=
  cohorts.foldl (Ledger.sync pricing) ledger

def Call.evidence (c : Call) : PyStr × PyStr × Option ℚ := (c.sid, c.signature, c.cost)

/-- The tables hold the same calls, owners, calculations and boundaries. -/
structure Alike (db db' : Db) : Prop where
  calls : ∀ k, (db.calls k).map Call.evidence = (db'.calls k).map Call.evidence
  boundaries : db.boundaries = db'.boundaries

section Syncing

variable {pricing} {ledger : Ledger} {cohorts : List Cohort}

theorem writes_congr {revisions revisions' : PyStr × PyStr → Option Json} {s : Session}
    (h : revisions s.owner = revisions' s.owner) (cohort : Cohort) :
    cohort.writes revisions s = cohort.writes revisions' s := by
  unfold Cohort.writes
  rw [h]

theorem map_stepsOf (cohorts : List Cohort) : (stepsOf cohorts).map Prod.snd = sessionsOf cohorts
    := by
  unfold stepsOf sessionsOf
  rw [map_flatMap]
  refine flatMap_congr fun cohort _ => ?_
  rw [List.map_map]
  exact map_id _

theorem syncAll_steps (cohorts : List Cohort) : ∀ ledger, syncAll pricing ledger cohorts =
      (stepsOf cohorts).foldl (fun ledger st => ledger.write pricing st.1 st.2) ledger := by
  induction cohorts with
  | nil => exact fun _ => rfl
  | cons cohort cohorts ih =>
    intro ledger
    rw [stepsOf, flatMap_cons, foldl_append, foldl_map]
    exact ih _

theorem foldl_write {steps : List (Cohort × Session)}
    (hnodup : (steps.map fun st => st.2.owner).Nodup) : ∀ ledger : Ledger,
      (steps.foldl (fun ledger st => ledger.write pricing st.1 st.2) ledger).db =
          ((steps.filter fun st => st.1.writes ledger.revisions st.2).map Prod.snd).foldl
            (syncOwner pricing) ledger.db ∧
        ∀ owner, (∀ st ∈ steps, st.2.owner = owner → ¬ st.1.writes ledger.revisions st.2) →
          (steps.foldl (fun ledger st => ledger.write pricing st.1 st.2) ledger).revisions owner =
            ledger.revisions owner := by
  induction steps with
  | nil => exact fun _ => ⟨rfl, fun _ _ => rfl⟩
  | cons st steps ih =>
    intro ledger
    rw [map_cons, nodup_cons] at hnodup
    have hne : ∀ other ∈ steps, other.2.owner ≠ st.2.owner := fun other hother heq =>
      hnodup.1 (heq ▸ mem_map_of_mem (f := fun st : Cohort × Session => st.2.owner) hother)
    have hrevisions : ∀ owner, owner ≠ st.2.owner →
        (ledger.write pricing st.1 st.2).revisions owner = ledger.revisions owner := by
      intro owner howner
      unfold Ledger.write
      split
      · exact update_other _ _ howner
      · rfl
    have hwrites : ∀ other ∈ steps,
        other.1.writes (ledger.write pricing st.1 st.2).revisions other.2 =
          other.1.writes ledger.revisions other.2 := fun other hother =>
      writes_congr (hrevisions _ (hne other hother)) other.1
    obtain ⟨hdb, hkept⟩ := ih hnodup.2 (ledger.write pricing st.1 st.2)
    rw [foldl_cons]
    refine ⟨?_, fun owner howner => ?_⟩
    · rw [hdb, filter_congr hwrites]
      by_cases hst : st.1.writes ledger.revisions st.2
      · rw [filter_cons, if_pos hst, map_cons, foldl_cons, Ledger.write, if_pos hst]
      · rw [filter_cons, if_neg hst, Ledger.write, if_neg hst]
    · rw [hkept owner fun other hother hsame => by
        rw [hwrites other hother]
        exact howner other (mem_cons_of_mem _ hother) hsame]
      by_cases hsame : st.2.owner = owner
      · rw [Ledger.write, if_neg (howner st mem_cons_self hsame)]
      · exact hrevisions owner (Ne.symm hsame)

theorem Distinct.sublist {ps ps' : List Session} (h : Distinct ps) (hsub : ps'.Sublist ps) :
    Distinct ps' where
  owners := h.owners.sublist (hsub.map _)
  keys := h.keys.sublist (hsub.flatMap _)

section

variable (h : Distinct (sessionsOf cohorts))

include h

theorem Distinct.processed (ledger : Ledger) :
    Distinct (processed ledger cohorts) := by
  rw [← map_stepsOf] at h
  exact h.sublist (filter_sublist.map _)

theorem Distinct.steps :
    ((stepsOf cohorts).map fun st => st.2.owner).Nodup := by
  have howners := h.owners
  rw [← map_stepsOf, List.map_map] at howners
  exact howners

theorem syncAll_db (ledger : Ledger) :
    (syncAll pricing ledger cohorts).db =
      (processed ledger cohorts).foldl (syncOwner pricing) ledger.db := by
  rw [syncAll_steps]
  exact (foldl_write h.steps ledger).1

theorem processed_again {s : Session}
    (hs : s ∈ processed (syncAll pricing ledger cohorts) cohorts) : s ∈ processed ledger cohorts :=
    by
  obtain ⟨st, hst, rfl⟩ := List.mem_map.mp hs
  obtain ⟨hmem, hwrites⟩ := List.mem_filter.mp hst
  by_contra hnot
  have hskip : ¬ st.1.writes ledger.revisions st.2 := fun hwrites' =>
    hnot (mem_map_of_mem (List.mem_filter.mpr ⟨hmem, hwrites'⟩))
  have hrevision : (syncAll pricing ledger cohorts).revisions st.2.owner =
      ledger.revisions st.2.owner := by
    rw [syncAll_steps]
    refine (foldl_write h.steps ledger).2 _ fun other hother howner => ?_
    obtain rfl := inj_on_of_nodup_map h.steps hother hmem howner
    exact hskip
  exact hskip ((writes_congr hrevision st.1).symm.trans hwrites)

end

theorem foldl_fixed {ps : List Session} {db : Db} (h : ∀ s ∈ ps, syncOwner pricing db s = db) :
    ps.foldl (syncOwner pricing) db = db := by
  induction ps with
  | nil => rfl
  | cons s ps ih =>
    rw [foldl_cons, h s mem_cons_self]
    exact ih fun s' hs' => h s' (mem_cons_of_mem _ hs')

theorem Synced.alike {ps ps' : List Session} {db db₁ db₂ : Db} (h : Synced pricing ps db db₁)
    (h' : Synced pricing ps' db db₂) (hmem : ∀ s, s ∈ ps' ↔ s ∈ ps) : Alike db₁ db₂ := by
  have howners : ∀ owner, owner ∈ ps'.map Session.owner ↔ owner ∈ ps.map Session.owner := by
    intro owner
    simp only [List.mem_map, hmem]
  refine ⟨fun k => ?_, funext fun k => ?_⟩
  · by_cases hk : ∃ s ∈ ps, ∃ row ∈ s.history, s.key row = k
    · obtain ⟨s, hs, row, hrow, rfl⟩ := hk
      obtain ⟨c, hc, hsettles⟩ := h.calls s hs row hrow
      obtain ⟨c', hc', hsettles'⟩ := h'.calls s ((hmem s).mpr hs) row hrow
      have hsame := hsettles.same
      have hsame' := hsettles'.same
      simp only [Pricing.same, Bool.and_eq_true, decide_eq_true_eq] at hsame hsame'
      rw [hc, hc']
      simp only [Option.map_some, Call.evidence, hsettles.sid, hsettles'.sid, hsame.1, hsame'.1]
    · have hk₁ : ∀ s ∈ ps, ∀ row ∈ s.history, s.key row ≠ k := fun s hs row hrow heq =>
        hk ⟨s, hs, row, hrow, heq⟩
      have hk₂ : ∀ s ∈ ps', ∀ row ∈ s.history, s.key row ≠ k := fun s hs =>
        hk₁ s ((hmem s).mp hs)
      rw [h.calls_other k hk₁, h'.calls_other k hk₂]
      simp only [howners]
  · by_cases hk : ∃ s ∈ ps, ∃ row ∈ s.history, s.key row = k
    · obtain ⟨s, hs, row, hrow, rfl⟩ := hk
      obtain ⟨t, ht, rfl⟩ := exists_timed hrow
      rw [h.boundaries s hs t ht, h'.boundaries s ((hmem s).mpr hs) t ht]
    · have hk₁ : ∀ s ∈ ps, ∀ row ∈ s.history, s.key row ≠ k := fun s hs row hrow heq =>
        hk ⟨s, hs, row, hrow, heq⟩
      rw [h.boundaries_other k hk₁, h'.boundaries_other k fun s hs => hk₁ s ((hmem s).mp hs)]

end Syncing

/-- **The ledger is a function of the evidence**: each written owner holds exactly
its rows, a stored calculation that stays is the row's own, a replaced one is
archived first; a second `sync` changes nothing; and neither the order of the
sessions nor their division among calls changes the evidence. -/
theorem sync_evidence (ledger : Ledger) (cohorts : List Cohort)
    (h : Distinct (sessionsOf cohorts)) :
    Synced pricing (processed ledger cohorts) ledger.db (syncAll pricing ledger cohorts).db ∧
      (syncAll pricing (syncAll pricing ledger cohorts) cohorts).db =
        (syncAll pricing ledger cohorts).db ∧ ∀ cohorts', Distinct (sessionsOf cohorts') →
        (∀ s, s ∈ processed ledger cohorts' ↔ s ∈ processed ledger cohorts) →
          Alike (syncAll pricing ledger cohorts).db (syncAll pricing ledger cohorts').db := by
  have hsynced : Synced pricing (processed ledger cohorts) ledger.db
      (syncAll pricing ledger cohorts).db := by
    rw [syncAll_db h]
    exact synced_foldl (h.processed ledger) ledger.db
  refine ⟨hsynced, ?_, fun cohorts' h' hmem => ?_⟩
  · rw [syncAll_db h]
    exact foldl_fixed fun s hs => hsynced.syncOwner_eq (h.processed ledger) (processed_again h hs)
  · refine hsynced.alike ?_ hmem
    rw [syncAll_db h']
    exact synced_foldl (h'.processed ledger) ledger.db

/-! ## a call that moves -/

/-- Prices in which the version "old" differs from "new" in metadata only. -/
def twoVersions : Pricing where
  priceId := py "new"
  tokenCost := fun _ => some 1
  dumps := fun _ => py "inputs"
  sameData := fun identifier => identifier = py "old"

/-- A call of session "a", priced under "old". -/
def oldCall : Call := ⟨py "a", 1, py "m", {}, some 1, py "old", py "inputs", none⟩

def oldLedger : Ledger :=
  ⟨⟨fun k => if k = (py "h", py "x") then some oldCall else none, fun _ => none, fun _ => none⟩,
    fun _ => none⟩

/-- Session "a" without calls. -/
def formerOwner : Session := ⟨py "h", py "a", .null, [], fun _ => none⟩

def movedRow : HistoryRow := { key := py "x", ts := 1, model := some (py "m") }

/-- Session "b", which holds the call now. -/
def newOwner : Session := ⟨py "h", py "b", .null, [movedRow], fun _ => none⟩

/-- **A stored price version may stay**, and whether it does depends on the order:
the new owner keeps the stored row, unless the former owner deletes it first. -/
theorem kept_version :
    ((oldLedger.sync twoVersions { sessions := [newOwner, formerOwner] }).db.calls
        (py "h", py "x")).map Call.priceId = some (py "old") ∧
      (twoVersions.image newOwner.sid movedRow).priceId = py "new" ∧
      ((oldLedger.sync twoVersions { sessions := [formerOwner, newOwner] }).db.calls
        (py "h", py "x")).map Call.priceId = some (py "new") := by
  decide +kernel

/-- The two orders leave the same evidence. -/
theorem sync_evidence_moved :
    Alike (syncAll twoVersions oldLedger [{ sessions := [newOwner, formerOwner] }]).db
      (syncAll twoVersions oldLedger [{ sessions := [formerOwner, newOwner] }]).db := by
  have h := sync_evidence twoVersions oldLedger [{ sessions := [newOwner, formerOwner] }]
    ⟨by decide, by decide⟩
  exact h.2.2 [{ sessions := [formerOwner, newOwner] }] ⟨by decide, by decide⟩ fun s => by
    simp [processed, stepsOf, Cohort.writes, oldLedger, or_comm]

end Codexon.LedgerSync
