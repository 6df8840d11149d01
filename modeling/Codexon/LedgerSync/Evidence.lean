import Codexon.LedgerSync

/-!
# Codexon.LedgerSync.Evidence

What the ledger holds after a `sync`.  The loop over an owner writes each of its
identifiers once, so its batches amount to placing row after row (`foldl_row`);
an owner then holds exactly its rows (`Owned`), and owners do not disturb each
other (`Synced`).
-/

namespace Codexon.LedgerSync

open List

variable (pricing : Pricing)

/-! ## tables -/

section Tables

variable {κ ν : Type} [DecidableEq κ]

@[simp] theorem update_self (table : κ → ν) (key : κ) (value : ν) :
    update table key value key = value := if_pos rfl

theorem update_other (table : κ → ν) {key k : κ} (value : ν) (h : k ≠ key) :
    update table key value k = table k := if_neg h

theorem update_same (table : κ → ν) {key : κ} {value : ν} (h : table key = value) :
    update table key value = table := by
  funext k
  by_cases hk : k = key
  · rw [hk, update_self, h]
  · rw [update_other _ _ hk]

theorem update_comm (table : κ → ν) {a b : κ} (x y : ν) (h : a ≠ b) :
    update (update table a x) b y = update (update table b y) a x := by
  funext k
  by_cases ha : k = a
  · subst ha
    rw [update_other _ _ h, update_self, update_self]
  · by_cases hb : k = b
    · subst hb
      rw [update_self, update_other _ _ ha, update_self]
    · rw [update_other _ _ hb, update_other _ _ ha, update_other _ _ ha, update_other _ _ hb]

/-- Insert a batch of rows; `insertCalls` and `insertBoundaries` are its instances. -/
def insertAll (table : κ → Option ν) (batch : List (κ × ν)) : κ → Option ν :=
  batch.foldl (fun table entry => update table entry.1 (some entry.2)) table

theorem insertAll_concat (table : κ → Option ν) (batch : List (κ × ν)) (key : κ) (value : ν) :
    insertAll table (batch ++ [(key, value)]) = update (insertAll table batch) key (some value) :=
  foldl_append

theorem insertAll_other {batch : List (κ × ν)} {key : κ} (h : ∀ entry ∈ batch, entry.1 ≠ key) :
    ∀ table : κ → Option ν, insertAll table batch key = table key := by
  induction batch with
  | nil => exact fun _ => rfl
  | cons entry batch ih =>
    intro table
    have hrest := ih fun e he => h e (mem_cons_of_mem _ he)
    show insertAll (update table entry.1 (some entry.2)) batch key = table key
    rw [hrest, update_other _ _ (Ne.symm (h entry mem_cons_self))]

theorem insertAll_update {batch : List (κ × ν)} {key : κ} (h : ∀ entry ∈ batch, entry.1 ≠ key)
    (value : Option ν) : ∀ table : κ → Option ν,
      insertAll (update table key value) batch = update (insertAll table batch) key value := by
  induction batch with
  | nil => exact fun _ => rfl
  | cons entry batch ih =>
    intro table
    show insertAll (update (update table key value) entry.1 (some entry.2)) batch = _
    rw [update_comm _ _ _ (Ne.symm (h entry mem_cons_self)),
      ih fun e he => h e (mem_cons_of_mem _ he)]
    rfl

end Tables

/-! ## placing rows -/

def settle (s : Session) (row : HistoryRow) (old : Option Call) : Call :=
  match old with
  | none => pricing.image s.sid row
  | some old => if pricing.same old row then { old with sid := s.sid } else pricing.image s.sid row

def archiveOf (s : Session) (row : HistoryRow) (db : Db) :
    (PyStr × PyStr) × PyStr × PyStr → Option Archived :=
  match db.calls (s.key row) with
  | none => db.archive
  | some old => if pricing.same old row then db.archive else archiveCall db.archive (s.key row) old

def place (s : Session) (db : Db) (timed : HistoryRow × Option ℚ) : Db where
  calls := update db.calls (s.key timed.1) (some (settle pricing s timed.1 (db.calls (s.key timed.1))))
  boundaries := update db.boundaries (s.key timed.1) (some timed.2)
  archive := archiveOf pricing s timed.1 db

def timedFrom (turns : PyStr → Option ℚ) : Dict PyStr ℚ → List HistoryRow →
    List (HistoryRow × Option ℚ)
  | _, [] => []
  | previous, row :: rows =>
    let request := requestedOf turns previous row
    (row, request.1) :: timedFrom turns request.2 rows

def Session.timed (s : Session) : List (HistoryRow × Option ℚ) := timedFrom s.turns {} s.ordered

theorem map_timedFrom (turns : PyStr → Option ℚ) (rows : List HistoryRow) :
    ∀ previous, (timedFrom turns previous rows).map Prod.fst = rows := by
  induction rows with
  | nil => exact fun _ => rfl
  | cons row rows ih => exact fun previous => congrArg (row :: ·) (ih _)

/-! ## the loop over an owner -/

/-- Nothing was written at the identifier yet. -/
structure Fresh (s : Session) (start : Db) (w : Writer) (uid : PyStr) : Prop where
  calls : w.db.calls (s.home, uid) = start.calls (s.home, uid)
  boundaries : w.db.boundaries (s.home, uid) = start.boundaries (s.home, uid)
  call_batch : ∀ entry ∈ w.calls, entry.1 ≠ (s.home, uid)
  boundary_batch : ∀ entry ∈ w.boundaries, entry.1 ≠ (s.home, uid)

section Loop

variable {pricing} {s : Session} {start : Db} {w : Writer} {uid : PyStr} {row : HistoryRow}

theorem Fresh.flushed_calls (h : Fresh s start w uid) :
    w.flushed.calls (s.home, uid) = start.calls (s.home, uid) :=
  (insertAll_other h.call_batch _).trans h.calls

theorem Fresh.flushed_boundaries (h : Fresh s start w uid) :
    w.flushed.boundaries (s.home, uid) = start.boundaries (s.home, uid) :=
  (insertAll_other h.boundary_batch _).trans h.boundaries

theorem flushed_room (w : Writer) (uid : PyStr) : (w.room uid).flushed = w.flushed := by
  unfold Writer.room
  split <;> rfl

theorem Fresh.room (h : Fresh s start w uid) (other : PyStr) : Fresh s start (w.room other) uid :=
    by
  unfold Writer.room
  split
  · exact ⟨h.flushed_calls, h.flushed_boundaries, fun _ he => absurd he not_mem_nil,
      fun _ he => absurd he not_mem_nil⟩
  · exact h

theorem key_ne (h : uid ≠ s.uid row) : s.key row ≠ (s.home, uid) := fun heq =>
  h (Prod.mk.inj heq).2.symm

theorem Fresh.boundary (h : Fresh s start w uid) (hne : uid ≠ s.uid row)
    (started : Option (Option ℚ)) (requested : Option ℚ) :
    Fresh s start (w.boundary (s.key row) started requested) uid := by
  unfold Writer.boundary
  split
  · exact h
  · refine ⟨h.calls, h.boundaries, h.call_batch, fun entry he => ?_⟩
    rcases mem_append.mp he with he | he
    · exact h.boundary_batch entry he
    · rw [mem_singleton.mp he]
      exact key_ne hne

theorem Fresh.calculation (h : Fresh s start w uid) (hne : uid ≠ s.uid row) (old : Option Call) :
    Fresh s start (w.calculation pricing s row old) uid := by
  have hbatch : ∀ entry ∈ w.calls ++ [(s.key row, pricing.image s.sid row)],
      entry.1 ≠ (s.home, uid) := fun entry he => by
    rcases mem_append.mp he with he | he
    · exact h.call_batch entry he
    · rw [mem_singleton.mp he]
      exact key_ne hne
  unfold Writer.calculation
  split
  · exact ⟨h.calls, h.boundaries, hbatch, h.boundary_batch⟩
  · split
    · split
      · exact h
      · refine ⟨?_, h.boundaries, h.call_batch, h.boundary_batch⟩
        exact (update_other _ _ (Ne.symm (key_ne hne))).trans h.calls
    · exact ⟨h.calls, h.boundaries, hbatch, h.boundary_batch⟩

theorem Fresh.kept (h : Fresh s start w uid) (hne : uid ≠ s.uid row) :
    Fresh s start (w.row pricing s start row) uid := by
  have hroom := h.room (s.uid row)
  have hnoted : Fresh s start
      { w.room (s.uid row) with
        current := s.uid row :: (w.room (s.uid row)).current
        previous := (requestedOf s.turns (w.room (s.uid row)).previous row).2 } uid :=
    ⟨hroom.calls, hroom.boundaries, hroom.call_batch, hroom.boundary_batch⟩
  exact (hnoted.boundary hne _ _).calculation hne _

theorem Fresh.found (h : Fresh s start w (s.uid row)) :
    ((storedOf start s (s.uid row)).map (·.1)).or (w.db.calls (s.key row)) =
      start.calls (s.key row) := by
  have hcalls : w.db.calls (s.key row) = start.calls (s.key row) := h.calls
  unfold storedOf
  show Option.or ((((start.calls (s.key row)).filter _).map _).map _) _ = _
  rw [hcalls]
  cases start.calls (s.key row) with
  | none => rfl
  | some c =>
    by_cases hsid : c.sid = s.sid <;> simp [Option.filter, hsid]

theorem Fresh.flushed_boundary (h : Fresh s start w (s.uid row)) (requested : Option ℚ) :
    (w.boundary (s.key row) ((storedOf start s (s.uid row)).bind (·.2)) requested).flushed =
      { w.flushed with
        boundaries := update w.flushed.boundaries (s.key row) (some requested) } := by
  unfold Writer.boundary
  split
  · next hsame =>
    have hstored : w.flushed.boundaries (s.key row) = some requested := by
      refine h.flushed_boundaries.trans ?_
      unfold storedOf at hsame
      cases hc : (start.calls (s.home, s.uid row)).filter (·.sid = s.sid) with
      | none => simp [hc] at hsame
      | some c => simpa [hc] using hsame
    rw [update_same _ hstored]
  · have hconcat := insertAll_concat w.db.boundaries w.boundaries (s.key row) requested
    simp only [Writer.flushed]
    congr 1

theorem flushed_calculation (hdb : w.db.calls (s.key row) = start.calls (s.key row))
    (hbatch : ∀ entry ∈ w.calls, entry.1 ≠ s.key row) :
    (w.calculation pricing s row (start.calls (s.key row))).flushed =
      { w.flushed with
        calls := update w.flushed.calls (s.key row)
          (some (settle pricing s row (w.flushed.calls (s.key row))))
        archive := archiveOf pricing s row w.flushed } := by
  have hcalls : w.flushed.calls (s.key row) = start.calls (s.key row) :=
    (insertAll_other hbatch _).trans hdb
  have hconcat := insertAll_concat w.db.calls w.calls (s.key row) (pricing.image s.sid row)
  unfold archiveOf settle Writer.calculation
  rw [hcalls]
  cases hold : start.calls (s.key row) with
  | none =>
    simp only [Writer.flushed]
    congr 1
  | some old =>
    by_cases hsame : pricing.same old row
    · simp only [hsame, if_true]
      by_cases hsid : old.sid = s.sid
      · have hkept : w.flushed.calls (s.key row) = some { old with sid := s.sid } := by
          rw [hcalls, hold, ← hsid]
        rw [if_pos hsid, update_same _ hkept]
      · have hmove := insertAll_update hbatch (some { old with sid := s.sid }) w.db.calls
        rw [if_neg hsid, hdb, hold]
        simp only [Writer.flushed]
        congr 1
    · simp only [hsame]
      simp only [Writer.flushed]
      congr 1

@[simp] theorem room_previous (w : Writer) (uid : PyStr) : (w.room uid).previous = w.previous := by
  unfold Writer.room
  split <;> rfl

@[simp] theorem room_current (w : Writer) (uid : PyStr) : (w.room uid).current = w.current := by
  unfold Writer.room
  split <;> rfl

theorem boundary_eq (w : Writer) (key : PyStr × PyStr) (started : Option (Option ℚ))
    (requested : Option ℚ) : (w.boundary key started requested).db = w.db ∧
      (w.boundary key started requested).calls = w.calls ∧
      (w.boundary key started requested).previous = w.previous ∧
      (w.boundary key started requested).current = w.current := by
  unfold Writer.boundary
  split <;> exact ⟨rfl, rfl, rfl, rfl⟩

variable (pricing s) in
theorem calculation_seen (w : Writer) (row : HistoryRow) (old : Option Call) :
    (w.calculation pricing s row old).previous = w.previous ∧
      (w.calculation pricing s row old).current = w.current := by
  unfold Writer.calculation
  split
  · exact ⟨rfl, rfl⟩
  · split
    · split <;> exact ⟨rfl, rfl⟩
    · exact ⟨rfl, rfl⟩

variable (pricing s start) in
theorem row_seen (w : Writer) (row : HistoryRow) :
    (w.row pricing s start row).previous = (requestedOf s.turns w.previous row).2 ∧
      (w.row pricing s start row).current = s.uid row :: w.current := by
  unfold Writer.row
  dsimp only
  obtain ⟨hprevious, hcurrent⟩ := calculation_seen pricing s
    (Writer.boundary
      { w.room (s.uid row) with
        current := s.uid row :: (w.room (s.uid row)).current
        previous := (requestedOf s.turns (w.room (s.uid row)).previous row).2 }
      (s.key row) ((storedOf start s (s.uid row)).bind (·.2))
      (requestedOf s.turns (w.room (s.uid row)).previous row).1) row
    (((storedOf start s (s.uid row)).map (·.1)).or ((w.room (s.uid row)).db.calls (s.key row)))
  refine ⟨hprevious.trans ?_, hcurrent.trans ?_⟩
  · rw [(boundary_eq _ _ _ _).2.2.1, room_previous]
  · rw [(boundary_eq _ _ _ _).2.2.2, room_current]

/-- **A row is placed**: at an identifier that was not written yet, the batches
amount to writing the row, its boundary and the archived calculation. -/
theorem Fresh.flushed_row (h : Fresh s start w (s.uid row)) : (w.row pricing s start row).flushed =
      place pricing s w.flushed (row, (requestedOf s.turns w.previous row).1) := by
  have hroom := h.room (s.uid row)
  have hnoted : Fresh s start
      { w.room (s.uid row) with
        current := s.uid row :: (w.room (s.uid row)).current
        previous := (requestedOf s.turns w.previous row).2 } (s.uid row) :=
    ⟨hroom.calls, hroom.boundaries, hroom.call_batch, hroom.boundary_batch⟩
  have hflushed := flushed_room w (s.uid row)
  unfold Writer.row
  dsimp only
  rw [room_previous, hnoted.found, flushed_calculation, hnoted.flushed_boundary]
  · rw [show Writer.flushed { w.room (s.uid row) with
        current := s.uid row :: (w.room (s.uid row)).current
        previous := (requestedOf s.turns w.previous row).2 } = w.flushed from hflushed]
    rfl
  · rw [(boundary_eq _ _ _ _).1]
    exact hnoted.calls
  · rw [(boundary_eq _ _ _ _).2.1]
    exact hnoted.call_batch

variable (pricing) in
theorem foldl_row {rows : List HistoryRow} (hnodup : (rows.map s.uid).Nodup) :
    ∀ {w : Writer}, (∀ row ∈ rows, Fresh s start w (s.uid row)) →
      (rows.foldl (Writer.row pricing s start) w).flushed =
          (timedFrom s.turns w.previous rows).foldl (place pricing s) w.flushed ∧
        (rows.foldl (Writer.row pricing s start) w).current =
          (rows.map s.uid).reverse ++ w.current := by
  induction rows with
  | nil => exact fun _ => ⟨rfl, rfl⟩
  | cons row rows ih =>
    intro w hfresh
    rw [map_cons, nodup_cons] at hnodup
    have hrow := hfresh row mem_cons_self
    obtain ⟨hprevious, hcurrent⟩ := row_seen pricing s start w row
    obtain ⟨hflushed, hseen⟩ := ih hnodup.2 (w := w.row pricing s start row) fun other hother =>
      (hfresh other (mem_cons_of_mem _ hother)).kept fun heq =>
        hnodup.1 (heq ▸ mem_map_of_mem hother)
    rw [foldl_cons]
    refine ⟨?_, ?_⟩
    · rw [hflushed, hprevious, hrow.flushed_row]
      rfl
    · rw [hseen, hcurrent]
      simp

end Loop

/-- What placing rows under distinct identifiers makes of the tables. -/
structure Placed (s : Session) (timed : List (HistoryRow × Option ℚ)) (db db' : Db) : Prop where
  calls : ∀ t ∈ timed, db'.calls (s.key t.1) = some (settle pricing s t.1 (db.calls (s.key t.1)))
  boundaries : ∀ t ∈ timed, db'.boundaries (s.key t.1) = some t.2
  calls_other : ∀ k, (∀ t ∈ timed, s.key t.1 ≠ k) → db'.calls k = db.calls k
  boundaries_other : ∀ k, (∀ t ∈ timed, s.key t.1 ≠ k) → db'.boundaries k = db.boundaries k
  archived : ∀ t ∈ timed, ∀ old, db.calls (s.key t.1) = some old → ¬ pricing.same old t.1 →
    db'.archive (s.key t.1, old.priceId, old.signature) =
      (db.archive (s.key t.1, old.priceId, old.signature)).or
        (some ⟨old.cost, old.serviceTier⟩)
  archive_other : ∀ a, (∀ t ∈ timed, s.key t.1 ≠ a.1) → db'.archive a = db.archive a
  archive_kept : ∀ a x, db.archive a = some x → db'.archive a = some x
  archive_same : (∀ t ∈ timed, ∀ old, db.calls (s.key t.1) = some old → pricing.same old t.1) →
    db'.archive = db.archive

section Placing

variable {pricing} {s : Session}

variable (pricing s) in
theorem archiveOf_cases (db : Db) (row : HistoryRow) : archiveOf pricing s row db = db.archive ∨
      ∃ old, archiveOf pricing s row db = archiveCall db.archive (s.key row) old := by
  unfold archiveOf
  split
  · exact Or.inl rfl
  · next old _ =>
    split
    · exact Or.inl rfl
    · exact Or.inr ⟨old, rfl⟩

theorem archiveOf_other (db : Db) (row : HistoryRow) {a : (PyStr × PyStr) × PyStr × PyStr}
    (h : s.key row ≠ a.1) : archiveOf pricing s row db a = db.archive a := by
  rcases archiveOf_cases pricing s db row with heq | ⟨old, heq⟩
  · rw [heq]
  · rw [heq]
    exact update_other _ _ fun ha => h (by rw [ha])

theorem archiveOf_kept (db : Db) (row : HistoryRow) {a : (PyStr × PyStr) × PyStr × PyStr}
    {x : Archived} (h : db.archive a = some x) : archiveOf pricing s row db a = some x := by
  rcases archiveOf_cases pricing s db row with heq | ⟨old, heq⟩
  · rw [heq, h]
  · rw [heq]
    by_cases ha : a = (s.key row, old.priceId, old.signature)
    · subst ha
      rw [archiveCall, update_self, h]
      rfl
    · exact (update_other _ _ ha).trans h

variable (pricing) in
/-- **Rows under distinct identifiers are placed independently.** -/
theorem placed_foldl {timed : List (HistoryRow × Option ℚ)}
    (hnodup : (timed.map fun t => s.key t.1).Nodup) :
    ∀ db, Placed pricing s timed db (timed.foldl (place pricing s) db) := by
  induction timed with
  | nil =>
    intro db
    exact ⟨fun _ h => absurd h not_mem_nil, fun _ h => absurd h not_mem_nil,
      fun _ _ => rfl, fun _ _ => rfl, fun _ h => absurd h not_mem_nil, fun _ _ => rfl,
      fun _ _ h => h, fun _ => rfl⟩
  | cons t timed ih =>
    intro db
    rw [map_cons, nodup_cons] at hnodup
    have hne : ∀ other ∈ timed, s.key other.1 ≠ s.key t.1 := fun other hother heq =>
      hnodup.1 (heq ▸ mem_map_of_mem (f := fun t : HistoryRow × Option ℚ => s.key t.1) hother)
    have h := ih hnodup.2 (place pricing s db t)
    have hcalls : ∀ k, k ≠ s.key t.1 → (place pricing s db t).calls k = db.calls k :=
      fun k hk => update_other _ _ hk
    rw [foldl_cons]
    refine ⟨fun u hu => ?_, fun u hu => ?_, fun k hk => ?_, fun k hk => ?_,
      fun u hu old hold hsame => ?_, fun a ha => ?_, fun a x hx => ?_, fun hsame => ?_⟩
    · rcases mem_cons.mp hu with rfl | hu
      · exact (h.calls_other _ hne).trans (update_self _ _ _)
      · rw [h.calls u hu, hcalls _ (hne u hu)]
    · rcases mem_cons.mp hu with rfl | hu
      · exact (h.boundaries_other _ hne).trans (update_self _ _ _)
      · exact h.boundaries u hu
    · rw [h.calls_other k fun u hu => hk u (mem_cons_of_mem _ hu),
        hcalls k (Ne.symm (hk t mem_cons_self))]
    · rw [h.boundaries_other k fun u hu => hk u (mem_cons_of_mem _ hu)]
      exact update_other _ _ (Ne.symm (hk t mem_cons_self))
    · rcases mem_cons.mp hu with rfl | hu
      · rw [h.archive_other _ hne]
        show archiveOf pricing s u.1 db _ = _
        rw [archiveOf, hold]
        show (if pricing.same old u.1 = true then db.archive else _) _ = _
        rw [if_neg hsame, archiveCall, update_self]
      · rw [h.archived u hu old ((hcalls _ (hne u hu)).trans hold) hsame]
        show (archiveOf pricing s t.1 db _).or _ = _
        rw [archiveOf_other db t.1 (Ne.symm (hne u hu))]
    · rw [h.archive_other a fun u hu => ha u (mem_cons_of_mem _ hu)]
      exact archiveOf_other db t.1 (ha t mem_cons_self)
    · exact h.archive_kept a x (archiveOf_kept db t.1 hx)
    · have hrest := h.archive_same fun u hu old hold =>
        hsame u (mem_cons_of_mem _ hu) old ((hcalls _ (hne u hu)).symm.trans hold)
      rw [hrest]
      show archiveOf pricing s t.1 db = db.archive
      unfold archiveOf
      cases hold : db.calls (s.key t.1) with
      | none => rfl
      | some old => exact if_pos (hsame t mem_cons_self old hold)

end Placing

/-! ## an owner -/

/-- The tables after an owner is written: its rows stand, what it no longer holds
is deleted, and the rest is as before. -/
structure Owned (s : Session) (db db' : Db) : Prop where
  calls : ∀ row ∈ s.history,
    db'.calls (s.key row) = some (settle pricing s row (db.calls (s.key row)))
  calls_other : ∀ k, (∀ row ∈ s.history, s.key row ≠ k) →
    db'.calls k = (db.calls k).filter fun c => (k.1, c.sid) ≠ s.owner
  boundaries : ∀ t ∈ s.timed, db'.boundaries (s.key t.1) = some t.2
  boundaries_other : ∀ k, (∀ row ∈ s.history, s.key row ≠ k) → db'.boundaries k = db.boundaries k
  archived : ∀ row ∈ s.history, ∀ old, db.calls (s.key row) = some old → ¬ pricing.same old row →
    db'.archive (s.key row, old.priceId, old.signature) =
      (db.archive (s.key row, old.priceId, old.signature)).or (some ⟨old.cost, old.serviceTier⟩)
  archive_other : ∀ a, (∀ row ∈ s.history, s.key row ≠ a.1) → db'.archive a = db.archive a
  archive_kept : ∀ a x, db.archive a = some x → db'.archive a = some x
  archive_same : (∀ row ∈ s.history, ∀ old, db.calls (s.key row) = some old →
    pricing.same old row) → db'.archive = db.archive

theorem map_timed (s : Session) : s.timed.map Prod.fst = s.ordered := map_timedFrom _ _ _

theorem mem_ordered {s : Session} {row : HistoryRow} : row ∈ s.ordered ↔ row ∈ s.history :=
  (mergeSort_perm s.history _).mem_iff

theorem exists_timed {s : Session} {row : HistoryRow} (h : row ∈ s.history) :
    ∃ t ∈ s.timed, t.1 = row := by
  rw [← mem_ordered, ← map_timed] at h
  exact List.mem_map.mp h

theorem mem_of_timed {s : Session} {t : HistoryRow × Option ℚ} (h : t ∈ s.timed) :
    t.1 ∈ s.history := by
  rw [← mem_ordered, ← map_timed]
  exact mem_map_of_mem h

/-- **An owner is written exactly.** -/
theorem owned_syncOwner {s : Session} (hnodup : (s.history.map s.uid).Nodup) (db : Db) :
    Owned pricing s db (syncOwner pricing db s) := by
  have hordered : (s.ordered.map s.uid).Nodup :=
    ((mergeSort_perm s.history _).map s.uid).nodup_iff.mpr hnodup
  have hfresh : ∀ row ∈ s.ordered, Fresh s db { db } (s.uid row) := fun row _ =>
    ⟨rfl, rfl, fun _ he => absurd he not_mem_nil, fun _ he => absurd he not_mem_nil⟩
  obtain ⟨hflushed, hcurrent⟩ := foldl_row pricing hordered hfresh
  have hkeys : (s.timed.map fun t => s.key t.1).Nodup := by
    have hmap : (s.timed.map fun t => s.key t.1) = (s.ordered.map s.uid).map fun u => (s.home, u) := by
      rw [← map_timed, List.map_map, List.map_map]
      rfl
    rw [hmap]
    exact hordered.map fun _ _ heq => (Prod.mk.inj heq).2
  have hplaced := placed_foldl pricing hkeys db
  have hdb : (s.ordered.foldl (Writer.row pricing s db) { db }).flush.db =
      s.timed.foldl (place pricing s) db := hflushed
  have hseen : ∀ uid, uid ∈ (s.ordered.foldl (Writer.row pricing s db) { db }).flush.current ↔
      ∃ row ∈ s.history, s.uid row = uid := by
    intro uid
    show uid ∈ (s.ordered.foldl (Writer.row pricing s db) { db }).current ↔ _
    rw [hcurrent, List.append_nil, mem_reverse, List.mem_map]
    simp only [mem_ordered]
  have hother : ∀ k, (∀ row ∈ s.history, s.key row ≠ k) → ∀ t ∈ s.timed, s.key t.1 ≠ k :=
    fun k hk t ht => hk t.1 (mem_of_timed ht)
  unfold syncOwner
  dsimp only
  rw [hdb]
  refine ⟨fun row hrow => ?_, fun k hk => ?_, hplaced.boundaries, fun k hk =>
    hplaced.boundaries_other k (hother k hk), fun row hrow => ?_, fun a ha =>
    hplaced.archive_other a (hother a.1 ha), hplaced.archive_kept, fun hsame =>
    hplaced.archive_same fun t ht => hsame t.1 (mem_of_timed ht)⟩
  · obtain ⟨t, ht, rfl⟩ := exists_timed hrow
    refine (if_neg fun hgone => ?_).trans (hplaced.calls t ht)
    exact hgone.2.2.1 ((hseen _).mpr ⟨t.1, hrow, rfl⟩)
  · have hcalls := hplaced.calls_other k (hother k hk)
    dsimp only
    rw [hcalls]
    by_cases hhome : k.1 = s.home
    · have hk2 : k.2 ∉ (s.ordered.foldl (Writer.row pricing s db) { db }).flush.current :=
        fun hmem => by
          obtain ⟨row, hrow, huid⟩ := (hseen _).mp hmem
          exact hk row hrow (Prod.ext hhome.symm huid)
      have hkey : (s.home, k.2) = k := Prod.ext hhome.symm rfl
      unfold storedOf
      rw [hkey]
      cases hc : db.calls k with
      | none => simp
      | some c =>
        by_cases hsid : c.sid = s.sid <;>
          simp [Option.filter, hsid, hhome, hk2, Session.owner]
    · rw [if_neg fun hgone => hhome hgone.1]
      cases db.calls k with
      | none => rfl
      | some c => simp [Option.filter, Session.owner, hhome]
  · obtain ⟨t, ht, rfl⟩ := exists_timed hrow
    exact hplaced.archived t ht

end Codexon.LedgerSync
