import Codexon.ReportRows.Suffix

/-!
# Codexon.ReportRows.Fresh

Reports over whole runs.  The ring holds the last 1024 changes (`Traced`), so a
report that counts as many changes as the revision grew has them all.  The
remembered revision is one for all queries, though: the cached rows of a query
stay fresh (`Settled`) as long as each report that sees a change to its tables
also reads that query (`Refreshed`).
-/

namespace Codexon.ReportRows

open List

variable {ρ : Type} [TimedRow ρ]

namespace Ledger

/-! ## runs -/

def start (store : Store) : Ledger ρ := { store }

/-- The report reads every cached query that a change since the last reading concerns. -/
def Refreshed (sql : PyStr → List Json → Query ρ) (s : Ledger ρ) (r : Report) : Prop :=
  s.valid r → ∀ e ∈ s.cache.entries,
    (∃ event ∈ s.events, event.table ∈ (sql e.1 e.2.params).tables) → e.1 ∈ r.reads.map Prod.fst

instance (sql : PyStr → List Json → Query ρ) (s : Ledger ρ) (r : Report) :
    Decidable (s.Refreshed sql r) :=
  inferInstanceAs (Decidable (s.valid r → ∀ e ∈ s.cache.entries,
    (∃ event ∈ s.events, event.table ∈ (sql e.1 e.2.params).tables) → e.1 ∈ r.reads.map Prod.fst))

def Allowed (sql : PyStr → List Json → Query ρ) (s : Ledger ρ) : Step → Prop
  | .change c => c.Recorded s.store
  | .report r => s.Refreshed sql r

instance (sql : PyStr → List Json → Query ρ) (s : Ledger ρ) : DecidablePred (s.Allowed sql)
  | .change c => inferInstanceAs (Decidable (c.Recorded s.store))
  | .report r => inferInstanceAs (Decidable (s.Refreshed sql r))

/-- A report reads what fresh reads do, and with more changes than the ring holds
it starts from an empty cache. -/
def Faithful (sql : PyStr → List Json → Query ρ) (budget : Budget ρ) (s : Ledger ρ) : Step → Prop
  | .change _ => True
  | .report r =>
    (readings sql budget s r).1 =
        r.reads.map (fun read => (sql read.1 read.2).exec r.home s.store r.now) ∧
      ∀ before, s.inputRevision = some before → slots < s.revision - before →
        s.startCache r = {}

/-! ## the ring -/

/-- The row that the trigger of the `i`-th change writes. -/
def eventAt (i : Nat) (c : Change) : Event := ⟨i % slots, i, c.table, c.stamp⟩

def logged (cs : List Change) : List Event := cs.mapIdx fun i c => eventAt (i + 1) c

@[simp] theorem length_logged (cs : List Change) : (logged cs).length = cs.length :=
  length_mapIdx

theorem logged_concat (cs : List Change) (c : Change) :
    logged (cs ++ [c]) = logged cs ++ [eventAt (cs.length + 1) c] := by
  rw [logged, mapIdx_append]
  simp [logged]

theorem map_logged (cs : List Change) :
    (logged cs).map (fun e => (e.table, e.stamp)) = cs.map Change.noted := by
  refine ext_getElem (by simp) fun i h _ => ?_
  simp [logged, eventAt, Change.noted]

theorem mem_drop_logged {cs : List Change} {k : Nat} {e : Event} (h : e ∈ (logged cs).drop k) :
    ∃ i, k ≤ i ∧ i < cs.length ∧ e.revision = i + 1 ∧ e.slot = (i + 1) % slots := by
  obtain ⟨i, hi, rfl⟩ := mem_iff_getElem.mp h
  rw [length_drop, length_logged] at hi
  refine ⟨k + i, by omega, by omega, ?_, ?_⟩ <;>
    simp [logged, eventAt]

theorem ring_change (cs : List Change) (c : Change) :
    ((logged cs).drop (cs.length - slots)).filter (·.slot ≠ (cs.length + 1) % slots) ++
        [eventAt (cs.length + 1) c] = (logged (cs ++ [c])).drop ((cs ++ [c]).length - slots) := by
  have hkeep : ((logged cs).drop (cs.length + 1 - slots)).filter
      (·.slot ≠ (cs.length + 1) % slots) = (logged cs).drop (cs.length + 1 - slots) := by
    refine filter_eq_self.mpr fun e he => ?_
    obtain ⟨i, hfrom, hto, -, hslot⟩ := mem_drop_logged he
    rw [decide_eq_true_eq, hslot]
    unfold slots at *
    omega
  have hlength : (cs ++ [c]).length = cs.length + 1 := length_append
  rw [hlength, logged_concat, drop_append_of_le_length (by rw [length_logged]; unfold slots; omega)]
  rcases Nat.lt_or_ge cs.length slots with hroom | hfull
  · have hzero : cs.length - slots = cs.length + 1 - slots := by omega
    rw [hzero, hkeep]
  · have hlt : cs.length - slots < (logged cs).length := by
      rw [length_logged]
      unfold slots at *
      omega
    have hnext : cs.length - slots + 1 = cs.length + 1 - slots := by omega
    have hoverwritten : (logged cs)[cs.length - slots].slot = (cs.length + 1) % slots := by
      simp only [logged, List.getElem_mapIdx, eventAt]
      unfold slots at *
      omega
    rw [drop_eq_getElem_cons hlt, filter_cons_of_neg (by simp [hoverwritten]), hnext,
      hkeep]

theorem filter_ring {cs : List Change} {k before : Nat} (h : k ≤ before) :
    ((logged cs).drop k).filter (before < ·.revision) = (logged cs).drop before := by
  have hsplit : (logged cs).drop k =
      ((logged cs).drop k).take (before - k) ++ (logged cs).drop before := by
    have hdrop : ((logged cs).drop k).drop (before - k) = (logged cs).drop before := by
      rw [drop_drop]
      congr 1
      omega
    rw [← hdrop, take_append_drop]
  have hold : (((logged cs).drop k).take (before - k)).filter (before < ·.revision) = [] := by
    refine filter_eq_nil_iff.mpr fun e he => ?_
    obtain ⟨i, hi, rfl⟩ := mem_iff_getElem.mp he
    rw [length_take] at hi
    simp only [List.getElem_take, List.getElem_drop, logged, List.getElem_mapIdx, eventAt,
      decide_eq_true_eq]
    omega
  have hnew : ((logged cs).drop before).filter (before < ·.revision) = (logged cs).drop before := by
    refine filter_eq_self.mpr fun e he => ?_
    obtain ⟨i, hfrom, -, hrevision, -⟩ := mem_drop_logged he
    rw [decide_eq_true_eq, hrevision]
    omega
  rw [hsplit, filter_append, hold, hnew, nil_append]

/-- The ledger is what the changes made of it. -/
structure Traced (store : Store) (cs : List Change) (s : Ledger ρ) : Prop where
  store_eq : s.store = replay store cs
  recorded : Recorded store cs
  revision_eq : s.revision = cs.length
  ring_eq : s.ring = (logged cs).drop (cs.length - slots)

section Tracing

omit [TimedRow ρ]

variable {store : Store} {cs : List Change} {s : Ledger ρ}

theorem Traced.change (h : Traced store cs s) {c : Change} (hc : c.Recorded s.store) :
    Traced store (cs ++ [c]) (s.change c) where
  store_eq := by
    rw [replay, run_append]
    show c.apply s.store = c.apply (replay store cs)
    rw [h.store_eq]
  recorded := by
    rw [h.store_eq] at hc
    exact along_append h.recorded ⟨hc, trivial⟩
  revision_eq := by
    rw [length_append, ← h.revision_eq]
    rfl
  ring_eq := by
    rw [← ring_change, ← h.ring_eq, ← h.revision_eq]
    rfl

theorem Traced.length_events (h : Traced store cs s) : s.events.length ≤ slots := by
  have hring : s.ring.length ≤ slots := by
    rw [h.ring_eq, length_drop, length_logged]
    omega
  unfold events
  split
  · exact Nat.zero_le _
  · split
    · exact (length_filter_le _ _).trans hring
    · exact Nat.zero_le _

theorem valid_spec {r : Report} (h : s.valid r) :
    ∃ last before, s.last = some last ∧ s.inputRevision = some before ∧ last.home = r.home ∧
      last.time ≤ r.now ∧ (∀ limit, last.limit = some limit → r.now < limit) ∧
      before ≤ s.revision ∧ s.revision - before = s.events.length := by
  unfold valid at h
  split at h
  · next last before hlast hbefore =>
    simp only [Bool.and_eq_true, decide_eq_true_eq] at h
    obtain ⟨⟨⟨⟨hhome, htime⟩, hlimit⟩, hle⟩, hcount⟩ := h
    refine ⟨last, before, hlast, hbefore, hhome, htime, fun limit heq => ?_, hle, hcount⟩
    simpa [heq] using hlimit
  · cases h

/-- **A lost change is noticed**: as many rows as revisions means all of them. -/
theorem Traced.events_eq (h : Traced store cs s) {before : Nat}
    (hbefore : s.inputRevision = some before) (hle : before ≤ s.revision)
    (hcount : s.revision - before = s.events.length) : s.events = (logged cs).drop before := by
  have hevents : s.events = ((logged cs).drop (cs.length - slots)).filter
      (before < ·.revision) := by
    rw [events, hbefore, ← h.ring_eq]
    exact if_pos hle
  have hlength := h.length_events
  have hrevision := h.revision_eq
  rw [hevents]
  exact filter_ring (by omega)

/-- **More changes than the ring holds**: the cache is discarded. -/
theorem Traced.discards (h : Traced store cs s) {r : Report} {before : Nat}
    (hbefore : s.inputRevision = some before) (hlost : slots < s.revision - before) :
    s.startCache r = {} := by
  refine if_neg fun hvalid => ?_
  obtain ⟨last, before', -, hbefore', -, -, -, -, hcount⟩ := valid_spec hvalid
  obtain rfl : before = before' := Option.some.inj (hbefore.symm.trans hbefore')
  have hlength := h.length_events
  omega

end Tracing

/-! ## between two reports -/

def Bounded (store : Store) (last : LastReport) : Prop :=
  ∀ table : SourceTable, table.timed → ∀ r ∈ store table, r.home = last.home →
    ∀ t, r.time = some t → last.time < t → ∃ limit, last.limit = some limit ∧ limit ≤ t

theorem mem_boundaries {store : Store} {r : Report} {table : SourceTable} {x : Record} {t : ℚ}
    (htimed : table.timed) (hx : x ∈ store table) (hhome : x.home = r.home)
    (ht : x.time = some t) (hlater : r.now < t) : t ∈ boundaries store r := by
  refine mem_append_left _ (mem_flatMap.mpr ⟨table, ?_, ?_⟩)
  · cases table <;> simp_all [futureTables, SourceTable.timed]
  · refine mem_flatMap.mpr ⟨x, List.mem_filter.mpr ⟨hx, ?_⟩, ?_⟩
    · simp [hhome, r.home_mem]
    · simp [ht, hlater]

theorem bounded_report (store : Store) (r : Report) :
    Bounded store ⟨r.home, r.now, (boundaries store r).min?⟩ := by
  intro table htimed x hx hhome t ht hlater
  have hmem := mem_boundaries htimed hx hhome ht hlater
  cases hmin : (boundaries store r).min? with
  | none =>
    rw [min?_eq_none_iff.mp hmin] at hmem
    cases hmem
  | some limit => exact ⟨limit, rfl, (min?_eq_some_iff.mp hmin).2 t hmem⟩

theorem Bounded.select_eq {store : Store} {last : LastReport} (h : Bounded store last) {now : ℚ}
    (htime : last.time ≤ now) (hlimit : ∀ limit, last.limit = some limit → now < limit)
    (q : Query ρ) : q.select last.home store last.time = q.select last.home store now := by
  refine flatMap_congr fun r hr => ?_
  have hvisible : q.visible last.home last.time r = q.visible last.home now r := by
    unfold Query.visible
    by_cases hhome : r.home = last.home
    · cases ht : r.time with
      | none => rfl
      | some t =>
        have hsame : t ≤ last.time ↔ t ≤ now := by
          refine ⟨fun hle => hle.trans htime, fun hle => ?_⟩
          by_contra hlater
          obtain ⟨limit, heq, hbound⟩ := h q.main q.main_timed r hr hhome t ht (not_le.mp hlater)
          have hbelow := hlimit limit heq
          linarith
        simp only [hsame]
    · simp [hhome]
  rw [Query.rowsOf, Query.rowsOf, hvisible]

/-- The cached rows are those of fresh reads at the last report. -/
structure Settled (sql : PyStr → List Json → Query ρ) (store : Store) (cs : List Change)
    (s : Ledger ρ) (last : LastReport) (before : Nat) : Prop where
  le : before ≤ cs.length
  bounded : Bounded (replay store (cs.take before)) last
  rows : ∀ key e, s.cache.get? key = some e →
    e.rows = (sql key e.params).exec last.home (replay store (cs.take before)) last.time

section Settling

variable {sql : PyStr → List Json → Query ρ} {store : Store} {cs : List Change} {s : Ledger ρ}

theorem Traced.sound (h : Traced store cs s)
    (hsettled : ∀ last before, s.last = some last → s.inputRevision = some before →
      Settled sql store cs s last before) (r : Report) :
    Sound sql r.home s.store r.now (s.changes r) (s.startCache r) := by
  intro key e he
  unfold startCache at he
  split at he
  · next hvalid =>
    obtain ⟨last, before, hlast, hbefore, hhome, htime, hlimit, hle, hcount⟩ := valid_spec hvalid
    have hset := hsettled last before hlast hbefore
    have hrows : e.rows = (sql key e.params).exec r.home (replay store (cs.take before)) r.now := by
      rw [hset.rows key e he, Query.exec, hset.bounded.select_eq htime hlimit, hhome]
      rfl
    have hchanges : s.changes r = (cs.drop before).map Change.noted := by
      rw [changes, if_pos hvalid, h.events_eq hbefore hle hcount, map_drop, map_logged, map_drop]
    have hstore : s.store = replay (replay store (cs.take before)) (cs.drop before) := by
      rw [h.store_eq, replay, replay, replay, ← run_append, take_append_drop]
    rw [hchanges, hrows, hstore]
    refine ⟨pairwise_sort _, fun p hp => ?_⟩
    exact ((mergeSort_perm _ _).filter p).trans
      (select_replay _ r.home r.now p (along_drop before h.recorded) hp).symm
  · cases he

theorem Traced.settled_report (h : Traced store cs s) (budget : Budget ρ) {r : Report}
    (hsound : Sound sql r.home s.store r.now (s.changes r) (s.startCache r))
    (hrefreshed : s.Refreshed sql r) :
    Settled sql store cs (s.report sql budget r)
      ⟨r.home, r.now, (boundaries s.store r).min?⟩ s.revision where
  le := h.revision_eq.le
  bounded := by
    rw [h.revision_eq, take_length, ← h.store_eq]
    exact bounded_report s.store r
  rows := by
    rw [h.revision_eq, take_length, ← h.store_eq]
    intro key e he
    obtain ⟨-, hkept, hothers⟩ := readAll_spec sql budget r.home s.store r.now (s.changes r)
      hsound r.reads
    by_cases hread : key ∈ r.reads.map Prod.fst
    · exact hkept key hread e he
    · -- left alone: no change since the last reading concerns it
      have hget := (hothers key hread).symm.trans he
      refine (hsound key e hget).eq_exec fun change hmem htable => hread ?_
      unfold changes at hmem
      unfold startCache at hget
      split at hmem
      · next hvalid =>
        rw [if_pos hvalid] at hget
        obtain ⟨event, hevent, rfl⟩ := List.mem_map.mp hmem
        exact hrefreshed hvalid (key, e) (Dict.get?_eq_some.mp hget) ⟨event, hevent, htable⟩
      · cases hmem

end Settling

/-! ## all runs -/

/-- What stands in every state: changes made the ledger, and the cache is as the
last report left it. -/
def Stands (sql : PyStr → List Json → Query ρ) (store : Store) (s : Ledger ρ) : Prop :=
  ∃ cs, Traced store cs s ∧ ∀ last before, s.last = some last → s.inputRevision = some before →
    Settled sql store cs s last before

theorem stands_start (sql : PyStr → List Json → Query ρ) (store : Store) :
    Stands sql store (start store) :=
  ⟨[], ⟨rfl, trivial, rfl, rfl⟩, fun _ _ h => by cases h⟩

theorem stands_step (sql : PyStr → List Json → Query ρ) (budget : Budget ρ) (store : Store)
    (s : Ledger ρ) (x : Step) (h : Stands sql store s) (hx : s.Allowed sql x) :
    Stands sql store (s.step sql budget x) ∧ s.Faithful sql budget x := by
  obtain ⟨cs, htraced, hsettled⟩ := h
  cases x with
  | change c =>
    refine ⟨⟨cs ++ [c], htraced.change hx, fun last before hlast hbefore => ?_⟩, trivial⟩
    have hset := hsettled last before hlast hbefore
    have htake : (cs ++ [c]).take before = cs.take before :=
      take_append_of_le_length hset.le
    refine ⟨?_, htake ▸ hset.bounded, htake ▸ hset.rows⟩
    rw [length_append]
    exact hset.le.trans (Nat.le_add_right _ _)
  | report r =>
    have hsound := htraced.sound hsettled r
    refine ⟨⟨cs, ⟨htraced.store_eq, htraced.recorded, htraced.revision_eq, htraced.ring_eq⟩,
      fun last before hlast hbefore => ?_⟩,
      (readAll_spec sql budget r.home s.store r.now (s.changes r) hsound r.reads).1,
      fun before hbefore hlost => htraced.discards hbefore hlost⟩
    obtain rfl := Option.some.inj hlast
    obtain rfl := Option.some.inj hbefore
    exact htraced.settled_report budget hsound hx

/-- **Reports read fresh rows**: in every run whose changes are recorded and whose
reports refresh the cached queries that changes concern, and a report that missed
a change starts from an empty cache. -/
theorem reports_faithful (sql : PyStr → List Json → Query ρ) (budget : Budget ρ) (store : Store)
    (steps : List Step) (h : Along (step sql budget) (Allowed sql) (start store) steps) :
    Along (step sql budget) (Faithful sql budget) (start store) steps :=
  along_of_inv (stands_step sql budget store) (stands_start sql store) h

/-! ## a report of two homes -/

instance : TimedRow ℚ where
  time := id
  time_mono := id

def callsQuery : Query ℚ where
  main := .calls
  sides := []
  cutoff := none
  clock := false
  condition := fun _ => true
  join := fun r _ => r.time.toList
  join_time := fun _ _ _ h => Option.mem_toList.mp h
  main_timed := rfl
  sides_linked := fun _ h => by cases h

def callAt (t : ℚ) : Record := ⟨py "h", py "c", some t, []⟩

def oneCall : Store := fun table => if table = .calls then [callAt 10] else []

def readCalls (now : ℚ) : Report := ⟨py "h", now, [py "h"], by simp, [(py "calls", [])], []⟩

def readBoth (now : ℚ) : Report := ⟨py "h", now, [py "h", py "g"], by simp, [], []⟩

def lateCall : Change := ⟨.calls, none, some (callAt 15), some 15⟩

def inputCache : Budget ℚ := ⟨fun _ => 176 + 32, 64 * 1024 * 1024⟩

/-- **A report without the query hides a change**: it takes the change off the
log, and the next report reuses the rows from before it. -/
theorem stale_calls :
    let sql : PyStr → List Json → Query ℚ := fun _ _ => callsQuery
    let steps : List Step := [.report (readCalls 20), .change lateCall, .report (readBoth 30)]
    let s := run (step sql inputCache) (start oneCall) steps
    Along (step sql inputCache) (fun s x => ∀ c, x = .change c → c.Recorded s.store)
        (start oneCall) steps ∧
      (readings sql inputCache s (readCalls 40)).1 = [[10]] ∧
      callsQuery.exec (py "h") s.store 40 = [10, 15] := by
  refine ⟨⟨by simp, fun c h => ?_, by simp, trivial⟩, by decide +kernel, ?_⟩
  · obtain rfl := Step.change.inj h
    decide +kernel
  · exact (eq_sort (by decide +kernel) (List.Perm.of_eq (by decide +kernel))).symm

/-- Without the report of two homes the late call is read again. -/
theorem reports_faithful_calls :
    let sql : PyStr → List Json → Query ℚ := fun _ _ => callsQuery
    let steps : List Step := [.report (readCalls 20), .change lateCall, .report (readCalls 40)]
    Along (step sql inputCache) (Allowed sql) (start oneCall) steps ∧
      Along (step sql inputCache) (Faithful sql inputCache) (start oneCall) steps :=
  have h : Along (step (fun _ _ => callsQuery) inputCache) (Allowed fun _ _ => callsQuery)
      (start oneCall) [.report (readCalls 20), .change lateCall, .report (readCalls 40)] := by
    decide +kernel
  ⟨h, reports_faithful _ inputCache oneCall _ h⟩

end Ledger

end Codexon.ReportRows
