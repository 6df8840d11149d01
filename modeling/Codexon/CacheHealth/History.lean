import Codexon.CacheHealth.Splits

/-!
# Codexon.CacheHealth.History

Classifying a session in pieces.  `update` on any sequence of views ends as on
the last one alone, and a saved state continues to the state, the incidents and
the memberships of the whole history.
-/

namespace Codexon.Caching

open List

namespace CacheHealth

/-! ## views -/

/-- The state with other rows; `consume` reads none of them. -/
def withRows (s : CacheHealth Call) (rows : List Call) : CacheHealth Call := { s with rows }

theorem consume_withRows (s : CacheHealth Call) (rows : List Call) (c : Call) :
    (s.withRows rows).consume c = (s.consume c).withRows rows := by
  have hfollow : ∀ (s : CacheHealth Call) (e : Incident) (isBad : Bool),
      (s.withRows rows).follow e isBad c = (s.follow e isBad c).withRows rows := by
    intro s e isBad
    unfold follow withRows
    dsimp only
    generalize (if recovers e c then s.recoveryRows ++ [c] else []) = recovery
    split <;> rfl
  have hsuspect : ∀ (s : CacheHealth Call) (scope : Segment),
      (s.withRows rows).suspect scope c = (s.suspect scope c).withRows rows := by
    intro s scope
    unfold suspect withRows
    dsimp only
    by_cases hlen : 2 ≤ (s.candidateRows ++ [c]).length
    · rw [if_pos hlen, if_pos hlen]
    · rw [if_neg hlen, if_neg hlen]
  have hassess : ∀ s : CacheHealth Call,
      (s.withRows rows).assess c = (s.assess c).withRows rows := by
    intro s
    have hopen : (s.withRows rows).openIncident = s.openIncident := rfl
    have hbase : (s.withRows rows).baseline = s.baseline := rfl
    simp only [assess, hopen, hbase]
    cases s.openIncident with
    | some e => exact hfollow s e _
    | none =>
      dsimp only
      split
      · exact hsuspect s _
      · rfl
  have hchanges : (s.withRows rows).changes c = s.changes c := rfl
  have hrestart : (s.withRows rows).restart c = (s.restart c).withRows rows := rfl
  have hstart : (if s.changes c then (s.restart c).withRows rows else s.withRows rows) =
      (if s.changes c then s.restart c else s).withRows rows := by
    split <;> rfl
  unfold consume
  rw [hchanges, hrestart, hstart]
  dsimp only
  split
  · rw [hassess]
    rfl
  · rfl

theorem foldl_consume_withRows (s : CacheHealth Call) (rows cs : List Call) :
    cs.foldl consume (s.withRows rows) = (cs.foldl consume s).withRows rows := by
  induction cs generalizing s with
  | nil => rfl
  | cons c cs ih => rw [foldl_cons, foldl_cons, consume_withRows, ih]

/-- The classifier of a view, whose rows stand in the order of their times. -/
def classify (rows : List Call) : CacheHealth Call :=
  (classified (rows.filter Call.eligible)).withRows (rows.filter Call.eligible)

theorem ordered_eligible (rows : List Call) : (ordered rows).filter Call.eligible = ordered rows :=
    by
  refine filter_eq_self.mpr fun c hc => ?_
  have hmem := (mergeSort_perm _ _).mem_iff.mp hc
  exact (List.mem_filter.mp hmem).2

def Reads (s : CacheHealth Call) : Prop := s = (classified s.rows).withRows s.rows

theorem reads_nil : Reads {} := rfl

theorem take_eq {rows rows' : List Call} (hlen : rows.length ≤ rows'.length)
    (hsame : ∀ a ∈ rows, ∀ b ∈ rows', a.ref = b.ref → a = b)
    (hzip : ¬ (rows.zip rows').any fun (a, b) => a.ref ≠ b.ref) :
    rows'.take rows.length = rows := by
  induction rows generalizing rows' with
  | nil => rfl
  | cons a rows ih =>
    cases rows' with
    | nil => simp at hlen
    | cons b rows' =>
      rw [zip_cons_cons, any_cons, Bool.or_eq_true, not_or] at hzip
      have hab : a = b :=
        hsame a mem_cons_self b mem_cons_self (by simpa using hzip.1)
      have htail := ih (by simpa using hlen)
        (fun x hx y hy => hsame x (mem_cons_of_mem a hx) y (mem_cons_of_mem b hy))
        hzip.2
      rw [length_cons, take_succ_cons, htail, hab]

/-- **One update** leaves the classification of the rows of its view. -/
theorem update_eq {s : CacheHealth Call} (hs : Reads s) (rows : List Call)
    (hsame : ∀ a ∈ s.rows, ∀ b ∈ ordered rows, a.ref = b.ref → a = b) :
    (s.update rows).1 = (classified (ordered rows)).withRows (ordered rows) := by
  unfold update
  dsimp only
  by_cases hfresh : ((ordered rows).length < s.rows.length ||
      (s.rows.zip (ordered rows)).any fun (a, b) => a.ref ≠ b.ref) = true
  · rw [if_pos hfresh]
    rfl
  · rw [if_neg hfresh]
    rw [Bool.or_eq_true, not_or, decide_eq_true_eq] at hfresh
    have htake := take_eq (by omega) hsame hfresh.2
    have hfold : (ordered rows).foldl consume {} =
        ((ordered rows).drop s.rows.length).foldl consume (s.rows.foldl consume {}) := by
      conv_lhs => rw [← take_append_drop s.rows.length (ordered rows), htake]
      exact foldl_append
    have hread : ((ordered rows).drop s.rows.length).foldl consume s =
        (((ordered rows).drop s.rows.length).foldl consume (classified s.rows)).withRows
          s.rows := by
      conv_lhs => rw [show s = (classified s.rows).withRows s.rows from hs]
      exact foldl_consume_withRows _ _ _
    rw [hread]
    unfold classified run
    rw [hfold]
    rfl

theorem mem_ordered {rows : List Call} {c : Call} (hc : c ∈ ordered rows) : c ∈ rows :=
  mem_of_mem_filter ((mergeSort_perm _ _).mem_iff.mp hc)

def updates (views : List (List Call)) : CacheHealth Call :=
  run (fun s rows => (s.update rows).1) {} views

theorem updates_reads {views : List (List Call)}
    (hsame : ∀ a ∈ views.flatten, ∀ b ∈ views.flatten, a.ref = b.ref → a = b) :
    Reads (updates views) ∧ ∀ c ∈ (updates views).rows, c ∈ views.flatten := by
  induction views using List.reverseRecOn with
  | nil => exact ⟨reads_nil, by simp [updates]⟩
  | append_singleton views view ih =>
    have hstep : updates (views ++ [view]) = ((updates views).update view).1 := run_append _ _ _ _
    have hsub : ∀ c ∈ views.flatten, c ∈ (views ++ [view]).flatten := by
      intro c hc
      rw [flatten_append]
      exact mem_append_left _ hc
    have hview : ∀ c ∈ view, c ∈ (views ++ [view]).flatten := by
      intro c hc
      rw [flatten_append]
      exact mem_append_right _ (by simpa using hc)
    obtain ⟨hreads, hrows⟩ := ih fun a ha b hb => hsame a (hsub a ha) b (hsub b hb)
    have heq := update_eq hreads view fun a ha b hb =>
      hsame a (hsub a (hrows a ha)) b (hview b (mem_ordered hb))
    rw [hstep]
    refine ⟨heq, fun c hc => hview c (mem_ordered hc)⟩

/-- **After any views, an update ends as a fresh one.** -/
theorem updates_eq {views : List (List Call)} {view : List Call}
    (hsame : ∀ a ∈ (views ++ [view]).flatten, ∀ b ∈ (views ++ [view]).flatten,
      a.ref = b.ref → a = b) :
    (updates views).update view = ({} : CacheHealth Call).update view := by
  have hsub : ∀ c ∈ views.flatten, c ∈ (views ++ [view]).flatten := by
    intro c hc
    rw [flatten_append]
    exact mem_append_left _ hc
  obtain ⟨hreads, hrows⟩ := updates_reads fun a ha b hb => hsame a (hsub a ha) b (hsub b hb)
  have hstate : ((updates views).update view).1 = (({} : CacheHealth Call).update view).1 := by
    rw [update_eq reads_nil view (by simp)]
    refine update_eq hreads view fun a ha b hb => hsame a (hsub a (hrows a ha)) b ?_
    rw [flatten_append]
    exact mem_append_right _ (by simpa using mem_ordered hb)
  have hreport : ∀ s : CacheHealth Call, s.update view = ((s.update view).1, (s.update view).1.report) :=
    fun _ => rfl
  rw [hreport (updates views), hstate]
  rfl

end CacheHealth

/-! ## saved states -/

def lastFive {α : Type} (xs : List α) : List α := xs.drop (xs.length - 5)

theorem lastFive_append {α : Type} (xs : List α) (x : α) :
    lastFive (xs ++ [x]) = pushFive (lastFive xs) x := by
  unfold lastFive pushFive
  rw [length_append, length_singleton, length_drop,
    ← drop_append_of_le_length (by omega : xs.length - 5 ≤ xs.length),
    drop_drop]
  congr 1
  omega

theorem lastFive_sublist {α : Type} (xs : List α) : (lastFive xs).Sublist xs := drop_sublist _
    _

/-- The ordinals in a history: `records[key][1]['session_ordinal']`. -/
def ordinals (rows : List Call) (key : PyStr) : Option Nat :=
  (rows.find? fun r => keyOf r = key).map (·.sessionOrdinal)

theorem ordinals_eq {rows : List Call} (hkeys : (rows.map keyOf).Nodup) {r : Call} (hr : r ∈ rows) :
    ordinals rows (keyOf r) = some r.sessionOrdinal := by
  unfold ordinals
  induction rows with
  | nil => cases hr
  | cons a rows ih =>
    rw [map_cons, nodup_cons] at hkeys
    by_cases ha : keyOf a = keyOf r
    · have hsame : r = a := by
        refine (mem_cons.mp hr).resolve_right fun hmem => hkeys.1 ?_
        rw [ha]
        exact List.mem_map.mpr ⟨r, hmem, rfl⟩
      rw [find?_cons_of_pos (by simpa using ha), hsame]
      rfl
    · rw [find?_cons_of_neg (by simpa using ha)]
      refine ih hkeys.2 ((mem_cons.mp hr).resolve_left fun hsame => ha ?_)
      rw [hsame]

/-- What `captureHealth` saves once every ordinal is found. -/
def savedOf (tracker : CacheHealth Call) (ord : PyStr → Nat) : Saved where
  scope := tracker.scope
  count := tracker.count
  recovery := tracker.recovery
  candidate := tracker.candidate
  missing := tracker.missing
  state := tracker.state
  reason := tracker.reason
  last := tracker.last.map healthRow
  baseline := tracker.baseline.map healthRow
  candidateRows := tracker.candidateRows.map healthRow
  recoveryRows := tracker.recoveryRows.map healthRow
  incident := tracker.incident.map (·.toEventFixed)
  occurrences := (tracker.incident.map (·.occurrenceKeys.len)).getD 0
  incidentPositions :=
    ((tracker.incident.map (·.baselineKeys)).getD []).map fun key => (key, ord key)
  recent := (lastFive tracker.rows).map healthRow

theorem captureHealth_eq {tracker : CacheHealth Call} {records : PyStr → Option Nat}
    {ord : PyStr → Nat} (hrecords : ∀ e, tracker.incident = some e →
      ∀ key ∈ e.baselineKeys, records key = some (ord key)) :
    captureHealth tracker records = .ok (savedOf tracker ord) := by
  have hpick : pick records ((tracker.incident.map (·.baselineKeys)).getD []) = _ :=
    pick_eq ord fun key hkey => by
      cases he : tracker.incident with
      | none =>
        rw [he] at hkey
        cases hkey
      | some e =>
        rw [he] at hkey
        exact hrecords e he key hkey
  unfold captureHealth
  rw [hpick]
  rfl

theorem savedOf_current (tracker : CacheHealth Call) (ord : PyStr → Nat) :
    (savedOf tracker ord).current = savedOf tracker ord := by
  unfold Saved.current
  cases he : tracker.incident <;> simp [savedOf, he]

namespace Health

variable {s : CacheHealth Call} {seen : List Call}

variable {rows : List Call}

variable {ord : PyStr → Nat}

theorem load_continues
    (hsound : CacheHealth.Sound seen s) (hkeys : (seen.map keyOf).Nodup) {saved : Saved}
    (hsaved : saved.current = savedOf (s.withRows rows) ord) :
    Continues ord s.events s (lastFive rows) (load saved) := by
  have hfields : { saved with incidentPositions := [] } =
      { savedOf (s.withRows rows) ord with incidentPositions := [] } := by
    rw [← hsaved]
    unfold Saved.current
    split <;> rfl
  have hpositions : ∀ e, s.incident = some e →
      saved.incidentPositions = e.baselineKeys.map fun key => (key, ord key) := by
    intro e he
    have hsome : saved.incident ≠ none := by
      have hincident : saved.incident = (savedOf (s.withRows rows) ord).incident :=
        congrArg (·.incident) hfields
      rw [hincident]
      simp [savedOf, CacheHealth.withRows, he]
    rw [Saved.current, if_neg hsome] at hsaved
    rw [hsaved]
    simp [savedOf, CacheHealth.withRows, he]
  have hreducer : (load saved).reducer = (load { saved with incidentPositions := [] }).reducer := rfl
  refine ⟨?_, ?_, ?_, ?_, ?_, ?_, ?_, le_rfl⟩
  · rw [hreducer, hfields]
    cases he : s.incident <;>
      simp [load, retained, savedOf, CacheHealth.withRows, he, tallied]
  · exact congrArg (·.recent) hfields
  · intro e he
    show (Dict.update {} saved.incidentPositions).entries = _
    have hnames : (e.baselineKeys.map fun key => (key, ord key)).map Prod.fst = e.baselineKeys := by
      rw [List.map_map]
      exact map_id _
    rw [hpositions e he, Dict.entries_update]
    · rfl
    · rw [hnames]
      exact hkeys.sublist (hsound.based e he)
  · intro i e he
    rw [he]
    simp [load, Dict.get?]
  · intro id _
    simp [load, Dict.get?]
  · intro i e he
    exact Or.inr ⟨rfl, he⟩
  · intro id change hchange
    simp [load, Dict.get?] at hchange

variable {prior : List Incident}

/-- **A continuation over any rows** never fails. -/
theorem continues_run {h : Health} (ys : List Call)
    (hcontinues : Continues ord prior (CacheHealth.classified seen) (lastFive seen) h)
    (hkeys : ((seen ++ ys.filter Call.eligible).map keyOf).Nodup)
    (hord : ∀ r ∈ seen ++ ys.filter Call.eligible, r.sessionOrdinal = ord (keyOf r)) :
    ∃ h', ys.foldlM add h = .ok h' ∧
      Continues ord prior (CacheHealth.classified (seen ++ ys.filter Call.eligible))
        (lastFive (seen ++ ys.filter Call.eligible)) h' := by
  induction ys generalizing seen h with
  | nil =>
    rw [filter_nil, List.append_nil]
    exact ⟨h, rfl, hcontinues⟩
  | cons y ys ih =>
    by_cases hy : y.eligible
    · rw [filter_cons_of_pos hy, append_cons] at hkeys hord ⊢
      have hsub : (seen ++ [y]).Sublist (seen ++ [y] ++ ys.filter Call.eligible) :=
        sublist_append_left _ _
      obtain ⟨h₁, hadd, hnext⟩ := hcontinues.add (CacheHealth.classified_sound seen)
        (hkeys.sublist (hsub.map keyOf)) (fun r hr => hord r (hsub.subset hr))
        (lastFive_sublist seen) hy
      rw [← lastFive_append] at hnext
      have hclassified : (CacheHealth.classified seen).consume y =
          CacheHealth.classified (seen ++ [y]) := (CacheHealth.classified_append seen [y]).symm
      rw [hclassified] at hnext
      obtain ⟨h', hrun, hfinal⟩ := ih hnext hkeys hord
      refine ⟨h', ?_, hfinal⟩
      rw [foldlM_cons, hadd]
      exact hrun
    · rw [filter_cons_of_neg hy] at hkeys hord ⊢
      obtain ⟨h', hrun, hfinal⟩ := ih hcontinues hkeys hord
      refine ⟨h', ?_, hfinal⟩
      have hskip : h.add y = .ok h := if_neg hy
      rw [foldlM_cons, hskip]
      exact hrun

/-! ## what a continuation leaves -/

theorem Continues.save_eq {h : Health} (hcontinues : Continues ord prior s (lastFive rows) h) :
    h.save.current = savedOf (s.withRows rows) ord := by
  have hr := hcontinues.reducer_eq
  unfold Saved.current
  cases he : s.incident with
  | none =>
    have hnone : h.save.incident = none := by simp [save, hr, retained, he]
    rw [if_pos hnone]
    simp [save, savedOf, CacheHealth.withRows, hr, retained, he, hcontinues.recent_eq]
  | some e =>
    have hsome : h.save.incident ≠ none := by simp [save, hr, retained, he]
    rw [if_neg hsome]
    simp [save, savedOf, CacheHealth.withRows, hr, retained, he, hcontinues.recent_eq,
      hcontinues.positions e he, tallied, Occurrences.len]

theorem written_eq {recent : List Call} {h : Health} (hcontinues : Continues ord prior s recent h)
    (hsound : CacheHealth.Sound seen s) (hkeys : (seen.map keyOf).Nodup) {i : Nat} {e : Incident}
    (he : s.events[i]? = some e) : h.written prior i = some e := by
  have hids := hsound.ids_nodup hkeys
  obtain ⟨first, second, rest, hoccurrences, -⟩ := hsound.formed e (mem_of_getElem? he)
  have hmembers := hcontinues.members i e he
  -- The change at a place is the change under the id of its incident.
  have hunique : ∀ p ∈ h.changed.entries, p.2.ordinal = i →
      p.1 = e.id ∧ h.changed.get? e.id = some p.2 := by
    intro p hp hplace
    have hget : h.changed.get? p.1 = some p.2 := Dict.get?_eq_some.mpr hp
    obtain ⟨e₁, he₁, hid⟩ := hcontinues.placed p.1 p.2 hget
    rw [hplace] at he₁
    obtain rfl := Option.some.inj (he₁.symm.trans he)
    exact ⟨hid.symm, hid ▸ hget⟩
  unfold written
  cases hfind : h.changed.entries.find? (·.2.ordinal = i) with
  | none =>
    rcases hcontinues.changed i e he with ⟨change, hget, hplace, -⟩ | ⟨-, hprior⟩
    · have habsent := List.find?_eq_none.mp hfind _ (Dict.get?_eq_some.mp hget)
      simp [hplace] at habsent
    · exact hprior
  | some p =>
    obtain ⟨id, change⟩ := p
    obtain ⟨hid, hget⟩ := hunique (id, change) (mem_of_find?_eq_some hfind)
      (by simpa using find?_some hfind)
    obtain rfl : id = e.id := hid
    rcases hcontinues.changed i e he with ⟨change', hget', -, hevent⟩ | ⟨hnone, -⟩
    · obtain rfl := Option.some.inj (hget'.symm.trans hget)
      dsimp only
      generalize (prior[i]?.map (·.occurrenceKeys.list)).getD [] = stored at hmembers
      generalize (h.members.get? e.id).getD [] = members at hmembers
      have hlen : change'.event.occurrenceKeys.len - members.length = stored.length := by
        have hlength := congrArg List.length hmembers
        rw [hevent]
        simp only [tallied, Occurrences.len, hoccurrences]
        simp only [hoccurrences, Occurrences.list, length_append, length_map] at hlength
        omega
      rw [hlen, take_length, ← hmembers, hevent, hoccurrences]
      obtain ⟨fixed, occurrences⟩ := e
      obtain rfl : occurrences = _ := hoccurrences
      rfl
    · cases hnone.symm.trans hget

theorem filterMap_range {α : Type} (xs : List α) :
    (List.range xs.length).filterMap (fun i => xs[i]?) = xs := by
  induction xs using List.reverseRecOn with
  | nil => rfl
  | append_singleton xs x ih =>
    have hfront : (List.range xs.length).filterMap (fun i => (xs ++ [x])[i]?) =
        (List.range xs.length).filterMap fun i => xs[i]? := by
      refine filterMap_congr fun i hi => ?_
      exact List.getElem?_append_left (List.mem_range.mp hi)
    rw [length_append, length_singleton, range_succ, filterMap_append, hfront, ih]
    simp

/-- **The stored incidents under the changes** are the incidents of the whole. -/
theorem Continues.incidents_eq {recent : List Call} {h : Health}
    (hcontinues : Continues ord prior s recent h)
    (hsound : CacheHealth.Sound seen s) (hkeys : (seen.map keyOf).Nodup) :
    h.incidents prior = s.events := by
  have hcount : h.reducer.count = s.events.length := by
    rw [hcontinues.reducer_eq]
    exact hsound.count_eq
  unfold incidents
  rw [hcount]
  refine Eq.trans (filterMap_congr fun i hi => ?_) (filterMap_range s.events)
  have hlt := List.mem_range.mp hi
  rw [List.getElem?_eq_getElem hlt]
  exact written_eq hcontinues hsound hkeys (List.getElem?_eq_getElem hlt)

theorem recentReport_retained (scope : Option Segment) (rows : List Call) :
    CacheHealth.recentReport scope ((lastFive rows).map healthRow) =
      CacheHealth.recentReport scope rows := by
  have htake : ((lastFive rows).map healthRow).reverse.take 5 =
      (rows.reverse.take 5).map healthRow := by
    rw [← map_reverse, ← map_take, lastFive, ← take_reverse]
    simp
  have hrecent : CacheHealth.recentCalls scope ((lastFive rows).map healthRow) =
      (CacheHealth.recentCalls scope rows).map healthRow := by
    unfold CacheHealth.recentCalls
    rw [htake, takeWhile_map]
    rfl
  have hvalid : ((CacheHealth.recentCalls scope rows).map healthRow).filter
      (fun r => (facts r).valid) =
      ((CacheHealth.recentCalls scope rows).filter fun r => (facts r).valid).map healthRow := by
    rw [filter_map]
    rfl
  unfold CacheHealth.recentReport
  dsimp only
  rw [hrecent, hvalid, CacheHealth.inputSum_retained, CacheHealth.cachedSum_retained,
    length_map, length_map]

theorem Continues.head_eq {h : Health} (hcontinues : Continues ord prior s (lastFive rows) h)
    (hsound : CacheHealth.Sound seen s) : h.head = headOf (s.withRows rows).report := by
  unfold head
  rw [hcontinues.recent_eq, recentReport_retained, hcontinues.reducer_eq]
  simp [headOf, CacheHealth.report, CacheHealth.withRows, retained, hsound.count_eq, tallied,
    Option.map_map, Function.comp_def]

end Health

/-! ## a session in two parts -/

open CacheHealth

theorem ordinals_baseline {zs rows : List Call} (hkeys : (zs.map keyOf).Nodup)
    (hrows : rows.Sublist zs) {e : Incident} (he : (classify rows).incident = some e) :
    ∀ key ∈ e.baselineKeys, ordinals rows key = some ((ordinals zs key).getD 0) := by
  intro key hkey
  have hmem := ((classified_sound (rows.filter Call.eligible)).based e he).subset hkey
  obtain ⟨r, hr, rfl⟩ := List.mem_map.mp hmem
  have hrow : r ∈ rows := (List.mem_filter.mp hr).1
  rw [ordinals_eq (hkeys.sublist (hrows.map keyOf)) hrow, ordinals_eq hkeys (hrows.subset hrow)]
  rfl

/-- **Classification resumes at any call** of a history with distinct keys: the
state saved after `xs` and continued over `ys` is the state of `xs ++ ys`, with its
head, its incidents and their members; no key is in two incidents, each incident
counts its two or more occurrences, and `update` depends on its last view alone. -/
theorem resumed_classification (xs ys : List Call) (hkeys : ((xs ++ ys).map keyOf).Nodup)
    (views : List (List Call)) (view : List Call)
    (hsame : ∀ a ∈ (views ++ [view]).flatten, ∀ b ∈ (views ++ [view]).flatten,
      a.ref = b.ref → a = b) :
    (∃ saved, captureHealth (classify xs) (ordinals xs) = .ok saved ∧ saved.current = saved) ∧
    (∀ saved, captureHealth (classify xs) (ordinals xs) = .ok saved.current →
      ∃ h, ys.foldlM Health.add (Health.load saved) = .ok h ∧
        captureHealth (classify (xs ++ ys)) (ordinals (xs ++ ys)) = .ok h.save.current ∧
        h.head = Health.headOf (classify (xs ++ ys)).report ∧
        h.incidents (classify xs).events = (classify (xs ++ ys)).events) ∧
    (∀ key, ((classify (xs ++ ys)).events.filter fun e => key ∈ e.occurrenceKeys.list).length ≤ 1) ∧
    (∀ e ∈ (classify (xs ++ ys)).events, e.count = e.occurrenceKeys.list.length ∧ 2 ≤ e.count) ∧
    (∀ rows, (({} : CacheHealth Call).update rows).1 = classify (ordered rows)) ∧
    (updates views).update view = ({} : CacheHealth Call).update view := by
  have hfilter : (xs ++ ys).filter Call.eligible =
      xs.filter Call.eligible ++ ys.filter Call.eligible := filter_append _ _
  have heligible : (((xs ++ ys).filter Call.eligible).map keyOf).Nodup :=
    hkeys.sublist (filter_sublist.map keyOf)
  have hcapture : ∀ rows : List Call, rows.Sublist (xs ++ ys) →
      captureHealth (classify rows) (ordinals rows) =
        .ok (savedOf (classify rows) fun key => (ordinals (xs ++ ys) key).getD 0) :=
    fun rows hrows => captureHealth_eq fun e he => ordinals_baseline hkeys hrows he
  refine ⟨⟨_, hcapture xs (sublist_append_left _ _), savedOf_current _ _⟩, ?_, ?_, ?_, ?_, ?_⟩
  · intro saved hsaved
    rw [hcapture xs (sublist_append_left _ _)] at hsaved
    have hload := Health.load_continues (classified_sound (xs.filter Call.eligible))
      ((hfilter ▸ heligible).sublist ((sublist_append_left _ _).map keyOf))
      (Except.ok.inj hsaved).symm
    have hord : ∀ r ∈ xs.filter Call.eligible ++ ys.filter Call.eligible,
        r.sessionOrdinal = (ordinals (xs ++ ys) (keyOf r)).getD 0 := by
      intro r hr
      rw [← hfilter] at hr
      rw [ordinals_eq hkeys (List.mem_filter.mp hr).1]
      rfl
    rw [hfilter] at heligible
    obtain ⟨h, hrun, hfinal⟩ := Health.continues_run ys hload heligible hord
    have hwhole := classified_sound (xs.filter Call.eligible ++ ys.filter Call.eligible)
    have hclassify : classify (xs ++ ys) =
        (classified (xs.filter Call.eligible ++ ys.filter Call.eligible)).withRows
          (xs.filter Call.eligible ++ ys.filter Call.eligible) := by
      rw [classify, hfilter]
    refine ⟨h, hrun, ?_, ?_, ?_⟩
    · rw [hcapture (xs ++ ys) (List.Sublist.refl _), hfinal.save_eq, hclassify]
    · rw [hfinal.head_eq hwhole, hclassify]
    · rw [hclassify]
      exact hfinal.incidents_eq hwhole heligible
  · exact (classified_sound ((xs ++ ys).filter Call.eligible)).one_incident heligible
  · exact fun e he => classified_count he
  · intro rows
    rw [update_eq reads_nil rows (by simp), classify, ordered_eligible]
  · exact updates_eq hsame

/-- A call of one segment that reads `cached` of a hundred tokens. -/
def plainCall (key : String) (cached : Nat) (n : Nat) : Call where
  key := py key
  ts := n
  input := some 100
  cached := some cached
  model := some (py "m")
  effort := some (py "high")
  serviceTier := some (py "Standard")
  ref := n
  sessionOrdinal := n

theorem resumed_classification_pair :
    ∃ saved h, captureHealth (classify [plainCall "a" 90 1]) (ordinals [plainCall "a" 90 1]) =
        .ok saved ∧
      [plainCall "b" 0 2].foldlM Health.add (Health.load saved) = .ok h ∧
      h.incidents [] = (classify [plainCall "a" 90 1, plainCall "b" 0 2]).events := by
  obtain ⟨⟨saved, hsaved, hcurrent⟩, hresume, -⟩ :=
    resumed_classification [plainCall "a" 90 1] [plainCall "b" 0 2] (by decide) []
      [plainCall "a" 90 1] (by decide)
  obtain ⟨h, hrun, -, -, hincidents⟩ := hresume saved (hcurrent.symm ▸ hsaved)
  exact ⟨saved, h, hsaved, hrun, hincidents⟩

/-- A key that comes again can be in two incidents. -/
theorem repeated_key : ¬ ∀ (rows : List Call) (key : PyStr),
    ((classify rows).events.filter fun e => key ∈ e.occurrenceKeys.list).length ≤ 1 := by
  intro hall
  have htwice := hall [plainCall "0" 90 0, plainCall "1" 90 1, plainCall "2" 90 2,
    plainCall "a" 0 3, plainCall "b" 0 4, plainCall "5" 90 5, plainCall "6" 90 6,
    plainCall "7" 90 7, plainCall "a" 0 8, plainCall "b" 0 9] (py "a")
  revert htwice
  decide +kernel

end Codexon.Caching
