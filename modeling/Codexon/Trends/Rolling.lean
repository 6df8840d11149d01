import Codexon.Trends.Populations
import Mathlib.Data.List.Dedup

/-!
# Codexon.Trends.Rolling

Both implementations prepare the same populations.
-/

namespace Codexon.Trends

open List

/-! ## the numbers of the sessions -/

section Sessions

variable {κ : Type} [DecidableEq κ] {ks rest : List κ} {k : κ}

/-- A key that is new is the last. -/
def joined (ks : List κ) (k : κ) : List κ := if k ∈ ks then ks else ks ++ [k]

theorem prefix_joined : ks <+: joined ks k := by
  unfold joined
  split
  · exact prefix_rfl
  · exact prefix_append ks [k]

theorem mem_joined : k ∈ joined ks k := by
  unfold joined
  split
  · assumption
  · simp

def firsts (ks : List κ) : List κ → List κ
  | [] => ks
  | k :: rest => firsts (joined ks k) rest

theorem prefix_firsts : ks <+: firsts ks rest := by
  induction rest generalizing ks with
  | nil => exact prefix_rfl
  | cons k rest ih => exact prefix_joined.trans ih

theorem mem_firsts (h : k ∈ rest) : k ∈ firsts ks rest := by
  induction rest generalizing ks with
  | nil => contradiction
  | cons k' rest ih =>
    obtain rfl | h := mem_cons.mp h
    · have hprefix : joined ks k <+: firsts (joined ks k) rest := prefix_firsts
      exact hprefix.subset mem_joined
    · exact ih h

def place (ks : List κ) (k : κ) : Nat := ks.idxOf k

theorem place_injOn (ks : List κ) : Set.InjOn (place ks) { k | k ∈ ks } :=
  fun _ hk _ _ heq => (idxOf_inj hk).mp heq

theorem getElem?_place (h : k ∈ ks) : ks[place ks k]? = some k := List.getElem?_idxOf h

theorem place_new (h : k ∉ ks) : place (ks ++ [k]) k = ks.length := by
  unfold place
  rw [idxOf_append_of_notMem h]
  simp

theorem place_firsts (h : k ∈ ks) : place (firsts ks rest) k = place ks k := by
  unfold place
  obtain ⟨more, hmore⟩ : ks <+: firsts ks rest := prefix_firsts
  rw [← hmore, idxOf_append_of_mem h]

theorem enter_eq {sessions : Dict (PyStr × PyStr) Nat} {ks : List (PyStr × PyStr)}
    (h : sessions.entries = ks.zipIdx) (key : PyStr × PyStr) :
    (enter sessions key).1.entries = (joined ks key).zipIdx ∧
      (enter sessions key).2 = place (joined ks key) key := by
  have hkeys : sessions.entries.map Prod.fst = ks := by rw [h, zipIdx_map_fst]
  unfold enter joined
  by_cases hmem : key ∈ ks
  · have hget : sessions.get? key = some (place ks key) := by
      rw [Dict.get?_eq_some, h, mem_zipIdx_iff_getElem?]
      exact getElem?_place hmem
    rw [hget, if_pos hmem]
    exact ⟨h, rfl⟩
  · have hget : sessions.get? key = none := Dict.get?_eq_none.mpr (by rwa [hkeys])
    have hlength : sessions.entries.length = ks.length := by rw [h, length_zipIdx]
    rw [hget, if_neg hmem]
    constructor
    · rw [Dict.entries_set_of_not_mem (by rwa [hkeys]), h, zipIdx_append, length_zipIdx]
      simp
    · rw [place_new hmem]
      exact hlength

end Sessions

/-! ## what is read -/

/-- The texts of a session are readable. -/
def Row.Named (row : Row) : Prop :=
  Native.Encodable row.record.home ∧ Native.Encodable row.record.sid

def rowSpent (metric : Metric) (row : Row) : ℚ :=
  integerOf (row.items.get? metric.field) +
    match metric with
    | .sessionCache =>
      integerOf (row.items.get? .input) + integerOf (row.items.get? .cached)
    | .outputSpeed =>
      integerOf (row.items.get? .output) + integerOf (row.items.get? .completionLatency)
    | _ => 0

/-- The input of a call and the cached part, when both are valid. -/
def Row.portion (row : Row) : Option (ℚ × ℚ) :=
  match row.number .input, row.number .cached with
  | some input, some cached =>
    if cached ≤ input && !row.inputConflict then some (input, cached) else none
  | _, _ => none

def Row.seconds (row : Row) : Option ℚ :=
  ((row.number .completionLatency).filter (0 < ·)).map (· / 1000)

def prepared (metric : Metric) (session : PyStr × PyStr → Nat) (row : Row) : MetricRow :=
  match metric with
  | .sessionCache =>
    { value := row.number metric.field
      input := row.portion.map Prod.fst
      cached := row.portion.map Prod.snd
      session := session row.session }
  | .outputSpeed =>
    { value := if row.timed then row.number metric.field else none
      output := row.number .output
      seconds := row.seconds
      session := session row.session }
  | metric => { value := row.number metric.field, session := session row.session }

theorem readMetrics_spends (metric : Metric) (row : Row) (session : PyStr × PyStr → Nat) :
    Spends (readMetrics metric row (session row.session)) (rowSpent metric row)
      (prepared metric session row) := by
  have hnumber : ∀ field, Spends (number row field) (integerOf (row.items.get? field))
      (row.number field) := number_spends row
  unfold readMetrics rowSpent
  apply (hnumber metric.field).bind
  cases metric with
  | sessionCache =>
    apply (hnumber .input).bind
    apply (hnumber .cached).map
    have hkept : prepared .sessionCache session row = {
        value := row.number .sessionCache
        input := if (!row.inputConflict && match row.number .input, row.number .cached with
          | some a, some b => decide (b ≤ a)
          | _, _ => false) then row.number .input else none
        cached := if (!row.inputConflict && match row.number .input, row.number .cached with
          | some a, some b => decide (b ≤ a)
          | _, _ => false) then row.number .cached else none
        session := session row.session } := by
      unfold prepared Row.portion
      cases row.number .input with
      | none => simp [Metric.field]
      | some input =>
        cases row.number .cached with
        | none => simp [Metric.field]
        | some cached =>
          cases hconflict : row.inputConflict with
          | true => simp [Metric.field]
          | false => by_cases hle : cached ≤ input <;> simp [Metric.field, hle]
    rw [hkept]
    exact Spends.pure _
  | outputSpeed =>
    apply (hnumber .output).bind
    apply (hnumber .completionLatency).map
    have hkept : prepared .outputSpeed session row = {
        value := if (row.number .output).isNone || row.seconds.isNone then none
          else row.number .outputSpeed
        output := row.number .output
        seconds := row.seconds
        session := session row.session } := by
      unfold prepared Row.timed Row.seconds
      cases row.number .output with
      | none => simp
      | some output =>
        cases row.number .completionLatency with
        | none => simp
        | some latency => by_cases hpos : 0 < latency <;> simp [Metric.field, hpos]
    rw [hkept]
    exact Spends.pure _
  | _ => exact Spends.pure _

theorem readRows_spends {metric : Metric} {rows : List Row} (h : ∀ row ∈ rows, row.Named)
    {sessions : Dict (PyStr × PyStr) Nat} {ks : List (PyStr × PyStr)}
    (hsessions : sessions.entries = ks.zipIdx) :
    Spends (readRows metric sessions rows) (rows.map (rowSpent metric)).sum
      (rows.map (prepared metric (place (firsts ks (rows.map Row.session))))) := by
  induction rows generalizing sessions ks with
  | nil => exact Spends.pure []
  | cons row rows ih =>
    obtain ⟨hentries, hsession⟩ := enter_eq hsessions row.session
    have hrest := ih (fun r hr => h r (mem_cons_of_mem _ hr)) hentries
    have hplace : place (firsts (joined ks row.session) (rows.map Row.session)) row.session =
        place (joined ks row.session) row.session := place_firsts mem_joined
    have hread := readMetrics_spends metric row
      (place (firsts ks ((row :: rows).map Row.session)))
    have hown : place (firsts ks ((row :: rows).map Row.session)) row.session =
        (enter sessions row.session).2 := by
      rw [hsession]
      exact hplace
    rw [hown] at hread
    obtain ⟨hhome, hsid⟩ := h row mem_cons_self
    unfold readRows
    rw [Native.extractText_of hhome, Native.extractText_of hsid]
    apply (Spends.pure row.record.home).bind_zero
    apply (Spends.pure row.record.sid).bind_zero
    exact hread.bind (hrest.map (Spends.pure _))

/-! ## populations -/

section Population

variable {metric : Metric} {φ : PyStr × PyStr → Nat} {S : Set (PyStr × PyStr)} {items : List Row}

def Row.added (row : Row) (metric : Metric) (cache : Cache) : Cache :=
  if metric = .sessionCache then row.portion.elim cache fun p => cache.add p.1 p.2 else cache

theorem session_prepared (row : Row) : (prepared metric φ row).session = φ row.session := by
  cases metric <;> rfl

theorem sum_prepared (row : Row) : (prepared metric φ row).sum metric = row.added metric := by
  funext cache
  unfold MetricRow.sum Row.added
  by_cases h : metric = .sessionCache
  · subst h
    rw [if_pos rfl, if_pos rfl]
    unfold prepared
    cases row.portion <;> rfl
  · rw [if_neg h, if_neg h]

def sessionsOf (metric : Metric) (items : List Row) : Dict (PyStr × PyStr) Cache :=
  items.foldl (fun d row => d.set row.session (row.added metric ((d.get? row.session).getD {})))
    ⟨[], nodup_nil_pairs⟩

theorem foldl_addSession : items.foldl addSession {} = sessionsOf .sessionCache items := by
  have hadd : addSession = fun d row =>
      d.set row.session (row.added .sessionCache ((d.get? row.session).getD {})) := by
    funext d row
    unfold addSession Row.added Row.portion
    cases row.number .input with
    | none => rfl
    | some input =>
      cases row.number .cached with
      | none => rfl
      | some cached => by_cases h : cached ≤ input && !row.inputConflict <;> simp [h]
  rw [hadd]
  rfl

theorem cells_eq (metric : Metric) (hφ : S.InjOn φ) (hitems : ∀ row ∈ items, row.session ∈ S) :
    (sumSessions (items.map (prepared metric φ)) metric).cells =
      (sessionsOf metric items).entries.map Prod.snd := by
  have hholds : (items.foldl (fun (s : Slots Nat Cache) row =>
      s.upsert (φ row.session) {} (row.added metric)) {}).Holds
      (items.foldl (fun d row => d.set (φ row.session)
        (row.added metric ((d.get? (φ row.session)).getD {}))) {}) := Slots.Holds.nil.foldl
  have hrelabels : Dict.Relabels φ (sessionsOf metric items)
      (items.foldl (fun d row => d.set (φ row.session)
        (row.added metric ((d.get? (φ row.session)).getD {}))) {}) :=
    Dict.Relabels.foldl rfl hφ (by simp) hitems
  have hsum : sumSessions (items.map (prepared metric φ)) metric =
      items.foldl (fun s row => s.upsert (φ row.session) {} (row.added metric)) {} := by
    unfold sumSessions
    rw [foldl_map]
    simp only [session_prepared, sum_prepared]
  rw [hsum, hholds.cells, hrelabels, List.map_map]
  rfl

theorem length_sessions (metric : Metric) (items : List Row) :
    (sessionsOf metric items).entries.length = (items.map Row.session).dedup.length := by
  have hkeys : ((sessionsOf metric items).entries.map Prod.fst).Perm
      (items.map Row.session).dedup := by
    rw [perm_ext_iff_of_nodup (sessionsOf metric items).nodup (nodup_dedup _)]
    intro key
    rw [mem_dedup]
    have hmem : key ∈ (sessionsOf metric items).entries.map Prod.fst ↔
        key ∈ ({} : Dict (PyStr × PyStr) Cache).entries.map Prod.fst ∨
          key ∈ items.map Row.session := Dict.mem_keys_foldl
    simpa using hmem
  simpa using hkeys.length_eq

def timed (items : List Row) : List Row :=
  (items.filter fun row => (row.number .outputSpeed).isSome).filter Row.timed

theorem values_timed : (items.map (prepared .outputSpeed φ)).filterMap MetricRow.value =
    (timed items).filterMap (·.number .outputSpeed) := by
  unfold timed
  rw [filterMap_map, filterMap_filter, filterMap_filter]
  refine filterMap_congr fun row _ => ?_
  dsimp only [Function.comp, prepared, Metric.field]
  cases row.timed <;> cases row.number .outputSpeed <;> rfl

theorem filter_timed : (items.map (prepared .outputSpeed φ)).filter (·.value.isSome) =
    (timed items).map (prepared .outputSpeed φ) := by
  unfold timed
  rw [filter_map, filter_filter]
  congr 1
  refine filter_congr fun row _ => ?_
  dsimp only [Function.comp, prepared, Metric.field]
  cases row.timed <;> cases row.number .outputSpeed <;> rfl

theorem output_timed :
    ((items.map (prepared .outputSpeed φ)).filter (·.value.isSome)).filterMap MetricRow.output =
      (timed items).filterMap (·.number .output) := by
  rw [filter_timed, filterMap_map]
  rfl

theorem seconds_timed :
    ((items.map (prepared .outputSpeed φ)).filter (·.value.isSome)).filterMap MetricRow.seconds =
      (timed items).filterMap fun row => (row.number .completionLatency).map (· / 1000) := by
  rw [filter_timed, filterMap_map]
  refine filterMap_congr fun row hrow => ?_
  have htimed : row.timed := (List.mem_filter.mp hrow).2
  unfold Row.timed at htimed
  dsimp only [Function.comp, prepared, Row.seconds]
  cases hlatency : row.number .completionLatency with
  | none => rfl
  | some latency =>
    have hpos : 0 < latency := by simp_all
    simp [hpos]

theorem population_eq (metric : Metric) (items : List Row) (hφ : S.InjOn φ)
    (hitems : ∀ row ∈ items, row.session ∈ S) :
    (population (items.map (prepared metric φ)) metric).1 = (metricPopulation items metric).1 ∧
      (population (items.map (prepared metric φ)) metric).2.1 =
        (metricPopulation items metric).2.1 ∧
      totalsOf metric (population (items.map (prepared metric φ)) metric).2.2.1 =
        (metricPopulation items metric).2.2 ∧
      (population (items.map (prepared metric φ)) metric).2.2.2 =
        (items.map Row.session).dedup.length := by
  have hcells := cells_eq metric hφ hitems
  have hlength := length_sessions metric items
  unfold population metricPopulation
  simp only [hcells, length_map, hlength, Statistics.compensatedSum_eq]
  cases metric with
  | count => exact ⟨rfl, rfl, rfl, rfl⟩
  | sessionCache =>
    rw [foldl_addSession]
    refine ⟨rfl, hlength.symm, ?_, rfl⟩
    simp only [totalsOf]
    have hcalls : ∀ cs : List Cache, ⌊(cs.map fun c => (c.calls : ℚ)).sum⌋.toNat =
        (cs.map Cache.calls).sum := by
      intro cs
      have hcast : (cs.map fun c => (c.calls : ℚ)).sum = ((cs.map Cache.calls).sum : Nat) := by
        induction cs with
        | nil => simp
        | cons c cs ih => simp [ih]
      rw [hcast, Int.floor_natCast, Int.toNat_natCast]
    rw [hcalls]
  | outputSpeed =>
    refine ⟨values_timed, rfl, ?_, rfl⟩
    dsimp only [totalsOf]
    rw [output_timed, seconds_timed]
    rfl
  | duration | cost | input | reasoning effort =>
    refine ⟨?_, rfl, ?_, rfl⟩
    · rw [filterMap_map]
      rfl
    · rw [filterMap_map]
      rfl

/-! ## windows -/

theorem slice_map {α β : Type} (f : α → β) (xs : List α) (left right : Nat) :
    slice (xs.map f) left right = (slice xs left right).map f := by
  unfold slice
  rw [← map_take, ← map_drop]

theorem mem_slice {α : Type} {xs : List α} {left right : Nat} {a : α}
    (h : a ∈ slice xs left right) : a ∈ xs := mem_of_mem_take (mem_of_mem_drop h)

theorem mean_eq (values : List ℚ) (metric : Metric) (items : List Row) (amounts : ℚ × ℚ × ℚ)
    (htotals : totalsOf metric amounts = (metricPopulation items metric).2.2) :
    meanOutput values amounts metric =
      representativeMean values (metricPopulation items metric).2.2 metric := by
  unfold meanOutput
  rw [← htotals, Statistics.compensatedSum_eq]
  cases metric <;> rfl

theorem window_eq (hφ : S.InjOn φ) (hitems : ∀ row ∈ items, row.session ∈ S) (window : Window) :
    restorePopulation metric (windowOutput (items.map (prepared metric φ)) metric window) =
      populationPython items metric window := by
  obtain ⟨hvalues, htotal, htotals, hsessions⟩ := population_eq metric
    (slice items window.left window.right) hφ fun row hrow => hitems row (mem_slice hrow)
  obtain ⟨hsupport, -, -, -⟩ := population_eq metric
    (slice items window.supportLeft window.supportRight) hφ
    fun row hrow => hitems row (mem_slice hrow)
  have hmean := mean_eq (metricPopulation (slice items window.left window.right) metric).1 metric
    (slice items window.left window.right) _ htotals
  unfold restorePopulation windowOutput populationPython distributionStatistics
  simp only [slice_map, hvalues, htotal, htotals, hsessions, hsupport, hmean,
    Statistics.length_ordered]
  rfl

theorem group_eq (metric : Metric) (windows : List Window) (hφ : S.InjOn φ)
    (hitems : ∀ row ∈ items, row.session ∈ S) :
    groupNative metric {
        eligible := if metric = .count then (items.map (prepared metric φ)).length
          else (population (items.map (prepared metric φ)) metric).1.length
        total := (population (items.map (prepared metric φ)) metric).2.1
        low := (population (items.map (prepared metric φ)) metric).1.min?.getD 0
        high := (population (items.map (prepared metric φ)) metric).1.max?.getD 1
        populations := windows.map (windowOutput (items.map (prepared metric φ)) metric) } =
      groupPython items metric windows := by
  obtain ⟨hvalues, htotal, -, -⟩ := population_eq metric items hφ hitems
  have hwindows : (windows.map (windowOutput (items.map (prepared metric φ)) metric)).map
      (restorePopulation metric) = windows.map (populationPython items metric) := by
    rw [List.map_map]
    exact map_congr_left fun window _ => window_eq hφ hitems window
  unfold groupNative groupPython
  simp only [hvalues, htotal, hwindows, length_map]
  by_cases hcount : metric = .count
  · subst hcount
    simp [metricPopulation]
  · obtain ⟨hlow, hhigh⟩ := Statistics.bounds_eq (metricPopulation items metric).1 0 1
    simp only [hcount, if_false, ne_eq, not_false_iff, decide_true, Bool.and_true,
      decide_eq_true_eq, ite_not, hlow, hhigh]

end Population

/-- The extension fails where the integers it reads might not be exact, and else it prepares what
Python does. -/
theorem trendPopulations_agrees (metric : Metric) {rows : List Row} {windows : List Window}
    (hrows : ∀ row ∈ rows, row.Named)
    (hwindows : ∀ window ∈ windows, window.outside rows.length = false) :
    Agrees (trendPopulations rows metric windows) (fun output => .ok (groupNative metric output))
      (rows.map (rowSpent metric)).sum (groupPython rows metric windows) := by
  have hspends : Spends (readRows metric {} rows) (rows.map (rowSpent metric)).sum
      (rows.map (prepared metric (place (firsts [] (rows.map Row.session))))) :=
    readRows_spends hrows rfl
  have hread := hspends.run'
  unfold Agrees trendPopulations
  rw [hread]
  by_cases hspent : (rows.map (rowSpent metric)).sum ≤ largestExact
  · rw [if_pos hspent, if_pos hspent]
    have hinside : ¬windows.any (·.outside (rows.map (prepared metric
        (place (firsts [] (rows.map Row.session))))).length) := by
      simpa using hwindows
    have hsessions : ∀ row ∈ rows, row.session ∈ firsts [] (rows.map Row.session) := fun row hrow =>
      mem_firsts (List.mem_map.mpr ⟨row, hrow, rfl⟩)
    have hplace := place_injOn (firsts [] (rows.map Row.session))
    have hgroup := group_eq metric windows hplace hsessions
    simp only [bind, Except.bind]
    rw [if_neg hinside]
    exact ⟨_, rfl, congrArg Except.ok hgroup⟩
  · rw [if_neg hspent, if_neg hspent]
    rfl

theorem group_agrees (native : Bool) (metric : Metric) {rows : List Row} {windows : List Window}
    (hrows : ∀ row ∈ rows, row.Named)
    (hwindows : ∀ window ∈ windows, window.outside rows.length = false) :
    group native rows metric windows = .ok (groupPython rows metric windows) := by
  have hagrees := trendPopulations_agrees metric hrows hwindows
  unfold group
  unfold Agrees at hagrees
  cases native with
  | false => rfl
  | true =>
    split at hagrees
    · obtain ⟨output, houtput, hrestore⟩ := hagrees
      simpa only [houtput, if_true] using hrestore
    · simp only [hagrees, if_true]

end Codexon.Trends
