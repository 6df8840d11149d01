import Codexon.RequestIntervals.Candidates

/-!
# Codexon.RequestIntervals.Conserved

The intervals of the merged spans.  Every accepted call is in one interval, and what a cycle used
is idle, pending or in the merged spans.
-/

namespace Codexon.RequestIntervals

open List

open QuotaClip (Endpoint CostRow Cycle)

/-! ## clipping between two ends -/

theorem pair_sublist {α : Type} {xs : List α} {i j : Nat} {a b : α} (ha : xs[i]? = some a)
    (hb : xs[j]? = some b) (hij : i < j) : [a, b].Sublist xs := by
  obtain ⟨hi, hget⟩ := List.getElem?_eq_some_iff.mp ha
  have hdrop : xs.drop i = a :: xs.drop (i + 1) := by rw [drop_eq_getElem_cons hi, hget]
  have hmem : b ∈ xs.drop (i + 1) := by
    refine mem_of_getElem? (i := j - (i + 1)) ?_
    rw [List.getElem?_drop, ← hb]
    congr 1
    omega
  have hpair : [a, b].Sublist (xs.drop i) := by
    rw [hdrop]
    exact (singleton_sublist.mpr hmem).cons_cons a
  exact hpair.trans (drop_sublist i xs)

theorem span_within {points : List Endpoint} (hsorted : points.Pairwise fun a b => a.1 ≤ b.1)
    {i j : Nat} {a b : Endpoint} (ha : points[i]? = some a) (hb : points[j]? = some b)
    (hij : i < j) : ∃ first last, QuotaClip.span (points.filter fun r => a.1 ≤ r.1 && r.1 ≤ b.1) =
      some (first, last) ∧ first.1 = a.1 ∧ last.1 = b.1 := by
  have hab : a.1 ≤ b.1 := by
    have hpair := hsorted.sublist (pair_sublist ha hb hij)
    exact rel_of_pairwise_cons hpair (by simp)
  set within := points.filter fun r => a.1 ≤ r.1 && r.1 ≤ b.1 with hwithin
  have hsub : [a, b].Sublist within := by
    have h := (pair_sublist ha hb hij).filter fun r : Endpoint => a.1 ≤ r.1 && r.1 ≤ b.1
    simpa [hab] using h
  have hrange : ∀ r ∈ within, a.1 ≤ r.1 ∧ r.1 ≤ b.1 := fun r hr => by
    simpa using (List.mem_filter.mp hr).2
  have hpairwise : within.Pairwise fun a b => a.1 ≤ b.1 := hsorted.filter _
  have hsome : (QuotaClip.span within).isSome := QuotaClip.span_isSome.mpr hsub.length_le
  obtain ⟨⟨first, last⟩, hspan⟩ := Option.isSome_iff_exists.mp hsome
  obtain ⟨hhead, hlast⟩ := QuotaClip.span_some hspan
  have hfirst : first ∈ within := mem_of_head? hhead
  have hlastMem : last ∈ within := mem_of_getLast? hlast
  refine ⟨first, last, hspan, le_antisymm ?_ (hrange first hfirst).1,
    le_antisymm (hrange last hlastMem).2 ?_⟩
  · obtain ⟨rest, hcons⟩ := head?_eq_some_iff.mp hhead
    have hmem : a ∈ within := hsub.subset (by simp)
    rw [hcons] at hmem hpairwise
    rcases mem_cons.mp hmem with rfl | hmem
    · exact le_rfl
    · exact rel_of_pairwise_cons hpairwise hmem
  · obtain ⟨rest, hconcat⟩ := getLast?_eq_some_iff.mp hlast
    have hmem : b ∈ within := hsub.subset (by simp)
    rw [hconcat] at hmem hpairwise
    rcases mem_append.mp hmem with hmem | hmem
    · exact (pairwise_append.mp hpairwise).2.2 b hmem last (by simp)
    · rw [mem_singleton.mp hmem]

theorem flatMap_filter_perm {α β : Type} {p : β → α → Bool} {keys : List β} {xs : List α}
    (h : keys.Pairwise fun k l => ∀ x ∈ xs, p k x = true → p l x = false) :
    (keys.flatMap fun k => xs.filter (p k)).Perm (xs.filter fun x => keys.any (p · x)) := by
  induction keys with
  | nil => simp
  | cons k keys ih =>
    have hfirst : ∀ l ∈ keys, ∀ x ∈ xs, p k x = true → p l x = false :=
      (pairwise_cons.mp h).1
    have hrest := ih h.of_cons
    have hsplit := filter_append_perm (p k) (xs.filter fun x => (k :: keys).any (p · x))
    rw [filter_filter, filter_filter] at hsplit
    have hown : (xs.filter fun x => p k x && (k :: keys).any (p · x)) = xs.filter (p k) :=
      filter_congr fun x _ => by cases hk : p k x <;> simp [hk]
    have hother : (xs.filter fun x => !p k x && (k :: keys).any (p · x)) =
        xs.filter fun x => keys.any (p · x) := by
      refine filter_congr fun x hx => ?_
      rw [Bool.eq_iff_iff]
      simp only [Bool.and_eq_true, Bool.not_eq_true', any_cons, Bool.or_eq_true, any_eq_true]
      constructor
      · rintro ⟨hk, hany⟩
        exact hany.resolve_left (by simp [hk])
      · rintro ⟨l, hl, hlx⟩
        refine ⟨?_, .inr ⟨l, hl, hlx⟩⟩
        by_contra hk
        rw [Bool.not_eq_false] at hk
        rw [hfirst l hl x hx hk] at hlx
        cases hlx
    rw [hown, hother] at hsplit
    exact (List.Perm.append_left _ hrest).trans hsplit

/-! ## the parts -/

/-- A forward-tracking cycle, as it is built from its observations. -/
structure Tracked (cycle : Cycle) : Prop where
  forward : cycle.forwardTracking = true
  sorted : cycle.endpoints.Pairwise fun a b => a.1 ≤ b.1
  rising : cycle.endpoints.Pairwise fun a b => a.2 ≤ b.2
  delta : cycle.delta = (cycle.endpoints.getLast?.elim 0 Prod.snd) -
    (cycle.endpoints.head?.elim 0 Prod.snd)

section Parts

variable {text : ℚ → PyStr} {prepared : Bool} {cycle : Cycle} {requests : List Window}
  {range : Span}

theorem Tracked.times (h : Tracked cycle) : (times cycle).Pairwise (· ≤ ·) :=
  pairwise_map.mpr h.sorted

theorem length_times : (RequestIntervals.times cycle).length = cycle.endpoints.length :=
  length_map _

theorem ranges_merged (requests : List Window) (h : Tracked cycle) :
    Ranges.Merged (ranges cycle requests) ((accepted cycle requests).map Prod.fst) := by
  refine Ranges.merged_merge fun r hr => ?_
  obtain ⟨a, ha, rfl⟩ := List.mem_map.mp hr
  obtain ⟨_, -, -, hfits, -⟩ := accepted_spec h.times ha
  exact hfits.lt.le

def timeOf (cycle : Cycle) (i : Nat) : ℚ := (times cycle).getD i 0

/-- A call of an interval. -/
def within (cycle : Cycle) (range : Span) (row : CostRow) : Bool :=
  (timeOf cycle range.1 < row.ts && row.ts ≤ timeOf cycle range.2) &&
    row.requestStart.all (timeOf cycle range.1 ≤ ·)

theorem range_accepted (h : Tracked cycle) (hrange : range ∈ ranges cycle requests) :
    range.1 < range.2 ∧ range.2 < cycle.endpoints.length ∧
      ∃ row ∈ acceptedRows cycle, within cycle range row = true := by
  have hmerged := ranges_merged requests h
  have hspans : ∀ span ∈ (accepted cycle requests).map Prod.fst, span.1 < span.2 := by
    intro span hspan
    obtain ⟨a, ha, rfl⟩ := List.mem_map.mp hspan
    obtain ⟨_, -, -, hfits, -⟩ := accepted_spec h.times ha
    exact hfits.lt
  obtain ⟨span, hspan, hstart, hstop⟩ := hmerged.exists_part hspans hrange
  have hlt := hspans span hspan
  obtain ⟨a, ha, rfl⟩ := List.mem_map.mp hspan
  obtain ⟨row, hrow, haccepted, hfits, -⟩ := accepted_spec h.times ha
  obtain ⟨other, hother, hlast⟩ := hmerged.stops range hrange
  obtain ⟨b, hb, rfl⟩ := List.mem_map.mp hother
  obtain ⟨_, -, -, hfitsLast, -⟩ := accepted_spec h.times hb
  have hlength : range.2 < cycle.endpoints.length := by
    rw [← hlast, ← length_times]
    exact hfitsLast.le
  refine ⟨by omega, hlength, started row, ?_, ?_⟩
  · exact mem_map_of_mem (List.mem_filter.mpr ⟨mem_of_getElem? hrow, haccepted⟩)
  · have hafter : row.ts ≤ timeOf cycle range.2 :=
      hfits.after.trans (getD_mono h.times hstop (by rw [length_times]; exact hlength))
    unfold within timeOf
    rw [hstart]
    simp only [Bool.and_eq_true, decide_eq_true_eq]
    exact ⟨⟨hfits.before, hafter⟩, hfits.start⟩

theorem accepted_range (requests : List Window) (h : Tracked cycle) {row : CostRow}
    (hrow : row ∈ acceptedRows cycle) :
    ∃ range ∈ ranges cycle requests, within cycle range row = true := by
  have hmerged := ranges_merged requests h
  obtain ⟨row, hmem, rfl⟩ := List.mem_map.mp hrow
  obtain ⟨hmem, haccepted⟩ := List.mem_filter.mp hmem
  obtain ⟨index, hget⟩ := List.getElem?_of_mem hmem
  obtain ⟨a, ha, hindex⟩ := List.mem_map.mp
    ((mem_included requests).mpr ⟨row, hget, haccepted⟩)
  obtain ⟨other, hother, -, hfits, -⟩ := accepted_spec h.times ha
  rw [hindex, hget] at hother
  cases hother
  obtain ⟨range, hrange, hlo, hhi⟩ := hmerged.contains (mem_map_of_mem ha) hfits.lt
  have hlength := (range_accepted h hrange).2.1
  refine ⟨range, hrange, ?_⟩
  have hbefore : timeOf cycle range.1 ≤ (times cycle).getD a.1.1 0 :=
    getD_mono h.times hlo (hfits.lt.trans hfits.le)
  have hafter : (times cycle).getD a.1.2 0 ≤ timeOf cycle range.2 :=
    getD_mono h.times hhi (by rw [length_times]; exact hlength)
  have hstart : (started row).requestStart.all (timeOf cycle range.1 ≤ ·) = true := by
    have hown := hfits.start
    unfold started
    cases hvalue : requestStart row with
    | none => rfl
    | some start =>
      rw [hvalue] at hown
      simpa using hbefore.trans (by simpa using hown)
  unfold within
  rw [hstart]
  simp only [Bool.and_true, Bool.and_eq_true, decide_eq_true_eq]
  exact ⟨hbefore.trans_lt hfits.before, hfits.after.trans hafter⟩

theorem ranges_apart (h : Tracked cycle) : (ranges cycle requests).Pairwise fun r s => r.2 < s.1 ∧
      timeOf cycle r.2 ≤ timeOf cycle s.1 := by
  have hmerged := ranges_merged requests h
  refine List.Pairwise.imp_of_mem (fun {r s} _ hs hrs => ?_) hmerged.apart
  obtain ⟨hlt, hlength, -⟩ := range_accepted h hs
  exact ⟨hrs, getD_mono h.times hrs.le (by rw [length_times]; omega)⟩

theorem acceptedRows_eligible {row : CostRow} (hrow : row ∈ acceptedRows cycle) :
    QuotaClip.aliased row.model ∉ cycle.separateModels ∧ row.cost.isSome = true := by
  obtain ⟨row, hmem, rfl⟩ := List.mem_map.mp hrow
  obtain ⟨hmem, haccepted⟩ := List.mem_filter.mp hmem
  have heligible := (List.mem_filter.mp hmem).2
  simp only [isAccepted, Bool.and_eq_true] at haccepted
  have hmodel : QuotaClip.aliased row.model ∉ cycle.separateModels := by simpa using heligible
  exact ⟨hmodel, haccepted.1⟩

/-- **The interval of a merged span.** -/
theorem part_spec (text : ℚ → PyStr) (prepared : Bool) (h : Tracked cycle)
    (hrange : range ∈ ranges cycle requests) :
    ∃ p, part text prepared cycle requests range = some p ∧ p.start = timeOf cycle range.1 ∧
      p.stop = timeOf cycle range.2 ∧
      p.costRows = (acceptedRows cycle).filter (within cycle range) ∧
      p.cost = some (QuotaClip.known p.costRows).sum := by
  obtain ⟨hlt, hlength, row, hrow, hwithin⟩ := range_accepted h hrange
  have hget : ∀ i, i < cycle.endpoints.length →
      ∃ point, cycle.endpoints[i]? = some point ∧ point.1 = timeOf cycle i := by
    intro i hi
    refine ⟨cycle.endpoints[i], List.getElem?_eq_getElem hi, ?_⟩
    simp [timeOf, times, hi]
  obtain ⟨a, ha, hlo⟩ := hget range.1 (hlt.trans hlength)
  obtain ⟨b, hb, hhi⟩ := hget range.2 hlength
  obtain ⟨first, last, hspan, hfirst, hlast⟩ := span_within h.sorted ha hb hlt
  rw [hlo, hhi] at hspan
  rw [hlo] at hfirst
  rw [hhi] at hlast
  have hsource : (source cycle requests).costRows = acceptedRows cycle := selected_eq
  have hends : (source cycle requests).within (some (timeOf cycle range.1))
      (some (timeOf cycle range.2)) =
      cycle.endpoints.filter fun r =>
        timeOf cycle range.1 ≤ r.1 && r.1 ≤ timeOf cycle range.2 := rfl
  let candidates := (acceptedRows cycle).filter fun r => first.1 < r.ts ∧ r.ts ≤ last.1
  let clipped := QuotaClip.clipped (source cycle requests) (cycle.endpoints.filter fun r =>
    timeOf cycle range.1 ≤ r.1 && r.1 ≤ timeOf cycle range.2) candidates first last
  have hclip : QuotaClip.clip (source cycle requests) (some (timeOf cycle range.1))
      (some (timeOf cycle range.2)) = some clipped := by
    unfold QuotaClip.clip
    dsimp only
    rw [hends, hspan, hsource]
    rfl
  have hrows : clipped.costRows = (acceptedRows cycle).filter (within cycle range) := by
    have hfilter : clipped.costRows = candidates.filter fun r => r.requestStart.all (first.1 ≤ ·) :=
      rfl
    rw [hfilter, filter_filter, hfirst]
    refine filter_congr fun r _ => ?_
    rw [hlast, Bool.and_comm]
    simp [within]
  have heligible : (source cycle requests).eligible clipped.costRows = clipped.costRows := by
    refine filter_eq_self.mpr fun r hr => ?_
    rw [hrows] at hr
    exact decide_eq_true (acceptedRows_eligible (mem_of_mem_filter hr)).1
  have hmem : row ∈ clipped.costRows := by
    rw [hrows]
    exact List.mem_filter.mpr ⟨hrow, hwithin⟩
  have hknown : QuotaClip.known clipped.costRows ≠ [] := by
    obtain ⟨cost, hcost⟩ := Option.isSome_iff_exists.mp (acceptedRows_eligible hrow).2
    exact ne_nil_of_mem (mem_filterMap.mpr ⟨row, hmem, hcost⟩)
  have hcalls : clipped.pricedCalls ≠ 0 := by
    have hcount : clipped.pricedCalls =
        (QuotaClip.known ((source cycle requests).eligible clipped.costRows)).length := rfl
    rw [hcount, heligible]
    exact fun hzero => hknown (length_eq_zero_iff.mp hzero)
  have hcost : clipped.cost = some (QuotaClip.known clipped.costRows).sum := by
    have hclippedCost : clipped.cost = QuotaClip.clippedCost (source cycle requests)
        ((source cycle requests).eligible clipped.costRows) clipped.costComplete
          (clipped.pendingUsageTimes ≠ []) := rfl
    have hforward : (source cycle requests).forwardTracking = true := h.forward
    rw [hclippedCost, heligible]
    simp [QuotaClip.clippedCost, hforward, hknown]
  have hclipper : clipper prepared (source cycle requests) (timeOf cycle range.1)
      (timeOf cycle range.2) = some clipped := by
    unfold clipper
    split_ifs
    · exact (QuotaWindows.clipThrough_eq (source cycle requests) _ _).trans hclip
    · exact hclip
  have hpart : part text prepared cycle requests range = some { clipped with
      id := cycle.id ++ py ":local:" ++ text (timeOf cycle range.1)
      provisional := range.2 = (times cycle).length - 1 && cycle.provisional } := by
    unfold part
    dsimp only
    unfold timeOf at hclipper
    rw [hclipper]
    simp [hcalls, timeOf]
  refine ⟨_, hpart, hfirst, hlast, hrows, ?_⟩
  exact hcost

/-! ## what a cycle used -/

def usedAt (cycle : Cycle) (i : Nat) : ℚ := (cycle.endpoints.getD i (0, 0)).2

theorem usedAt_mono (h : Tracked cycle) {i j : Nat} (hij : i ≤ j)
    (hj : j < cycle.endpoints.length) : usedAt cycle i ≤ usedAt cycle j := by
  rcases Nat.eq_or_lt_of_le hij with rfl | hlt
  · exact le_rfl
  · have hi : i < cycle.endpoints.length := hlt.trans hj
    have hpair := pairwise_iff_getElem.mp h.rising i j hi hj hlt
    simpa [usedAt, hi, hj] using hpair

theorem deltaOf_eq (h : Tracked cycle) {spans : List Span} (hordered : ∀ s ∈ spans, s.1 ≤ s.2)
    (hlength : ∀ s ∈ spans, s.2 < cycle.endpoints.length) : deltaOf cycle.endpoints spans =
      (spans.map fun s => usedAt cycle s.2 - usedAt cycle s.1).sum := by
  unfold deltaOf
  congr 1
  refine map_congr_left fun s hs => max_eq_right ?_
  exact sub_nonneg.mpr (usedAt_mono h (hordered s hs) (hlength s hs))

theorem deltaOf_nonneg (points : List Endpoint) (spans : List Span) : 0 ≤ deltaOf points spans :=
  sum_nonneg fun x hx => by
    obtain ⟨s, -, rfl⟩ := List.mem_map.mp hx
    exact le_max_left _ _

/-- **What was used is idle, pending or in the spans.** -/
theorem deltas_le (requests : List Window) (h : Tracked cycle)
    (hlength : 2 ≤ cycle.endpoints.length) : deltaOf cycle.endpoints (ranges cycle requests) ≤
        deltaOf cycle.endpoints (Ranges.merge (evidence cycle requests).allRanges) ∧
      deltaOf cycle.endpoints (Ranges.merge (evidence cycle requests).allRanges) ≤ cycle.delta := by
  have hvalid := evidence_valid cycle requests
  have hall : Ranges.Merged (Ranges.merge (evidence cycle requests).allRanges)
      (evidence cycle requests).allRanges :=
    Ranges.merged_merge fun s hs => (hvalid.spans s hs).1.le
  have hmerged := ranges_merged requests h
  set n := cycle.endpoints.length - 1 with hn
  have hallStops : ∀ s ∈ Ranges.merge (evidence cycle requests).allRanges, s.2 ≤ n := by
    intro s hs
    obtain ⟨t, ht, hstop⟩ := hall.stops s hs
    have hlt := (hvalid.spans t ht).2
    rw [length_times] at hlt
    omega
  have hstops : ∀ s ∈ ranges cycle requests, s.2 ≤ n := fun s hs => by
    have hlt := (range_accepted h hs).2.1
    omega
  have hused : ∀ i < n, usedAt cycle i ≤ usedAt cycle (i + 1) := fun i hi =>
    usedAt_mono h (Nat.le_succ i) (by omega)
  have hsub : ∀ x, Ranges.Leaves (ranges cycle requests) x →
      Ranges.Leaves (Ranges.merge (evidence cycle requests).allRanges) x := by
    intro x hx
    obtain ⟨s, hs, hlo, hhi⟩ := (hmerged.leaves x).mp hx
    obtain ⟨a, ha, rfl⟩ := List.mem_map.mp hs
    obtain ⟨_, -, -, -, t, ht, hstart, hstop⟩ := accepted_spec h.times ha
    exact (hall.leaves x).mpr ⟨t, ht, hstart.le.trans hlo, hhi.trans_le hstop⟩
  have hdelta : cycle.delta = usedAt cycle n - usedAt cycle 0 := by
    have hlast : cycle.endpoints.getLast? = some (cycle.endpoints.getD n (0, 0)) := by
      rw [getLast?_eq_getElem?, ← hn, getD_eq_getElem?_getD,
        List.getElem?_eq_getElem (by omega), Option.getD_some]
    have hhead : cycle.endpoints.head? = some (cycle.endpoints.getD 0 (0, 0)) := by
      rw [head?_eq_getElem?, getD_eq_getElem?_getD,
        List.getElem?_eq_getElem (by omega), Option.getD_some]
    rw [h.delta, hlast, hhead]
    rfl
  rw [deltaOf_eq h hmerged.ordered fun s hs => (range_accepted h hs).2.1,
    deltaOf_eq h hall.ordered fun s hs => by have := hallStops s hs; omega, hdelta]
  exact ⟨Ranges.sum_growth_le hused hmerged.toSeparated hall.toSeparated hstops hallStops hsub,
    Ranges.sum_growth_le_whole hused hall.toSeparated hallStops⟩

/-! ## the intervals -/

theorem acceptedRows_of_few (h : cycle.endpoints.length < 2) : acceptedRows cycle = [] := by
  unfold acceptedRows
  rw [map_eq_nil_iff, filter_eq_nil_iff]
  intro row _ haccepted
  simp only [isAccepted, Bool.and_eq_true] at haccepted
  obtain ⟨own, hown⟩ := Option.isSome_iff_exists.mp haccepted.2
  have hlt := bounds_lt hown
  rw [length_times] at hlt
  omega

def told (p : Cycle) : (ℚ × ℚ) × List CostRow × Option ℚ := ((p.start, p.stop), p.costRows, p.cost)

def rowsOf (cycle : Cycle) (range : Span) : List CostRow :=
  (acceptedRows cycle).filter (within cycle range)

theorem parts_spec (text : ℚ → PyStr) (prepared : Bool) (requests : List Window)
    (h : Tracked cycle) :
    ((ranges cycle requests).filterMap (part text prepared cycle requests)).map told =
      (ranges cycle requests).map fun range => ((timeOf cycle range.1, timeOf cycle range.2),
        rowsOf cycle range, some (QuotaClip.known (rowsOf cycle range)).sum) := by
  rw [map_filterMap, ← filterMap_eq_map']
  refine filterMap_congr fun range hrange => ?_
  obtain ⟨p, hpart, hstart, hstop, hrows, hcost⟩ :=
    part_spec text prepared h hrange
  rw [hrows] at hcost
  rw [hpart, Option.map_some, told, hstart, hstop, hcost, hrows]
  rfl

theorem rowsOf_perm (h : Tracked cycle) :
    ((ranges cycle requests).flatMap (rowsOf cycle)).Perm (acceptedRows cycle) := by
  have hapart : (ranges cycle requests).Pairwise fun r s => ∀ row ∈ acceptedRows cycle,
      within cycle r row = true → within cycle s row = false := by
    refine (ranges_apart h).imp fun {r s} hrs row _ hr => ?_
    rw [Bool.eq_false_iff]
    intro hs
    simp only [within, Bool.and_eq_true, decide_eq_true_eq] at hr hs
    exact absurd (hr.1.2.trans hrs.2) (not_le.mpr hs.1.1)
  have hperm := flatMap_filter_perm hapart
  have hall : ((acceptedRows cycle).filter fun row =>
      (ranges cycle requests).any fun range => within cycle range row) = acceptedRows cycle := by
    refine filter_eq_self.mpr fun row hrow => ?_
    obtain ⟨range, hrange, hwithin⟩ := accepted_range requests h hrow
    exact any_eq_true.mpr ⟨range, hrange, hwithin⟩
  rw [hall] at hperm
  exact hperm

theorem sum_costs (h : Tracked cycle) :
    (((ranges cycle requests).filterMap (part text prepared cycle requests)).filterMap
      Cycle.cost).sum = (QuotaClip.known (acceptedRows cycle)).sum := by
  have hcosts : ((ranges cycle requests).filterMap (part text prepared cycle requests)).filterMap
      Cycle.cost = (((ranges cycle requests).filterMap (part text prepared cycle requests)).map
        told).filterMap fun t => t.2.2 := by
    rw [filterMap_map]
    rfl
  have hsums : ∀ rs : List Span,
      (rs.map fun range => (QuotaClip.known (rowsOf cycle range)).sum).sum =
        (QuotaClip.known (rs.flatMap (rowsOf cycle))).sum := by
    intro rs
    induction rs with
    | nil => rfl
    | cons r rs ih =>
      have happend : QuotaClip.known (rowsOf cycle r ++ rs.flatMap (rowsOf cycle)) =
          QuotaClip.known (rowsOf cycle r) ++ QuotaClip.known (rs.flatMap (rowsOf cycle)) :=
        filterMap_append
      rw [map_cons, sum_cons, ih, flatMap_cons, happend, sum_append]
  have hknown : (QuotaClip.known ((ranges cycle requests).flatMap (rowsOf cycle))).sum =
      (QuotaClip.known (acceptedRows cycle)).sum :=
    ((rowsOf_perm h).filterMap _).sum_eq
  rw [hcosts, parts_spec text prepared requests h, filterMap_map, ← hknown, ← hsums,
    ← filterMap_eq_map']
  rfl

theorem ranges_times_lt (h : Tracked cycle)
    (hstrict : cycle.endpoints.Pairwise fun a b => a.1 < b.1) :
    (ranges cycle requests).Pairwise fun r s => timeOf cycle r.2 < timeOf cycle s.1 := by
  refine List.Pairwise.imp_of_mem (fun {r s} hr hs hrs => ?_) (ranges_apart h)
  have hs' : s.1 < cycle.endpoints.length := by
    obtain ⟨hlt, hlength, -⟩ := range_accepted h hs
    exact hlt.trans hlength
  have hr' : r.2 < cycle.endpoints.length := (range_accepted h hr).2.1
  have hpair := pairwise_iff_getElem.mp hstrict r.2 s.1 hr' hs' hrs.1
  simpa [timeOf, times, hr', hs'] using hpair

end Parts

/-- **Local requests are conserved.** -/
theorem requests_conserved (text : ℚ → PyStr) (prepared : Bool) (cycle : Cycle)
    (requests : List Window) (h : Tracked cycle) :
    let (parts, diagnostics) := localRequestIntervals text prepared cycle requests
    (parts.Pairwise fun p q => p.stop ≤ q.start) ∧
      ((cycle.endpoints.Pairwise fun a b => a.1 < b.1) →
        parts.Pairwise fun p q => p.stop < q.start) ∧
      (∀ p ∈ parts, p.start < p.stop ∧ p.cost = some (QuotaClip.known p.costRows).sum ∧
        ∀ row ∈ p.costRows, p.start < row.ts ∧ row.ts ≤ p.stop) ∧
      (parts.flatMap Cycle.costRows).Perm (acceptedRows cycle) ∧
      (parts.filterMap Cycle.cost).sum = (QuotaClip.known (acceptedRows cycle)).sum ∧
      0 ≤ diagnostics.idleDelta ∧ 0 ≤ diagnostics.pendingDelta ∧
      0 ≤ deltaOf cycle.endpoints (ranges cycle requests) ∧
      diagnostics.idleDelta + diagnostics.pendingDelta +
        deltaOf cycle.endpoints (ranges cycle requests) = cycle.delta := by
  by_cases hfew : cycle.endpoints.length < 2
  · have hranges : ranges cycle requests = [] := by
      refine eq_nil_iff_forall_not_mem.mpr fun r hr => ?_
      obtain ⟨hlt, hlength, -⟩ := range_accepted h hr
      omega
    have hdelta : cycle.delta = 0 := by
      rw [h.delta]
      rcases hends : cycle.endpoints with _ | ⟨a, _ | ⟨b, rest⟩⟩
      · simp
      · simp
      · simp [hends] at hfew
    unfold localRequestIntervals
    rw [if_pos hfew, hranges, acceptedRows_of_few hfew, hdelta]
    simp [deltaOf, QuotaClip.known]
  · unfold localRequestIntervals
    rw [if_neg hfew]
    dsimp only
    have htold := parts_spec text prepared requests h
    set parts := (ranges cycle requests).filterMap (part text prepared cycle requests) with hparts
    have hrows : parts.flatMap Cycle.costRows = (ranges cycle requests).flatMap (rowsOf cycle) := by
      have hmap : parts.flatMap Cycle.costRows = (parts.map told).flatMap fun t => t.2.1 := by
        rw [flatMap_map]
        rfl
      rw [hmap, htold, flatMap_map]
    obtain ⟨hused, havailable⟩ := deltas_le requests h (not_lt.mp hfew)
    refine ⟨?_, fun hstrict => ?_, fun p hp => ?_, ?_, sum_costs h, le_max_left _ _,
      le_max_left _ _, deltaOf_nonneg _ _, ?_⟩
    · have htimes : (parts.map told).Pairwise fun t u => t.1.2 ≤ u.1.1 := by
        rw [htold, pairwise_map]
        exact (ranges_apart h).imp fun hrs => hrs.2
      exact pairwise_map.mp htimes
    · have htimes : (parts.map told).Pairwise fun t u => t.1.2 < u.1.1 := by
        rw [htold, pairwise_map]
        exact ranges_times_lt h hstrict
      exact pairwise_map.mp htimes
    · have hmem := mem_map_of_mem (f := told) hp
      rw [htold] at hmem
      obtain ⟨range, hrange, heq⟩ := List.mem_map.mp hmem
      simp only [told, Prod.mk.injEq] at heq
      obtain ⟨⟨hstart, hstop⟩, hcalls, hcost⟩ := heq
      have hbetween : ∀ row, within cycle range row = true →
          p.start < row.ts ∧ row.ts ≤ p.stop := by
        intro row hrow
        simp only [within, Bool.and_eq_true, decide_eq_true_eq] at hrow
        rw [← hstart, ← hstop]
        exact hrow.1
      obtain ⟨-, -, row, -, hwithin⟩ := range_accepted h hrange
      have hrow := hbetween row hwithin
      refine ⟨hrow.1.trans_le hrow.2, ?_, fun row hrow => hbetween row ?_⟩
      · rw [← hcost, ← hcalls]
      · rw [← hcalls] at hrow
        exact (List.mem_filter.mp hrow).2
    · rw [hrows]
      exact rowsOf_perm h
    · rw [max_eq_right (sub_nonneg.mpr havailable), max_eq_right (sub_nonneg.mpr hused)]
      ring

def doubled : Cycle where
  id := []
  start := 0
  stop := 4
  delta := 5
  endpoints := [(0, 0), (1, 1), (2, 2), (2, 3), (3, 4), (4, 5)]
  forwardTracking := true
  costRows := [
    { ts := 1, requestStart := some (1 / 2), model := [], serviceTier := [], cost := some 1 },
    { ts := 3, requestStart := some (5 / 2), model := [], serviceTier := [], cost := some 1 }]

theorem doubled_tracked : Tracked doubled := by
  refine ⟨rfl, ?_, ?_, ?_⟩ <;> decide +kernel

theorem requests_conserved_doubled :
    ((localRequestIntervals (fun _ => []) true doubled []).1.filterMap Cycle.cost).sum = 2 := by
  have hsum := (requests_conserved (fun _ => []) true doubled [] doubled_tracked).2.2.2.2.1
  have haccepted : (QuotaClip.known (acceptedRows doubled)).sum = 2 := by decide +kernel
  exact hsum.trans haccepted

/-- Two observations at one time are both in two intervals. -/
theorem requests_touch :
    ¬∀ (text : ℚ → PyStr) (prepared : Bool) (cycle : Cycle) (requests : List Window),
      Tracked cycle → (localRequestIntervals text prepared cycle requests).1.Pairwise
        fun p q => p.stop < q.start ∨ q.stop < p.start := by
  intro h
  have hpairs := h (fun _ => []) false doubled [] doubled_tracked
  have hranges : ((localRequestIntervals (fun _ => []) false doubled []).1.map fun p =>
      (p.start, p.stop)) = [(0, 2), (2, 4)] := by
    decide +kernel
  have htimes : ((localRequestIntervals (fun _ => []) false doubled []).1.map fun p =>
      (p.start, p.stop)).Pairwise fun a b => a.2 < b.1 ∨ b.2 < a.1 := pairwise_map.mpr hpairs
  rw [hranges] at htimes
  exact absurd htimes (by decide +kernel)

end Codexon.RequestIntervals
