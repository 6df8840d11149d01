import Codexon.SpeedHealth.Cohorts

/-!
# Codexon.SpeedHealth.Results

One cohort.  A dirty pool is rebuilt from the full timeline; to a clean one the
events of the tails are appended, all of them later than what it has seen
(`split_timeline`).  Over any sequence of certified cohorts the results are those
of `classify` (`results_classify`).
-/

namespace Codexon.Speed

open List Dict

/-! ## pools and ranges of a cohort -/

section Step

variable {t : Tracker} {proven next : Owners}

theorem get?_proofsOf (t : Tracker) (owners : Owners) (o : Owner) :
    (t.proofsOf owners).get? o = (owners.get? o).map fun input => (t.visit o input).proof := by
  rw [Tracker.proofsOf, Tracker.visits, get?_mapVal, get?_mapVal, Option.map_map]
  rfl

/-- The tracker is exact for `proven`, and `next` is certified against it. -/
structure Ready (t : Tracker) (proven next : Owners) : Prop where
  exact_proven : Exact t proven
  certified : Certified proven next
  proper_proven : Proper proven
  proper_next : Proper next

variable {input : OwnerInput}

theorem Ready.visit (h : Ready t proven next) {o : Owner} (hget : next.get? o = some input) :
    (t.visit o input).proof.Of input ∧ Visited t proven o input (t.visit o input) :=
  visit_spec h.exact_proven h.certified hget (h.proper_next.chronological_of hget)

variable {b : Bucket}

theorem Ready.mem_pools (h : Ready t proven next) :
    b ∈ poolsOf (t.proofsOf next) ↔ Peopled next b := by
  unfold poolsOf
  rw [mem_flatMap]
  constructor
  · rintro ⟨e, he, hb⟩
    obtain ⟨c, hc, rfl⟩ := List.mem_map.mp hb
    have hproof := get?_eq_some.mpr he
    rw [get?_proofsOf] at hproof
    obtain ⟨input, hget, hp⟩ := Option.map_eq_some_iff.mp hproof
    rw [← hp] at hc
    exact ⟨input, e.1, hget, rfl, ((h.visit hget).1.buckets c).mp hc⟩
  · rintro ⟨input, o, hget, hhome, hcall⟩
    refine ⟨(o, (t.visit o input).proof), get?_eq_some.mp ?_, List.mem_map.mpr
      ⟨b.2, ((h.visit hget).1.buckets b.2).mpr hcall, Prod.ext hhome rfl⟩⟩
    rw [get?_proofsOf, hget]
    rfl

theorem Ready.dirty_of_visit (h : Ready t proven next) {o : Owner}
    (hget : next.get? o = some input) (hb : b ∈ (t.visit o input).dirty)
    (hpeopled : Peopled next b) : b ∈ t.dirty next := by
  refine List.mem_filter.mpr ⟨mem_append_left _ (mem_flatMap.mpr
    ⟨(o, t.visit o input), ?_, hb⟩), by simpa using h.mem_pools.mpr hpeopled⟩
  refine get?_eq_some.mp ?_
  rw [Tracker.visits, get?_mapVal, hget]
  rfl

theorem Ready.dirty_of_removed (h : Ready t proven next) {o : Owner} {old : OwnerInput}
    (hproven : proven.get? o = some old) (hnext : next.get? o = none) (hhome : o.1 = b.1)
    (hcall : ∃ call ∈ old.history, scope call = some b.2)
    (hpeopled : Peopled next b) : b ∈ t.dirty next := by
  obtain ⟨p, hp, hof⟩ := h.exact_proven.proofs o old hproven
  refine List.mem_filter.mpr ⟨mem_append_right _ (mem_flatMap.mpr
    ⟨(o, p), List.mem_filter.mpr ⟨get?_eq_some.mp hp, by simp [hnext]⟩,
      List.mem_map.mpr ⟨b.2, (hof.buckets b.2).mpr hcall, Prod.ext hhome rfl⟩⟩),
    by simpa using h.mem_pools.mpr hpeopled⟩

theorem Ready.mergeable_ranges (h : Ready t proven next) :
    Mergeable ((t.ranges next).map streamOf) where
  owners := by
    rw [Tracker.ranges, List.map_map, List.map_map]
    exact next.nodup.sublist (filter_sublist.map _)
  chronological := by
    intro s hs
    obtain ⟨r, hr, rfl⟩ := List.mem_map.mp hs
    obtain ⟨e, he, rfl⟩ := List.mem_map.mp hr
    exact h.proper_next.chronological e (List.mem_filter.mp he).1

theorem mem_tails {r : Owner × OwnerInput × Tail} :
    r ∈ t.tails next ↔ next.get? r.1 = some r.2.1 ∧ (t.visit r.1 r.2.1).tail = some r.2.2 := by
  unfold Tracker.tails
  rw [mem_filterMap]
  constructor
  · rintro ⟨e, he, hr⟩
    obtain ⟨tail, htail, rfl⟩ := Option.map_eq_some_iff.mp hr
    exact ⟨get?_eq_some.mpr he, htail⟩
  · rintro ⟨hget, htail⟩
    exact ⟨(r.1, r.2.1), get?_eq_some.mp hget, by rw [htail]; rfl⟩

theorem Ready.mergeable_tails (h : Ready t proven next) :
    Mergeable ((t.tails next).map streamOf) where
  owners := by
    rw [List.map_map]
    have hsub : ((t.tails next).map (Stream.owner ∘ streamOf)).Sublist
        (next.entries.map Prod.fst) := by
      unfold Tracker.tails
      induction next.entries with
      | nil => exact List.Sublist.slnil
      | cons e entries ih =>
        rw [filterMap_cons]
        cases (t.visit e.1 e.2).tail with
        | none => exact ih.cons _
        | some tail => exact ih.cons_cons _
    exact next.nodup.sublist hsub
  chronological := by
    intro s hs
    obtain ⟨r, hr, rfl⟩ := List.mem_map.mp hs
    exact (h.proper_next.chronological_of (mem_tails.mp hr).1).drop

/-- The new events of the cohort. -/
def Tracker.news (t : Tracker) (owners : Owners) : List (Item × Bool) :=
  scan (fun owner => (((t.tails owners).find? (·.1 = owner)).map fun r => r.2.2.prior).getD {})
    (merged ((t.tails owners).map streamOf))

theorem Ready.mem_news (h : Ready t proven next) {e : Item × Bool} :
    e ∈ t.news next ↔ ∃ o input tail, next.get? o = some input ∧
      (t.visit o input).tail = some tail ∧
      e ∈ annotate o tail.prior tail.start (input.history.drop tail.start) := by
  rw [Tracker.news, mem_scan_ranges h.mergeable_tails]
  constructor
  · rintro ⟨r, hr, he⟩
    obtain ⟨hget, htail⟩ := mem_tails.mp hr
    exact ⟨r.1, r.2.1, r.2.2, hget, htail, he⟩
  · rintro ⟨o, input, tail, hget, htail, he⟩
    exact ⟨(o, input, tail), mem_tails.mpr ⟨hget, htail⟩, he⟩

theorem Ready.ordered_news (h : Ready t proven next) : Ordered (t.news next) :=
  (h.mergeable_tails.scan_merged _).1

theorem Visited.tail_spec {o : Owner} {v : Visit}
    (h : Visited t proven o input v) {tail : Tail} (htail : v.tail = some tail) :
    ∃ before rows, input.history = before ++ rows ∧ tail = ⟨before.length, priorAfter {} before⟩ ∧
      input.history.drop tail.start = rows ∧ ((proven.get? o ≠ none ∧ before = provenOf proven o) ∨
        before = [] ∧ ∀ call ∈ provenOf proven o, scope call = none) ∧
      ∀ e ∈ annotate o (priorAfter {} before) before.length rows, ∀ b last,
        e.1.bucket = some b → (t.replays b).bind Replay.lastOrder = some last →
          b ∈ v.dirty ∨ last < e.1.order := by
  cases h with
  | unchanged hnone _ _ => rw [hnone] at htail; cases htail
  | corrected hnone _ => rw [hnone] at htail; cases htail
  | continued before rows hhistory heq hbefore hdirty =>
    rw [heq] at htail
    split at htail
    · cases htail
    · obtain rfl := Option.some.inj htail
      exact ⟨before, rows, hhistory, rfl, by rw [hhistory]; exact drop_left, hbefore, hdirty⟩

/-! ## clean pools -/

theorem peopled_of_mem {owners : Owners} (h : Proper owners) {e : Item × Bool}
    (he : e ∈ timeline owners) (hb : e.1.bucket = some b) :
    ∃ o input, owners.get? o = some input ∧ e ∈ annotate o {} 0 input.history ∧ o.1 = b.1 ∧
      ∃ call ∈ input.history, scope call = some b.2 := by
  obtain ⟨o, input, hget, hannotated⟩ := (mem_timeline h e).mp he
  obtain ⟨howner, -, hcall⟩ := mem_annotate hannotated
  obtain ⟨hhome, hscope⟩ := bucket_eq.mp hb
  exact ⟨o, input, hget, hannotated, howner ▸ hhome, e.1.call, hcall, hscope⟩

/-- **A clean pool goes on**: the events of the timeline are those proven, then the
new ones. -/
theorem Ready.split_timeline (h : Ready t proven next) (hpeopled : Peopled next b)
    (hclean : b ∉ t.dirty next) : (timeline next).filter (·.1.bucket = some b) =
      (timeline proven).filter (·.1.bucket = some b) ++
        (t.news next).filter (·.1.bucket = some b) := by
  have hvisit : ∀ {o input}, next.get? o = some input → b ∉ (t.visit o input).dirty :=
    fun hget hb => hclean (h.dirty_of_visit hget hb hpeopled)
  refine merge_unique (fun e : Item × Bool => e.1.order)
    ((ordered_timeline h.proper_next).filter _) ?_ fun e => ?_
  · refine pairwise_append.mpr ⟨(ordered_timeline h.proper_proven).filter _,
      h.ordered_news.filter _, fun e he e' he' => ?_⟩
    obtain ⟨hmem, hb⟩ := List.mem_filter.mp he
    obtain ⟨hmem', hb'⟩ := List.mem_filter.mp he'
    rw [decide_eq_true_eq] at hb hb'
    obtain ⟨last, hlast, hle⟩ := le_lastOrder (ordered_timeline h.proper_proven) hmem hb
    obtain ⟨o, input, hget, -, hhome, hcall⟩ := peopled_of_mem h.proper_proven hmem hb
    obtain ⟨r, hr⟩ := Option.ne_none_iff_exists'.mp
      (h.exact_proven.present b ⟨input, o, hget, hhome, hcall⟩)
    have hagree := h.exact_proven.replays b r hr
    obtain ⟨o', input', tail, hget', htail, hannotated⟩ := h.mem_news.mp hmem'
    obtain ⟨before, rows, -, htail', hdrop, -, hdirty⟩ := (h.visit hget').2.tail_spec htail
    rw [hdrop] at hannotated
    subst htail'
    rcases hdirty e' hannotated b last hb' (by rw [hr]; exact hagree.lastOrder.trans hlast) with
      hfound | hlt
    · exact absurd hfound (hvisit hget')
    · exact lt_of_le_of_lt hle hlt
  · rw [mem_append, List.mem_filter, List.mem_filter, List.mem_filter, ← or_and_right]
    refine and_congr_left fun hb => ?_
    rw [decide_eq_true_eq] at hb
    constructor
    · intro he
      obtain ⟨o, input, hget, hannotated, hhome, hcall⟩ := peopled_of_mem h.proper_next he hb
      obtain ⟨-, hvisited⟩ := h.visit hget
      have hfound := hvisit hget
      cases hv : t.visit o input with
      | mk proof dirty tail supported =>
      rw [hv] at hvisited hfound
      cases hvisited with
      | unchanged _ hsome hhistory =>
        obtain ⟨old, hold⟩ := Option.ne_none_iff_exists'.mp hsome
        have hsame : input.history = old.history := by
          rw [hhistory, provenOf, hold]
          rfl
        rw [hsame] at hannotated
        exact Or.inl ((mem_timeline h.proper_proven e).mpr ⟨o, old, hold, hannotated⟩)
      | corrected _ hdirty =>
        obtain ⟨call, hmem, hscope⟩ := hcall
        have hfound' := hdirty b.2 ⟨call, mem_append_right _ hmem, hscope⟩
        rw [show (o.1, b.2) = b from Prod.ext hhome rfl] at hfound'
        exact absurd hfound' hfound
      | continued before rows hhistory htail hbefore _ =>
        rw [hhistory, annotate_append] at hannotated
        rcases mem_append.mp hannotated with hold | hnew
        · rcases hbefore with ⟨hsome, rfl⟩ | ⟨rfl, -⟩
          · obtain ⟨old, hold'⟩ := Option.ne_none_iff_exists'.mp hsome
            rw [provenOf, hold'] at hold
            exact Or.inl ((mem_timeline h.proper_proven e).mpr ⟨o, old, hold', hold⟩)
          · exact absurd hold not_mem_nil
        · right
          have hrows : rows ≠ [] := fun hnil => by
            rw [hnil] at hnew
            exact absurd hnew not_mem_nil
          rw [if_neg hrows] at htail
          refine h.mem_news.mpr ⟨o, input, _, hget, by rw [hv]; exact htail, ?_⟩
          rw [hhistory, drop_left]
          simpa using hnew
    · rintro (he | he)
      · obtain ⟨o, old, hold, hannotated, hhome, hcall⟩ := peopled_of_mem h.proper_proven he hb
        cases hget : next.get? o with
        | none => exact absurd (h.dirty_of_removed hold hget hhome hcall hpeopled) hclean
        | some input =>
          have hprovenOf : provenOf proven o = old.history := by rw [provenOf, hold]; rfl
          obtain ⟨-, hvisited⟩ := h.visit hget
          have hfound := hvisit hget
          refine (mem_timeline h.proper_next e).mpr ⟨o, input, hget, ?_⟩
          cases hvisited with
          | unchanged _ _ hhistory =>
            rw [hhistory, hprovenOf]
            exact hannotated
          | corrected _ hdirty =>
            obtain ⟨call, hmem, hscope⟩ := hcall
            have hfound' := hdirty b.2
              ⟨call, mem_append_left _ (hprovenOf ▸ hmem), hscope⟩
            rw [show (o.1, b.2) = b from Prod.ext hhome rfl] at hfound'
            exact absurd hfound' hfound
          | continued before rows hhistory _ hbefore _ =>
            rcases hbefore with ⟨-, rfl⟩ | ⟨-, hnone⟩
            · rw [hhistory, annotate_append, hprovenOf]
              exact mem_append_left _ hannotated
            · obtain ⟨call, hmem, hscope⟩ := hcall
              rw [hnone call (hprovenOf ▸ hmem)] at hscope
              cases hscope
      · obtain ⟨o, input, tail, hget, htail, hannotated⟩ := h.mem_news.mp he
        obtain ⟨before, rows, hhistory, rfl, hdrop, -, -⟩ := (h.visit hget).2.tail_spec htail
        rw [hdrop] at hannotated
        refine (mem_timeline h.proper_next e).mpr ⟨o, input, hget, ?_⟩
        rw [hhistory, annotate_append]
        exact mem_append_right _ (by simpa using hannotated)

theorem replayFrom_congr {es es' : List (Item × Bool)} (r : Replay)
    (h : es.filter (·.1.bucket = some b) = es'.filter (·.1.bucket = some b)) :
    replayFrom b r es = replayFrom b r es' := by
  unfold replayFrom
  rw [h]

/-- **A dirty pool is rebuilt.** -/
theorem Ready.advanced_dirty (h : Ready t proven next) (hb : b ∈ t.dirty next) :
    t.advanced next b = some (replayFrom b {} (timeline next)) := by
  have hpeopled : b ∈ poolsOf (t.proofsOf next) := by simpa using (List.mem_filter.mp hb).2
  unfold Tracker.advanced
  rw [advance_eq, advance_eq, Tracker.fresh, if_pos hpeopled, if_pos hb, Option.map_some,
    Option.map_some]
  have htails : (steps (t.tails next) fun bucket =>
      bucket ∈ poolsOf (t.proofsOf next) ∧ bucket ∉ t.dirty next).filter (·.1.bucket = some b) =
        [].filter (·.1.bucket = some b) := by
    rw [filter_steps, if_neg (by simp [hb])]
    rfl
  have hranges : (steps (t.ranges next) fun bucket => bucket ∈ t.dirty next).filter
      (·.1.bucket = some b) = (timeline next).filter (·.1.bucket = some b) := by
    rw [filter_steps, if_pos (by simpa using hb)]
    refine merge_unique (fun e : Item × Bool => e.1.order)
      (List.Pairwise.filter _ (h.mergeable_ranges.scan_merged _).1)
      ((ordered_timeline h.proper_next).filter _) fun e => ?_
    rw [List.mem_filter, List.mem_filter, mem_scan_ranges h.mergeable_ranges]
    refine and_congr_left fun hbucket => ?_
    rw [decide_eq_true_eq] at hbucket
    constructor
    · rintro ⟨r, hr, he⟩
      obtain ⟨entry, hentry, rfl⟩ := List.mem_map.mp hr
      exact (mem_timeline h.proper_next e).mpr ⟨entry.1, entry.2,
        get?_eq_some.mpr (List.mem_filter.mp hentry).1, he⟩
    · intro he
      obtain ⟨o, input, hget, hannotated, hhome, hcall⟩ :=
        peopled_of_mem h.proper_next he hbucket
      refine ⟨(o, input, ⟨0, {}⟩), List.mem_map.mpr ⟨(o, input), List.mem_filter.mpr
        ⟨get?_eq_some.mp hget, ?_⟩, rfl⟩, hannotated⟩
      rw [get?_proofsOf, hget]
      refine any_eq_true.mpr ⟨b.2, ((h.visit hget).1.buckets b.2).mpr hcall, ?_⟩
      rw [show (o.1, b.2) = b from Prod.ext hhome rfl]
      simpa using hb
  rw [replayFrom_congr _ htails, replayFrom_congr _ hranges]
  rfl

/-- An owner whose last call is in a clean pool was there before, or has a new call
in it. -/
theorem Ready.live (h : Ready t proven next) (hpeopled : Peopled next b)
    (hclean : b ∉ t.dirty next) {o : Owner} (hlive : Live next b o) : Live proven b o ∨
      ∃ e ∈ (t.news next).filter (·.1.bucket = some b), e.1.owner = o := by
  obtain ⟨input, hget, hlast⟩ := hlive
  have hcontinues : ∀ {old : OwnerInput}, proven.get? o = some old →
      input.history = old.history → Live proven b o := fun hold hhistory =>
    ⟨_, hold, hhistory ▸ hlast⟩
  obtain ⟨-, hvisited⟩ := h.visit hget
  have hfound : b ∉ (t.visit o input).dirty := fun hb => hclean (h.dirty_of_visit hget hb hpeopled)
  obtain ⟨c, hc, rfl⟩ := Option.map_eq_some_iff.mp hlast
  obtain ⟨last, hlastCall, hscope⟩ : ∃ last, input.history.getLast? = some last ∧
      scope last = some c := by
    unfold priorAfter at hc
    cases hgl : input.history.getLast? with
    | none => rw [hgl] at hc; cases hc
    | some last => exact ⟨last, rfl, by rw [hgl] at hc; exact hc⟩
  cases hv : t.visit o input with
  | mk proof dirty tail supported =>
  rw [hv] at hvisited hfound
  cases hvisited with
  | unchanged _ hsome hhistory =>
    obtain ⟨old, hold⟩ := Option.ne_none_iff_exists'.mp hsome
    refine Or.inl (hcontinues hold ?_)
    rw [hhistory, provenOf, hold]
    rfl
  | corrected _ hdirty =>
    exact absurd (hdirty c ⟨last, mem_append_right _ (mem_of_getLast? hlastCall), hscope⟩) hfound
  | continued before rows hhistory htail hbefore _ =>
    by_cases hrows : rows = []
    · subst hrows
      rw [List.append_nil] at hhistory
      rcases hbefore with ⟨hsome, hbefore⟩ | ⟨rfl, -⟩
      · obtain ⟨old, hold⟩ := Option.ne_none_iff_exists'.mp hsome
        refine Or.inl (hcontinues hold ?_)
        rw [hhistory, hbefore, provenOf, hold]
        rfl
      · rw [hhistory] at hlastCall
        cases hlastCall
    · right
      have hmem : last ∈ rows := by
        rw [hhistory, getLast?_append_of_ne_nil _ hrows] at hlastCall
        exact mem_of_getLast? hlastCall
      obtain ⟨e, he, hcall⟩ := exists_annotate o hmem (priorAfter {} before) before.length
      obtain ⟨howner, -, -⟩ := mem_annotate he
      rw [if_neg hrows] at htail
      refine ⟨e, List.mem_filter.mpr ⟨h.mem_news.mpr ⟨o, input, _, hget, by rw [hv]; exact htail, ?_⟩, ?_⟩,
        howner⟩
      · rw [hhistory, drop_left]
        exact he
      · rw [decide_eq_true_eq]
        exact bucket_eq.mpr ⟨by rw [howner], by rw [hcall]; exact hscope⟩

/-- New events that go on do so for owners whose last call was in the pool, or after
another new event. -/
theorem Ready.guarded (h : Ready t proven next) (b : Bucket) :
    Guarded (Live proven b) ((t.news next).filter (·.1.bucket = some b)) := by
  refine guarded_of_ordered (h.ordered_news.filter _) fun e he => ?_
  obtain ⟨hmem, hb⟩ := List.mem_filter.mp he
  rw [decide_eq_true_eq] at hb
  obtain ⟨o, input, tail, hget, htail, hannotated⟩ := h.mem_news.mp hmem
  obtain ⟨before, rows, hhistory, rfl, hdrop, hbefore, -⟩ := (h.visit hget).2.tail_spec htail
  obtain ⟨howner, -, -⟩ := mem_annotate hannotated
  obtain ⟨hhome, hscope⟩ := bucket_eq.mp hb
  have hchron : Chronological (input.history.drop before.length) :=
    (h.proper_next.chronological_of hget).drop
  by_cases hreset : e.2 = true
  · exact Or.inl hreset
  · right
    rcases continues_annotate hchron hannotated (by simpa using hreset) with
      hcondition | ⟨e', he', hlt, hscope'⟩
    · left
      rw [hscope] at hcondition
      rcases hbefore with ⟨hsome, rfl⟩ | ⟨rfl, -⟩
      · obtain ⟨old, hold⟩ := Option.ne_none_iff_exists'.mp hsome
        refine ⟨old, howner ▸ hold, ?_⟩
        have hprovenOf : provenOf proven o = old.history := by rw [provenOf, hold]; rfl
        rw [hprovenOf] at hcondition
        rw [lastBucket, hcondition]
        exact congrArg some (Prod.ext hhome rfl)
      · cases hcondition
    · right
      obtain ⟨howner', -, -⟩ := mem_annotate he'
      refine ⟨e', List.mem_filter.mpr ⟨h.mem_news.mpr ⟨o, input, _, hget, htail, he'⟩, ?_⟩,
        howner'.trans howner.symm, hlt⟩
      rw [decide_eq_true_eq]
      exact bucket_eq.mpr ⟨by rw [howner', ← howner]; exact hhome, hscope'.trans hscope⟩

/-- **A pool after a cohort**: on the owners whose last call is in it, the reducer is
the one that saw the full timeline. -/
theorem Ready.advanced (h : Ready t proven next) (hpeopled : Peopled next b) :
    ∃ r, t.advanced next b = some r ∧ Agree (Live next b) r (replayFrom b {} (timeline next)) := by
  by_cases hdirty : b ∈ t.dirty next
  · exact ⟨_, h.advanced_dirty hdirty, Agree.refl _ _⟩
  · have hpool : b ∈ poolsOf (t.proofsOf next) := h.mem_pools.mpr hpeopled
    have hranges : (steps (t.ranges next) fun bucket => bucket ∈ t.dirty next).filter
        (·.1.bucket = some b) = [].filter (·.1.bucket = some b) := by
      rw [filter_steps, if_neg (by simp [hdirty])]
      rfl
    have htails : (steps (t.tails next) fun bucket =>
        bucket ∈ poolsOf (t.proofsOf next) ∧ bucket ∉ t.dirty next).filter (·.1.bucket = some b) =
          (t.news next).filter (·.1.bucket = some b) := by
      rw [filter_steps, if_pos (by simp [hpool, hdirty])]
      rfl
    have hadvanced : t.advanced next b =
        some (replayFrom b ((t.replays b).getD {}) (t.news next)) := by
      unfold Tracker.advanced
      rw [advance_eq, advance_eq, Tracker.fresh, if_pos hpool, if_neg hdirty, Option.map_some,
        Option.map_some, replayFrom_congr _ htails, replayFrom_congr _ hranges]
      rfl
    have hbefore : Agree (Live proven b) ((t.replays b).getD {})
        (replayFrom b {} (timeline proven)) := by
      cases hr : t.replays b with
      | some r => exact h.exact_proven.replays b r hr
      | none =>
        have hempty : ¬ Peopled proven b := fun hpeopled => h.exact_proven.present b hpeopled hr
        have hnil := filter_timeline_nil h.proper_proven hempty
        unfold replayFrom
        rw [hnil]
        exact Agree.refl _ _
    have hwhole : replayFrom b {} (timeline next) =
        replayFrom b (replayFrom b {} (timeline proven)) (t.news next) := by
      unfold replayFrom
      rw [h.split_timeline hpeopled hdirty, foldl_append]
    refine ⟨_, hadvanced, ?_⟩
    rw [hwhole]
    exact (hbefore.foldl b.2 (h.guarded b)).mono fun o ho => h.live hpeopled hdirty ho

theorem Live.peopled {owners : Owners} {o : Owner} (h : Live owners b o) : Peopled owners b := by
  obtain ⟨input, hget, hlast⟩ := h
  obtain ⟨c, hc, rfl⟩ := Option.map_eq_some_iff.mp hlast
  unfold priorAfter at hc
  cases hgl : input.history.getLast? with
  | none => rw [hgl] at hc; cases hc
  | some last =>
    rw [hgl] at hc
    exact ⟨input, o, hget, rfl, last, mem_of_getLast? hgl, hc⟩

theorem Ready.bucket (h : Ready t proven next) (o : Owner) :
    (((t.proofsOf next).get? o).bind fun p => p.bucket o) =
      (next.get? o).bind fun input => lastBucket o input.history := by
  rw [get?_proofsOf]
  cases hget : next.get? o with
  | none => rfl
  | some input =>
    show Proof.bucket _ o = _
    rw [Proof.bucket, (h.visit hget).1.prior]
    rfl

theorem Ready.prune (h : Ready t proven next) {r r' : Replay}
    (hagree : Agree (Live next b) r r') : Agree (Live next b) (r.prune (t.proofsOf next) b) r' := by
  have hlive : ∀ o, Live next b o →
      (((t.proofsOf next).get? o).bind fun p => p.bucket o) = some b := by
    rintro o ⟨input, hget, hlast⟩
    rw [h.bucket, hget]
    exact hlast
  refine ⟨hagree.pool, hagree.lastOrder, fun o ho => ?_, fun o ho => ?_⟩
  · rw [← hagree.states o ho]
    exact if_pos (hlive o ho)
  · rw [← hagree.results o ho]
    exact if_pos (hlive o ho)

/-- **A cohort is merged exactly.** -/
theorem Ready.exact_incremental {cohort : Cohort} (h : Ready t proven cohort.owners) :
    Exact (t.incremental cohort) cohort.owners where
  proofs := fun o input hget => by
    refine ⟨(t.visit o input).proof, ?_, (h.visit hget).1⟩
    show (t.proofsOf cohort.owners).get? o = _
    rw [get?_proofsOf, hget]
    rfl
  absent := fun o hget => by
    show (t.proofsOf cohort.owners).get? o = _
    rw [get?_proofsOf, hget]
    rfl
  present := fun b hpeopled => by
    obtain ⟨r, hr, -⟩ := h.advanced hpeopled
    show (t.advanced cohort.owners b).map _ ≠ none
    rw [hr]
    exact Option.some_ne_none _
  replays := fun b r hr => by
    obtain ⟨r', hr', rfl⟩ := Option.map_eq_some_iff.mp hr
    have hpeopled : Peopled cohort.owners b := by
      by_contra hnot
      have hpool : b ∉ poolsOf (t.proofsOf cohort.owners) := fun hb => hnot (h.mem_pools.mp hb)
      unfold Tracker.advanced at hr'
      rw [advance_eq, advance_eq, Tracker.fresh, if_neg hpool] at hr'
      cases hr'
    obtain ⟨r'', hr'', hagree⟩ := h.advanced hpeopled
    obtain rfl := Option.some.inj (hr'.symm.trans hr'')
    exact h.prune hagree

theorem Ready.results_incremental {cohort : Cohort} (h : Ready t proven cohort.owners) :
    (t.incremental cohort).results = expected cohort.owners := by
  funext o
  show ((t.proofsOf cohort.owners).get? o).map _ = _
  unfold expected
  rw [get?_proofsOf, Option.map_map]
  cases hget : cohort.owners.get? o with
  | none => rfl
  | some input =>
    have hbucket := h.bucket o
    rw [get?_proofsOf, hget] at hbucket
    simp only [Option.map_some, Option.bind_some, Function.comp_apply, Option.some.injEq]
      at hbucket ⊢
    rw [hbucket]
    cases hlast : lastBucket o input.history with
    | none => rfl
    | some b =>
      have hlive : Live cohort.owners b o := ⟨input, hget, hlast⟩
      obtain ⟨r, hr, hagree⟩ := h.advanced hlive.peopled
      simp only [Option.bind_some, hr, Option.map_some]
      rw [(h.prune hagree).results o hlive]

end Step

/-! ## sequences of cohorts -/

def Alike (owners owners' : Owners) : Prop :=
  ∀ o, (owners.get? o).map (fun input => (input.revision, input.history)) =
    (owners'.get? o).map fun input => (input.revision, input.history)

variable {owners' : Owners}

theorem Alike.get? {owners : Owners} (h : Alike owners owners') {o : Owner}
    {input : OwnerInput} (hget : owners.get? o = some input) :
    ∃ input', owners'.get? o = some input' ∧ input'.revision = input.revision ∧
      input'.history = input.history := by
  have ho := h o
  rw [hget] at ho
  obtain ⟨input', hget', heq⟩ := Option.map_eq_some_iff.mp ho.symm
  obtain ⟨hrevision, hhistory⟩ := Prod.mk.inj heq
  exact ⟨input', hget', hrevision, hhistory⟩

theorem Alike.symm {owners : Owners} (h : Alike owners owners') : Alike owners' owners :=
  fun o => (h o).symm

theorem Alike.expected_eq {owners : Owners} (h : Alike owners owners')
    (hproper : Proper owners) (hproper' : Proper owners') : expected owners = expected owners' := by
  have hsub : ∀ {os os' : Owners}, Alike os os' → Proper os → Proper os' → ∀ e,
      e ∈ timeline os → e ∈ timeline os' := by
    intro os os' hos hp hp' e he
    obtain ⟨o, input, hget, hannotated⟩ := (mem_timeline hp e).mp he
    obtain ⟨input', hget', -, hhistory⟩ := hos.get? hget
    exact (mem_timeline hp' e).mpr ⟨o, input', hget', hhistory ▸ hannotated⟩
  have htimeline : timeline owners = timeline owners' :=
    merge_unique (fun e : Item × Bool => e.1.order) (ordered_timeline hproper)
      (ordered_timeline hproper') fun e =>
        ⟨hsub h hproper hproper' e, hsub h.symm hproper' hproper e⟩
  funext o
  unfold expected
  rw [htimeline]
  cases hget : owners.get? o with
  | none =>
    have ho := h o
    rw [hget] at ho
    rw [Option.map_eq_none_iff.mp ho.symm]
  | some input =>
    obtain ⟨input', hget', -, hhistory⟩ := h.get? hget
    rw [hget', Option.map_some, Option.map_some, hhistory]

def collectStep (s : Tracker × Owners) (cohort : Cohort) : Tracker × Owners :=
  (s.1.collect cohort, cohort.owners)

/-- A cohort of unique calls in the order of time, certified against the last one. -/
def Cohort.Follows (s : Tracker × Owners) (cohort : Cohort) : Prop :=
  Proper cohort.owners ∧ Certified s.2 cohort.owners

/-- What stands between cohorts: the tracker is exact for owners collected last, or
for none, and holds their results. -/
structure Stands (s : Tracker × Owners) : Prop where
  proper : Proper s.2
  proven : ∃ proven, Exact s.1 proven ∧ Proper proven ∧ ∀ o input, proven.get? o = some input →
    ∃ input', s.2.get? o = some input' ∧ input'.revision = input.revision ∧
      input'.history = input.history
  results : ∀ signature, s.1.signature = some signature →
    (∀ x, x ∈ signature ↔ ∃ input, s.2.get? x.1 = some input ∧ input.revision = x.2) ∧
      s.1.results = expected s.2

theorem exact_empty {t : Tracker} (hproofs : t.proofs = {}) (hreplays : t.replays = fun _ => none) :
    Exact t {} where
  proofs := fun _ _ h => by cases h
  absent := fun _ _ => by rw [hproofs]; rfl
  present := fun _ ⟨_, _, h, _⟩ => by cases h
  replays := fun b r h => by rw [hreplays] at h; cases h

theorem stands_start : Stands ({}, {}) where
  proper := proper_empty
  proven := ⟨{}, exact_empty rfl rfl, proper_empty, fun _ _ h => by cases h⟩
  results := fun _ h => by cases h

theorem mem_signature {cohort : Cohort} (x : Owner × Json) :
    x ∈ cohort.signature ↔ ∃ input, cohort.owners.get? x.1 = some input ∧ input.revision = x.2 := by
  unfold Cohort.signature
  rw [List.mem_map]
  constructor
  · rintro ⟨e, he, rfl⟩
    exact ⟨e.2, get?_eq_some.mpr he, rfl⟩
  · rintro ⟨input, hget, hrevision⟩
    exact ⟨(x.1, input), get?_eq_some.mp hget, Prod.ext rfl hrevision⟩

theorem Stands.alike {s : Tracker × Owners} (h : Stands s) {cohort : Cohort}
    (hcertified : Certified s.2 cohort.owners) {signature : List (Owner × Json)}
    (hsignature : s.1.signature = some signature)
    (hsub : signature ⊆ cohort.signature) (hsup : cohort.signature ⊆ signature) :
    Alike s.2 cohort.owners := by
  have hmem := (h.results signature hsignature).1
  intro o
  cases hold : s.2.get? o with
  | some old =>
    obtain ⟨input, hget, hrevision⟩ :=
      (mem_signature (o, old.revision)).mp (hsub ((hmem _).mpr ⟨old, hold, rfl⟩))
    rw [hget, Option.map_some, Option.map_some, hrevision,
      (hcertified o old input hold hget).1 hrevision]
  | none =>
    cases hget : cohort.owners.get? o with
    | none => rfl
    | some input =>
      obtain ⟨old, hold', -⟩ := (hmem _).mp
        (hsup ((mem_signature (o, input.revision)).mpr ⟨input, hget, rfl⟩))
      rw [hold] at hold'
      cases hold'

theorem stands_step (s : Tracker × Owners) (cohort : Cohort) (h : Stands s)
    (hfollows : cohort.Follows s) :
    Stands (collectStep s cohort) ∧ (s.1.collect cohort).results = classify cohort.owners := by
  obtain ⟨hproper, hcertified⟩ := hfollows
  rw [classify_eq hproper]
  unfold collectStep Tracker.collect
  split
  · -- the signature of the last cohort: the results are kept
    next hsame =>
      obtain ⟨signature, hsignature, hboth⟩ : ∃ signature, s.1.signature = some signature ∧
          (decide (signature ⊆ cohort.signature) && decide (cohort.signature ⊆ signature)) = true := by
        cases hsignature : s.1.signature with
        | none => rw [hsignature] at hsame; cases hsame
        | some signature => rw [hsignature] at hsame; exact ⟨signature, rfl, hsame⟩
      rw [Bool.and_eq_true, decide_eq_true_eq, decide_eq_true_eq] at hboth
      have halike := h.alike hcertified hsignature hboth.1 hboth.2
      have hresults : s.1.results = expected cohort.owners :=
        (h.results signature hsignature).2.trans (halike.expected_eq h.proper hproper)
      obtain ⟨proven, hexact, hproven, hsubset⟩ := h.proven
      refine ⟨⟨hproper, ⟨proven, hexact, hproven, fun o input hget => ?_⟩, fun sig hsig => ?_⟩,
        hresults⟩
      · obtain ⟨old, hold, hrevision, hhistory⟩ := hsubset o input hget
        obtain ⟨input', hget', hrevision', hhistory'⟩ := halike.get? hold
        exact ⟨input', hget', hrevision'.trans hrevision, hhistory'.trans hhistory⟩
      · obtain rfl := Option.some.inj (hsignature.symm.trans hsig)
        exact ⟨fun x => ⟨fun hx => (mem_signature x).mp (hboth.1 hx),
          fun hx => hboth.2 ((mem_signature x).mpr hx)⟩, hresults⟩
  · split
    · refine ⟨⟨hproper, ⟨{}, exact_empty rfl rfl, proper_empty, fun _ _ hget => by cases hget⟩,
        fun sig hsig => ?_⟩, classify_eq hproper⟩
      obtain rfl := Option.some.inj hsig
      exact ⟨mem_signature, classify_eq hproper⟩
    · obtain ⟨proven, hexact, hproven, hsubset⟩ := h.proven
      have hready : Ready s.1 proven cohort.owners := ⟨hexact, fun o old input hold hget => by
        obtain ⟨old', hold', hrevision, hhistory⟩ := hsubset o old hold
        rw [← hrevision, ← hhistory]
        exact hcertified o old' input hold' hget, hproven, hproper⟩
      refine ⟨⟨hproper, ⟨cohort.owners, hready.exact_incremental, hproper,
        fun o input hget => ⟨input, hget, rfl, rfl⟩⟩, fun sig hsig => ?_⟩,
        hready.results_incremental⟩
      obtain rfl := Option.some.inj hsig
      exact ⟨mem_signature, hready.results_incremental⟩

/-- **Incremental alerts equal full classification**: after every cohort of any
certified sequence, whichever of them fell back. -/
theorem results_classify (cohorts : List Cohort)
    (h : Along collectStep Cohort.Follows ({}, {}) cohorts) :
    Along collectStep (fun s cohort => (s.1.collect cohort).results = classify cohort.owners)
      ({}, {}) cohorts :=
  along_of_inv stands_step stands_start h

/-! ## an appended call -/

def sampleCall (key : PyStr) (ts : ℚ) : Call where
  key
  ts
  input := some 1000
  cached := some 900
  output := some 200
  latency := some 2000
  model := some (py "m")
  effort := some (py "high")
  serviceTier := some (py "standard")
  transport := some (py "http")
  transportSource := some (py "response_id")

def oneOwner (revision : Nat) (history : List Call) (appendFrom : Option (Json × Nat)) : Owners where
  entries := [((py "h", py "s"), ⟨.int revision, history, appendFrom⟩)]

/-- A cohort, the same with a call appended, and again past the size allowance. -/
def sampleCohorts : List Cohort :=
  [⟨oneOwner 1 [sampleCall (py "a") 1] none, false⟩,
    ⟨oneOwner 2 [sampleCall (py "a") 1, sampleCall (py "b") 2] (some (.int 1, 1)), false⟩,
    ⟨oneOwner 3 [sampleCall (py "a") 1, sampleCall (py "b") 2] none, true⟩]

theorem proper_oneOwner {revision : Nat} {history : List Call} {appendFrom : Option (Json × Nat)}
    (hnodup : ((itemsFrom (py "h", py "s") 0 history).map
      fun item => callIdentity item.owner item.call.key).Nodup)
    (hchron : history.Pairwise (·.ts ≤ ·.ts)) : Proper (oneOwner revision history appendFrom) where
  identities := by
    rw [show listed (oneOwner revision history appendFrom) =
      itemsFrom (py "h", py "s") 0 history from List.append_nil _]
    exact hnodup
  chronological := fun e he => by
    rw [mem_singleton.mp he]
    exact hchron

theorem certified_oneOwner {revision revision' : Nat} {history history' : List Call}
    {appendFrom appendFrom' : Option (Json × Nat)} (hrevision : revision' ≠ revision)
    (happend : history <+: history') :
    Certified (oneOwner revision history appendFrom) (oneOwner revision' history' appendFrom') := by
  intro o old input hold hget
  rw [get?_eq_some] at hold hget
  obtain ⟨-, rfl⟩ := Prod.mk.inj (mem_singleton.mp hold)
  obtain ⟨-, rfl⟩ := Prod.mk.inj (mem_singleton.mp hget)
  refine ⟨fun heq => absurd ?_ hrevision, fun _ => happend⟩
  exact Int.ofNat.inj (Json.int.inj heq)

/-- An append and a fallback. -/
theorem results_classify_sample :
    Along collectStep (fun s cohort => (s.1.collect cohort).results = classify cohort.owners)
      ({}, {}) sampleCohorts :=
  results_classify sampleCohorts
    ⟨⟨proper_oneOwner (by decide +kernel) (by decide +kernel), fun _ _ _ h => by cases h⟩,
      ⟨proper_oneOwner (by decide +kernel) (by decide +kernel),
        certified_oneOwner (by decide) ⟨[sampleCall (py "b") 2], rfl⟩⟩,
      ⟨proper_oneOwner (by decide +kernel) (by decide +kernel),
        certified_oneOwner (by decide) ⟨[], rfl⟩⟩, trivial⟩

end Codexon.Speed
