import Codexon.SpeedHealth.Timeline

/-!
# Codexon.SpeedHealth.Classify

The one pass of `classify`, split by peer pools.  Beside it runs one reducer per
pool over the annotated timeline; the two agree after every call (`Beside`), so a
result is that of the pool of the owner's last call (`classify_eq`).
-/

namespace Codexon

open List

namespace Speed

/-! ## one reducer per pool -/

def Item.bucket (item : Item) : Option Bucket := (scope item.call).map (item.owner.1, ·)

/-- The reducer of a pool advanced over the events of that pool. -/
def replayFrom (b : Bucket) (r : Replay) (es : List (Item × Bool)) : Replay :=
  (es.filter (·.1.bucket = some b)).foldl (fun r e => r.advance b.2 e.1 e.2) r

/-- The reducers of all pools after one event. -/
def advanceAll (rs : Bucket → Replay) (e : Item × Bool) : Bucket → Replay :=
  match e.1.bucket with
  | none => rs
  | some b => update rs b ((rs b).advance b.2 e.1 e.2)

theorem foldl_advanceAll (es : List (Item × Bool)) : ∀ (rs : Bucket → Replay) (b : Bucket),
    es.foldl advanceAll rs b = replayFrom b (rs b) es := by
  induction es with
  | nil => exact fun _ _ => rfl
  | cons e es ih =>
    intro rs b
    rw [foldl_cons, ih]
    unfold replayFrom advanceAll
    cases hb : e.1.bucket with
    | none => rw [filter_cons_of_neg (by simp [hb])]
    | some b' =>
      by_cases heq : b' = b
      · subst heq
        rw [filter_cons_of_pos (by simp [hb]), foldl_cons]
        simp [update]
      · rw [filter_cons_of_neg (by simp [hb, heq])]
        simp [update, Ne.symm heq]

def priorsAfter (prior : Owner → Prior) (items : List Item) : Owner → Prior :=
  items.foldl (fun prior item => update prior item.owner (Prior.after item.call)) prior

theorem priorsAfter_eq (items : List Item) : ∀ (prior : Owner → Prior) (owner : Owner),
    priorsAfter prior items owner =
      priorAfter (prior owner) ((items.filter (·.owner = owner)).map Item.call) := by
  induction items with
  | nil => exact fun _ _ => rfl
  | cons item items ih =>
    intro prior owner
    show priorsAfter (update prior item.owner (Prior.after item.call)) items owner = _
    rw [ih]
    by_cases howner : item.owner = owner
    · subst howner
      rw [filter_cons_of_pos (by simp), map_cons]
      simp only [update, if_true]
      exact (priorAfter_append (prior item.owner) [item.call] _).symm
    · rw [filter_cons_of_neg (by simpa using howner)]
      simp [update, Ne.symm howner]

/-! ## both side by side -/

/-- The loop of `classify` and the reducers of the pools agree. -/
structure Beside (s : Classifier) (prior : Owner → Prior) (rs : Bucket → Replay) : Prop where
  pools : ∀ b, s.pools b = (rs b).pool
  scope : ∀ o, (s.states o).scope = (prior o).condition
  lastTs : ∀ o, (prior o).condition ≠ none →
    (s.states o).lastTs = (prior o).ts ∧ (prior o).ts ≠ none
  phase : ∀ o c, (prior o).condition = some c →
    (s.states o).phase = ((rs (o.1, c)).states o).getD .calm
  result : ∀ o, s.result o =
    ((prior o).condition.bind fun c => (rs (o.1, c)).results o).getD none

theorem Beside.phase_eq {s : Classifier} {prior : Owner → Prior} {rs : Bucket → Replay}
    (h : Beside s prior rs) {item : Item} {c : Condition} (hc : Speed.scope item.call = some c) :
    (if some c ≠ (s.states item.owner).scope ∨
        maxAge < item.call.ts - (s.states item.owner).lastTs.getD item.call.ts then .calm
      else (s.states item.owner).phase) =
      if (prior item.owner).resets item.call then .calm
      else ((rs (item.owner.1, c)).states item.owner).getD .calm := by
  rw [h.scope]
  by_cases hsame : (prior item.owner).condition = some c
  · obtain ⟨hlast, hts⟩ := h.lastTs item.owner (by simp [hsame])
    obtain ⟨t, ht⟩ := Option.ne_none_iff_exists'.mp hts
    rw [h.phase item.owner c hsame, hlast, Prior.resets, hc, hsame, ht]
    simp
  · have hne : some c ≠ (prior item.owner).condition := Ne.symm hsame
    rw [if_pos (Or.inl hne), Prior.resets, hc]
    simp [hne]

/-- **A call keeps both in agreement.** -/
theorem Beside.step {s : Classifier} {prior : Owner → Prior} {rs : Bucket → Replay}
    (h : Beside s prior rs) {item : Item} (hnew : callIdentity item.owner item.call.key ∉ s.seen) :
    Beside (s.step item) (update prior item.owner (Prior.after item.call))
      (advanceAll rs (item, (prior item.owner).resets item.call)) := by
  unfold Classifier.step
  rw [if_neg hnew]
  cases hc : Speed.scope item.call with
  | none =>
    have hbucket : item.bucket = none := by simp [Item.bucket, hc]
    have hrs : advanceAll rs (item, (prior item.owner).resets item.call) = rs := by
      simp [advanceAll, hbucket]
    rw [hrs]
    refine ⟨h.pools, fun o => ?_, fun o ho => ?_, fun o c ho => ?_, fun o => ?_⟩ <;>
      by_cases howner : o = item.owner
    · simp [update, howner, Prior.after, hc]
    · simpa [update, howner] using h.scope o
    · simp [update, howner, Prior.after, hc] at ho
    · simp only [update, howner, if_false] at ho ⊢
      exact h.lastTs o ho
    · simp [update, howner, Prior.after, hc] at ho
    · simp only [update, howner, if_false] at ho ⊢
      exact h.phase o c ho
    · simp [update, howner, Prior.after, hc]
    · simpa [update, howner] using h.result o
  | some c =>
    have hbucket : item.bucket = some (item.owner.1, c) := by simp [Item.bucket, hc]
    have hphase := h.phase_eq hc
    have hrs : advanceAll rs (item, (prior item.owner).resets item.call) =
        update rs (item.owner.1, c)
          ((rs (item.owner.1, c)).advance c item ((prior item.owner).resets item.call)) := by
      simp [advanceAll, hbucket]
    rw [hrs]
    dsimp only
    rw [hphase, h.pools]
    refine ⟨fun b => ?_, fun o => ?_, fun o ho => ?_, fun o c' ho => ?_, fun o => ?_⟩
    · by_cases hb : b = (item.owner.1, c)
      · simp [update, hb, Replay.advance]
      · simpa [update, hb] using h.pools b
    · by_cases howner : o = item.owner
      · simp [update, howner, Prior.after, hc]
      · simpa [update, howner] using h.scope o
    · by_cases howner : o = item.owner
      · simp [update, howner, Prior.after]
      · simp only [update, howner, if_false] at ho ⊢
        exact h.lastTs o ho
    · by_cases howner : o = item.owner
      · subst howner
        have hcc : c' = c := by simpa [update, Prior.after, hc, eq_comm] using ho
        subst hcc
        simp [update, Replay.advance]
      · simp only [update, howner, if_false] at ho ⊢
        rw [h.phase o c' ho]
        by_cases hb : (o.1, c') = (item.owner.1, c)
        · simp only [hb, if_true, Replay.advance, update, howner, if_false]
        · simp only [hb, if_false]
    · by_cases howner : o = item.owner
      · subst howner
        simp [update, Prior.after, hc, Replay.advance]
      · simp only [update, howner, if_false]
        rw [h.result o]
        cases hprior : (prior o).condition with
        | none => rfl
        | some c' =>
          by_cases hb : (o.1, c') = (item.owner.1, c)
          · simp only [Option.bind_some, hb, if_true, Replay.advance, update, howner, if_false]
          · simp only [Option.bind_some, hb, if_false]

theorem Beside.run {items : List Item} : ∀ {s : Classifier} {prior : Owner → Prior}
    {rs : Bucket → Replay}, Beside s prior rs →
      (items.map fun item => callIdentity item.owner item.call.key).Nodup →
      (∀ item ∈ items, callIdentity item.owner item.call.key ∉ s.seen) →
      Beside (items.foldl Classifier.step s) (priorsAfter prior items)
        ((scan prior items).foldl advanceAll rs) := by
  induction items with
  | nil => exact fun h _ _ => h
  | cons item items ih =>
    intro s prior rs h hnodup hseen
    rw [map_cons, nodup_cons] at hnodup
    have hnew := hseen item mem_cons_self
    refine ih (h.step hnew) hnodup.2 fun other hother hmem => ?_
    have hstep : (s.step item).seen = callIdentity item.owner item.call.key :: s.seen := by
      unfold Classifier.step
      rw [if_neg hnew]
      cases Speed.scope item.call <;> rfl
    rw [hstep] at hmem
    rcases mem_cons.mp hmem with heq | hmem
    · exact hnodup.1 (heq ▸ mem_map_of_mem
        (f := fun item : Item => callIdentity item.owner item.call.key) hother)
    · exact hseen other (mem_cons_of_mem _ hother) hmem

/-! ## the results -/

def streamsOf (owners : Owners) : List Stream :=
  owners.entries.map fun e => ⟨e.1, 0, e.2.history⟩

/-- Call identities are unique, and each history is in the order of time. -/
structure Proper (owners : Owners) : Prop where
  identities : ((listed owners).map fun item => callIdentity item.owner item.call.key).Nodup
  chronological : ∀ e ∈ owners.entries, Chronological e.2.history

def timeline (owners : Owners) : List (Item × Bool) :=
  scan (fun _ => {}) (merged (streamsOf owners))

def lastBucket (owner : Owner) (history : List Call) : Option Bucket :=
  (priorAfter {} history).condition.map (owner.1, ·)

def expected (owners : Owners) : Results := fun owner =>
  (owners.get? owner).map fun input =>
    ((lastBucket owner input.history).bind fun b =>
      (replayFrom b {} (timeline owners)).results owner).getD none

theorem Proper.mergeable {owners : Owners} (h : Proper owners) : Mergeable (streamsOf owners) where
  owners := by
    rw [streamsOf, List.map_map]
    exact owners.nodup
  chronological := by
    intro s hs
    obtain ⟨e, he, rfl⟩ := List.mem_map.mp hs
    exact h.chronological e he

theorem listed_eq (owners : Owners) : listed owners = (streamsOf owners).flatMap Stream.items := by
  rw [listed, streamsOf, flatMap_map]
  rfl

theorem beside_start : Beside {} (fun _ => {}) (fun _ => {}) :=
  ⟨fun _ => rfl, fun _ => rfl, fun _ h => absurd rfl h,
    fun _ _ h => absurd h (Option.some_ne_none _).symm, fun _ => rfl⟩

/-- **`classify` judges each pool on its own.** -/
theorem classify_eq {owners : Owners} (h : Proper owners) : classify owners = expected owners := by
  have hmerge := h.mergeable
  have hsort : (listed owners).mergeSort (fun a b => a.key ≤ b.key) = merged (streamsOf owners) := by
    rw [listed_eq]
    exact hmerge.stable_sort
  have hidentities : ((merged (streamsOf owners)).map
      fun item => callIdentity item.owner item.call.key).Nodup := by
    have hids := h.identities
    rw [listed_eq] at hids
    exact ((mergeSort_perm _ _).map _).nodup_iff.mpr hids
  have hbeside := beside_start.run hidentities fun _ _ => not_mem_nil
  funext owner
  unfold classify expected
  rw [hsort]
  cases hget : owners.get? owner with
  | none => rfl
  | some input =>
    have hentry : (⟨owner, 0, input.history⟩ : Stream) ∈ streamsOf owners :=
      List.mem_map.mpr ⟨(owner, input), Dict.get?_eq_some.mp hget, rfl⟩
    have hprior : priorsAfter (fun _ => {}) (merged (streamsOf owners)) owner =
        priorAfter {} input.history := by
      rw [priorsAfter_eq, hmerge.filter_merged hentry, Stream.items, map_itemsFrom]
    simp only [Option.map_some, Option.some.injEq]
    rw [hbeside.result owner, hprior, lastBucket]
    cases (priorAfter {} input.history).condition with
    | none => rfl
    | some c =>
      simp only [Option.bind_some, Option.map_some]
      rw [foldl_advanceAll]
      rfl

end Speed

/-!
## one row more

The reducers of the tracker.  What a reducer keeps of owners whose last call is in
another pool does not matter, as their next call starts anew; on the others it
agrees with the reducer that saw the whole timeline (`Agree`).
-/

namespace Speed

/-! ## reducers that agree -/

/-- Two reducers agree, as far as the owners in `A` are concerned. -/
structure Agree (A : Owner → Prop) (r r' : Replay) : Prop where
  pool : r.pool = r'.pool
  lastOrder : r.lastOrder = r'.lastOrder
  states : ∀ o, A o → r.states o = r'.states o
  results : ∀ o, A o → r.results o = r'.results o

theorem Agree.refl (A : Owner → Prop) (r : Replay) : Agree A r r :=
  ⟨rfl, rfl, fun _ _ => rfl, fun _ _ => rfl⟩

theorem Agree.mono {A B : Owner → Prop} {r r' : Replay} (h : Agree A r r') (hBA : ∀ o, B o → A o) :
    Agree B r r' :=
  ⟨h.pool, h.lastOrder, fun o ho => h.states o (hBA o ho), fun o ho => h.results o (hBA o ho)⟩

theorem Agree.advance {A : Owner → Prop} {r r' : Replay} (h : Agree A r r') (c : Condition)
    {e : Item × Bool} (hgoes : e.2 = true ∨ A e.1.owner) :
    Agree (fun o => A o ∨ o = e.1.owner) (r.advance c e.1 e.2) (r'.advance c e.1 e.2) := by
  have hphase : (if e.2 then Phase.calm else (r.states e.1.owner).getD .calm) =
      if e.2 then Phase.calm else (r'.states e.1.owner).getD .calm := by
    rcases hgoes with hreset | howner
    · rw [if_pos hreset, if_pos hreset]
    · rw [h.states _ howner]
  unfold Replay.advance
  rw [hphase, h.pool]
  refine ⟨rfl, rfl, fun o ho => ?_, fun o ho => ?_⟩
  · by_cases howner : o = e.1.owner
    · simp [update, howner]
    · simpa [update, howner] using h.states o (ho.resolve_right howner)
  · by_cases howner : o = e.1.owner
    · simp [update, howner]
    · simpa [update, howner] using h.results o (ho.resolve_right howner)

/-- Events that go on do so for agreed owners or after an earlier event of theirs. -/
def Guarded (A : Owner → Prop) (es : List (Item × Bool)) : Prop :=
  ∀ pre e post, es = pre ++ e :: post →
    e.2 = true ∨ A e.1.owner ∨ ∃ e' ∈ pre, e'.1.owner = e.1.owner

theorem Agree.foldl (c : Condition) {es : List (Item × Bool)} : ∀ {A : Owner → Prop}
    {r r' : Replay}, Agree A r r' → Guarded A es → Agree (fun o => A o ∨ ∃ e ∈ es, e.1.owner = o)
        (es.foldl (fun r e => r.advance c e.1 e.2) r)
        (es.foldl (fun r e => r.advance c e.1 e.2) r') := by
  induction es with
  | nil => exact fun h _ => h.mono fun _ ho => ho.resolve_right fun ⟨_, he, _⟩ => by cases he
  | cons e es ih =>
    intro A r r' h hguarded
    have hfirst : e.2 = true ∨ A e.1.owner := by
      rcases hguarded [] e es rfl with hreset | howner | ⟨_, he, _⟩
      · exact Or.inl hreset
      · exact Or.inr howner
      · cases he
    refine (ih (h.advance c hfirst) fun pre e' post heq => ?_).mono fun o ho => ?_
    · rcases hguarded (e :: pre) e' post (by rw [heq]; rfl) with hreset | howner | ⟨e'', he'', heq'⟩
      · exact Or.inl hreset
      · exact Or.inr (Or.inl (Or.inl howner))
      · rcases mem_cons.mp he'' with rfl | he''
        · exact Or.inr (Or.inl (Or.inr heq'.symm))
        · exact Or.inr (Or.inr ⟨e'', he'', heq'⟩)
    · rcases ho with ho | ⟨e', he', rfl⟩
      · exact Or.inl (Or.inl ho)
      · rcases mem_cons.mp he' with rfl | he'
        · exact Or.inl (Or.inr rfl)
        · exact Or.inr ⟨e', he', rfl⟩

theorem guarded_of_ordered {A : Owner → Prop} {es : List (Item × Bool)} (hordered : Ordered es)
    (h : ∀ e ∈ es, e.2 = true ∨ A e.1.owner ∨
      ∃ e' ∈ es, e'.1.owner = e.1.owner ∧ e'.1.order < e.1.order) : Guarded A es := by
  rintro pre e post rfl
  rcases h e (by simp) with hreset | howner | ⟨e', he', howner, hlt⟩
  · exact Or.inl hreset
  · exact Or.inr (Or.inl howner)
  · refine Or.inr (Or.inr ⟨e', ?_, howner⟩)
    obtain ⟨-, hafter, -⟩ := pairwise_append.mp hordered
    rcases mem_append.mp he' with hpre | hpost
    · exact hpre
    · rcases mem_cons.mp hpost with rfl | hpost
      · exact absurd hlt (lt_irrefl _)
      · exact absurd hlt (not_lt_of_gt ((pairwise_cons.mp hafter).1 e' hpost))

/-! ## the last order -/

theorem lastOrder_foldl (c : Condition) (es : List (Item × Bool)) : ∀ r : Replay,
    (es.foldl (fun r e => r.advance c e.1 e.2) r).lastOrder =
      (es.getLast?.map (·.1.order)).or r.lastOrder := by
  induction es with
  | nil => exact fun _ => rfl
  | cons e es ih =>
    intro r
    rw [foldl_cons, ih]
    cases es with
    | nil => rfl
    | cons e' es =>
      rw [getLast?_cons_cons]
      cases hlast : (e' :: es).getLast? with
      | none => simp at hlast
      | some x => rfl

theorem le_lastOrder {es : List (Item × Bool)} (hordered : Ordered es) {b : Bucket}
    {e : Item × Bool} (he : e ∈ es) (hb : e.1.bucket = some b) :
    ∃ last, (replayFrom b {} es).lastOrder = some last ∧ e.1.order ≤ last := by
  have hmem : e ∈ es.filter (·.1.bucket = some b) := List.mem_filter.mpr ⟨he, by simpa using hb⟩
  have hfiltered : Ordered (es.filter (·.1.bucket = some b)) := hordered.filter _
  unfold replayFrom
  rw [lastOrder_foldl]
  cases hlast : (es.filter (·.1.bucket = some b)).getLast? with
  | none =>
    rw [getLast?_eq_none_iff.mp hlast] at hmem
    cases hmem
  | some x =>
    refine ⟨x.1.order, rfl, ?_⟩
    obtain ⟨init, heq⟩ := getLast?_eq_some_iff.mp hlast
    rw [heq] at hmem hfiltered
    rcases mem_append.mp hmem with hinit | hx
    · exact ((pairwise_append.mp hfiltered).2.2 e hinit x mem_cons_self).le
    · rw [mem_singleton.mp hx]

/-! ## steps -/

def streamOf (r : Owner × OwnerInput × Tail) : Stream :=
  ⟨r.1, r.2.2.start, r.2.1.history.drop r.2.2.start⟩

theorem advance_eq (es : List (Item × Bool)) : ∀ (rs : Bucket → Option Replay) (b : Bucket),
    advance rs es b = (rs b).map fun r => replayFrom b r es := by
  induction es with
  | nil =>
    intro rs b
    show rs b = (rs b).map fun r => r
    exact Option.map_id'.symm
  | cons e es ih =>
    intro rs b
    unfold advance replayFrom
    rw [foldl_cons]
    show advance _ es b = _
    rw [ih]
    unfold replayFrom
    cases hc : scope e.1.call with
    | none => rw [filter_cons_of_neg (by simp [Item.bucket, hc])]
    | some c =>
      by_cases hb : b = (e.1.owner.1, c)
      · subst hb
        rw [filter_cons_of_pos (by simp [Item.bucket, hc])]
        simp [update, Option.map_map, Function.comp_def]
      · rw [filter_cons_of_neg (by simp [Item.bucket, hc, Ne.symm hb])]
        simp [update, hb]

theorem filter_steps (ranges : List (Owner × OwnerInput × Tail)) (selected : Bucket → Bool)
    (b : Bucket) :
    (steps ranges selected).filter (·.1.bucket = some b) =
      if selected b then
        (scan (fun owner => ((ranges.find? (·.1 = owner)).map fun r => r.2.2.prior).getD {})
          (merged (ranges.map streamOf))).filter (·.1.bucket = some b)
      else [] := by
  have hmerged : ((ranges.flatMap fun r =>
      itemsFrom r.1 r.2.2.start (r.2.1.history.drop r.2.2.start)).mergeSort
        fun a b => a.order ≤ b.order) = merged (ranges.map streamOf) := by
    rw [merged, flatMap_map]
    rfl
  unfold steps
  rw [hmerged, filter_filter]
  have hbucket : ∀ e : Item × Bool, e.1.bucket = some b →
      (scope e.1.call).any (fun c => selected (e.1.owner.1, c)) = selected b := by
    intro e he
    obtain ⟨c, hc, rfl⟩ := Option.map_eq_some_iff.mp he
    rw [hc]
    rfl
  split
  · next hselected =>
    refine filter_congr fun e _ => ?_
    by_cases he : e.1.bucket = some b
    · rw [hbucket e he, hselected, Bool.and_true]
    · simp [he]
  · next hselected =>
    refine filter_eq_nil_iff.mpr fun e _ hboth => ?_
    rw [Bool.and_eq_true, decide_eq_true_eq] at hboth
    rw [hbucket e hboth.1] at hboth
    exact hselected hboth.2

theorem mem_scan_ranges {ranges : List (Owner × OwnerInput × Tail)}
    (h : Mergeable (ranges.map streamOf)) (e : Item × Bool) :
    e ∈ scan (fun owner => ((ranges.find? (·.1 = owner)).map fun r => r.2.2.prior).getD {})
        (merged (ranges.map streamOf)) ↔
      ∃ r ∈ ranges, e ∈ annotate r.1 r.2.2.prior r.2.2.start (r.2.1.history.drop r.2.2.start) := by
  have hprior : ∀ r ∈ ranges,
      ((ranges.find? (·.1 = r.1)).map fun r => r.2.2.prior).getD {} = r.2.2.prior := by
    intro r hr
    have howners : (ranges.map fun r => r.1).Nodup := by
      have howners := h.owners
      rw [List.map_map] at howners
      exact howners
    cases hfind : ranges.find? (·.1 = r.1) with
    | none =>
      have hnone := List.find?_eq_none.mp hfind r hr
      simp at hnone
    | some r' =>
      have howner : r'.1 = r.1 := by simpa using find?_some hfind
      rw [inj_on_of_nodup_map howners (mem_of_find?_eq_some hfind) hr howner]
      rfl
  rw [(h.scan_merged _).2 e]
  constructor
  · rintro ⟨s, hs, he⟩
    obtain ⟨r, hr, rfl⟩ := List.mem_map.mp hs
    refine ⟨r, hr, ?_⟩
    rw [show (streamOf r).owner = r.1 from rfl, hprior r hr] at he
    exact he
  · rintro ⟨r, hr, he⟩
    refine ⟨streamOf r, mem_map_of_mem hr, ?_⟩
    rw [show (streamOf r).owner = r.1 from rfl, hprior r hr]
    exact he

end Speed

end Codexon
