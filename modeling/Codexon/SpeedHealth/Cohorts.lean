import Codexon.Run
import Codexon.SpeedHealth.Classify

/-!
# Codexon.SpeedHealth.Cohorts

The tracker over cohorts.  Its proofs and reducers stand for the owners proven
last (`Exact`): a cohort is merged into them so that each pool has the events of
the full timeline, and the results are those of `classify`.
-/

namespace Codexon.Speed

open List

/-! ## what the tracker stands for -/

/-- A proof is that of the history. -/
structure Proof.Of (p : Proof) (input : OwnerInput) : Prop where
  revision : p.revision = input.revision
  length : p.length = input.history.length
  buckets : ∀ c, c ∈ p.buckets ↔ ∃ call ∈ input.history, scope call = some c
  prior : p.prior = priorAfter {} input.history

def Live (owners : Owners) (b : Bucket) (o : Owner) : Prop :=
  ∃ input, owners.get? o = some input ∧ lastBucket o input.history = some b

def Peopled (owners : Owners) (b : Bucket) : Prop :=
  ∃ input, ∃ o : Owner, owners.get? o = some input ∧ o.1 = b.1 ∧
    ∃ call ∈ input.history, scope call = some b.2

/-- The tracker stands for the proven owners. -/
structure Exact (t : Tracker) (proven : Owners) : Prop where
  proofs : ∀ o input, proven.get? o = some input → ∃ p, t.proofs.get? o = some p ∧ p.Of input
  absent : ∀ o, proven.get? o = none → t.proofs.get? o = none
  present : ∀ b, Peopled proven b → t.replays b ≠ none
  replays : ∀ b r, t.replays b = some r →
    Agree (Live proven b) r (replayFrom b {} (timeline proven))

/-- Equal revisions mean equal histories, and an append from the proven revision and
length leaves the proven history in front. -/
def Certified (prev next : Owners) : Prop :=
  ∀ o old input, prev.get? o = some old → next.get? o = some input →
    (input.revision = old.revision → input.history = old.history) ∧
      (input.appendFrom = some (old.revision, old.history.length) → old.history <+: input.history)

theorem proper_empty : Proper {} where
  identities := nodup_nil
  chronological := fun _ h => absurd h not_mem_nil

variable {owners : Owners}

theorem mem_timeline (h : Proper owners) (e : Item × Bool) : e ∈ timeline owners ↔
      ∃ o input, owners.get? o = some input ∧ e ∈ annotate o {} 0 input.history := by
  unfold timeline
  rw [(h.mergeable.scan_merged _).2 e]
  constructor
  · rintro ⟨s, hs, he⟩
    obtain ⟨entry, hentry, rfl⟩ := List.mem_map.mp hs
    exact ⟨entry.1, entry.2, Dict.get?_eq_some.mpr hentry, he⟩
  · rintro ⟨o, input, hget, he⟩
    exact ⟨⟨o, 0, input.history⟩, List.mem_map.mpr ⟨(o, input), Dict.get?_eq_some.mp hget, rfl⟩, he⟩

theorem ordered_timeline (h : Proper owners) : Ordered (timeline owners) :=
  (h.mergeable.scan_merged _).1

variable {input : OwnerInput}

theorem Proper.chronological_of (h : Proper owners) {o : Owner}
    (hget : owners.get? o = some input) : Chronological input.history :=
  h.chronological (o, input) (Dict.get?_eq_some.mp hget)

theorem bucket_eq {item : Item} {b : Bucket} :
    item.bucket = some b ↔ item.owner.1 = b.1 ∧ scope item.call = some b.2 := by
  unfold Item.bucket
  rw [Option.map_eq_some_iff]
  constructor
  · rintro ⟨c, hc, rfl⟩
    exact ⟨rfl, hc⟩
  · rintro ⟨hhome, hc⟩
    exact ⟨b.2, hc, Prod.ext hhome rfl⟩

theorem filter_timeline_nil (h : Proper owners) {b : Bucket}
    (hb : ¬ Peopled owners b) : (timeline owners).filter (·.1.bucket = some b) = [] := by
  refine filter_eq_nil_iff.mpr fun e he hbucket => hb ?_
  obtain ⟨o, input, hget, hannotated⟩ := (mem_timeline h e).mp he
  obtain ⟨howner, -, hcall⟩ := mem_annotate hannotated
  obtain ⟨hhome, hscope⟩ := bucket_eq.mp (by simpa using hbucket)
  exact ⟨input, o, hget, howner ▸ hhome, e.1.call, hcall, hscope⟩

/-! ## visiting an owner -/

def provenOf (proven : Owners) (o : Owner) : List Call :=
  ((proven.get? o).map OwnerInput.history).getD []

/-- What a visit found of an owner: its history is unchanged, was corrected, or
goes on after `before`, which is the proven history or has no calls in common with
the pools. -/
inductive Visited (t : Tracker) (proven : Owners) (o : Owner) (input : OwnerInput) (v : Visit) :
    Prop
  | unchanged (htail : v.tail = none) (hsome : proven.get? o ≠ none)
      (hhistory : input.history = provenOf proven o)
  | corrected (htail : v.tail = none)
      (hdirty : ∀ c, (∃ call ∈ provenOf proven o ++ input.history, scope call = some c) →
        (o.1, c) ∈ v.dirty)
  | continued (before rows : List Call) (hhistory : input.history = before ++ rows)
      (htail : v.tail = if rows = [] then none else some ⟨before.length, priorAfter {} before⟩)
      (hbefore : (proven.get? o ≠ none ∧ before = provenOf proven o) ∨
        before = [] ∧ ∀ call ∈ provenOf proven o, scope call = none)
      (hdirty : ∀ e ∈ annotate o (priorAfter {} before) before.length rows, ∀ b last,
        e.1.bucket = some b → (t.replays b).bind Replay.lastOrder = some last →
          b ∈ v.dirty ∨ last < e.1.order)

theorem firsts_spec (owner : Owner) (items : List Item)
    (howner : ∀ item ∈ items, item.owner = owner) (hordered : items.Pairwise (·.order < ·.order)) :
    ∀ item ∈ items, ∀ b, item.bucket = some b → ∃ f ∈ firsts owner items, f.1 = b ∧ f.2 ≤ item.order := by
  have hgeneral (step : List (Bucket × Order) → Item → List (Bucket × Order))
      (hskips : ∀ found item, scope item.call = none → step found item = found)
      (hsteps : ∀ found item c, scope item.call = some c → step found item =
        if found.any fun f => f.1 = (owner.1, c) then found
        else found ++ [((owner.1, c), item.order)]) : ∀ (items : List Item) (found : _),
      (∀ item ∈ items, item.owner = owner) → items.Pairwise (·.order < ·.order) →
      (∀ f ∈ found, ∀ item ∈ items, f.2 ≤ item.order) →
      let result := items.foldl step found
      found ⊆ result ∧ ∀ item ∈ items, ∀ b, item.bucket = some b →
        ∃ f ∈ result, f.1 = b ∧ f.2 ≤ item.order := by
    intro items
    induction items with
    | nil => exact fun found _ _ _ => ⟨List.Subset.refl _, fun _ h => absurd h not_mem_nil⟩
    | cons item items ih =>
      intro found howner hordered hfound
      obtain ⟨hfirst, hrest⟩ := pairwise_cons.mp hordered
      have howner' := fun other hother => howner other (mem_cons_of_mem _ hother)
      have hitem := howner item mem_cons_self
      have hfound' := fun f hf other hother => hfound f hf other (mem_cons_of_mem item hother)
      dsimp only
      rw [foldl_cons]
      cases hc : scope item.call with
      | none =>
        rw [hskips _ _ hc]
        obtain ⟨hsub, hall⟩ := ih found howner' hrest hfound'
        refine ⟨hsub, fun other hother b hb => ?_⟩
        rcases mem_cons.mp hother with rfl | hother
        · rw [Item.bucket, hc] at hb
          cases hb
        · exact hall other hother b hb
      | some c =>
        rw [hsteps _ _ _ hc]
        by_cases hany : (found.any fun f => decide (f.1 = (owner.1, c))) = true
        · obtain ⟨hsub, hall⟩ := ih found howner' hrest hfound'
          simp only [hany, if_true]
          refine ⟨hsub, fun other hother b hb => ?_⟩
          rcases mem_cons.mp hother with rfl | hother
          · obtain ⟨f, hf, heq⟩ := any_eq_true.mp hany
            obtain ⟨hhome, hscope⟩ := bucket_eq.mp hb
            refine ⟨f, hsub hf, ?_, hfound f hf _ mem_cons_self⟩
            rw [hc] at hscope
            have hf1 : f.1 = (owner.1, c) := by simpa using heq
            rw [hf1]
            exact Prod.ext (hitem ▸ hhome) (Option.some.inj hscope)
          · exact hall other hother b hb
        · obtain ⟨hsub, hall⟩ := ih (found ++ [((owner.1, c), item.order)]) howner' hrest
            fun f hf other hother => by
              rcases mem_append.mp hf with hf | hf
              · exact hfound' f hf other hother
              · rw [mem_singleton.mp hf]
                exact (hfirst other hother).le
          simp only [hany]
          refine ⟨fun f hf => hsub (mem_append_left _ hf), fun other hother b hb => ?_⟩
          rcases mem_cons.mp hother with rfl | hother
          · obtain ⟨hhome, hscope⟩ := bucket_eq.mp hb
            rw [hc] at hscope
            refine ⟨((owner.1, c), _), hsub (mem_append_right _ mem_cons_self), ?_, le_rfl⟩
            exact Prod.ext (hitem ▸ hhome) (Option.some.inj hscope)
          · exact hall other hother b hb
  exact (hgeneral _ (fun _ _ hc => by simp only [hc]) (fun _ _ c hc => by simp only [hc]) items []
    howner hordered fun _ h => absurd h not_mem_nil).2

theorem firsts_dirty (t : Tracker) (o : Owner) {prior : Prior} {start : Nat} {rows : List Call}
    (hchron : Chronological rows) :
    ∀ e ∈ annotate o prior start rows, ∀ b last, e.1.bucket = some b →
      (t.replays b).bind Replay.lastOrder = some last →
        b ∈ ((firsts o (itemsFrom o start rows)).filter fun f =>
            match (t.replays f.1).bind Replay.lastOrder with
            | none => false
            | some last => decide (f.2 ≤ last)).map (·.1) ∨ last < e.1.order := by
  intro e he b last hb hlast
  have hitem : e.1 ∈ itemsFrom o start rows :=
    map_annotate o rows prior start ▸ mem_map_of_mem he
  obtain ⟨f, hf, rfl, hle⟩ := firsts_spec o _ (fun item h => (mem_itemsFrom h).1)
    (pairwise_itemsFrom o hchron start) e.1 hitem b hb
  by_cases hdirty : f.2 ≤ last
  · left
    refine List.mem_map.mpr ⟨f, List.mem_filter.mpr ⟨hf, ?_⟩, rfl⟩
    rw [hlast]
    simpa using hdirty
  · exact Or.inr (lt_of_lt_of_le (not_le.mp hdirty) hle)

theorem of_append {p : Proof} {before rows : List Call}
    (hhistory : input.history = before ++ rows) {buckets : List Condition}
    (hbuckets : ∀ c, c ∈ buckets ↔ ∃ call ∈ before, scope call = some c)
    (hp : p = ⟨input.revision, input.history.length, buckets ++ rows.filterMap scope,
      (rows.getLast?.map Prior.after).getD (priorAfter {} before)⟩) : p.Of input := by
  subst hp
  refine ⟨rfl, rfl, fun c => ?_, ?_⟩
  · simp only [mem_append, hbuckets, mem_filterMap, hhistory]
    constructor
    · rintro (⟨call, hcall, hc⟩ | ⟨call, hcall, hc⟩)
      · exact ⟨call, Or.inl hcall, hc⟩
      · exact ⟨call, Or.inr hcall, hc⟩
    · rintro ⟨call, hcall | hcall, hc⟩
      · exact Or.inl ⟨call, hcall, hc⟩
      · exact Or.inr ⟨call, hcall, hc⟩
  · rw [hhistory, priorAfter_append]
    rfl

/-- **What a visit finds.** -/
theorem visit_spec {t : Tracker} {proven next : Owners} (h : Exact t proven)
    (hcertified : Certified proven next) {o : Owner}
    (hget : next.get? o = some input) (hchron : Chronological input.history) :
    (t.visit o input).proof.Of input ∧ Visited t proven o input (t.visit o input) := by
  unfold Tracker.visit
  dsimp only
  cases hsame : (t.proofs.get? o).filter (fun p => decide (p.revision = input.revision)) with
  | some p =>
    obtain ⟨hp, hrevision⟩ := Option.filter_eq_some_iff.mp hsame
    cases hproven : proven.get? o with
    | none => rw [h.absent o hproven] at hp; cases hp
    | some old =>
      obtain ⟨p', hp', hof⟩ := h.proofs o old hproven
      obtain rfl : p' = p := Option.some.inj (hp'.symm.trans hp)
      have hhistory : input.history = old.history :=
        (hcertified o old input hproven hget).1
          ((by simpa using hrevision : p'.revision = _).symm.trans hof.revision)
      refine ⟨⟨by simpa using hrevision, by rw [hof.length, hhistory], fun c => by
        rw [hof.buckets, hhistory], by rw [hof.prior, hhistory]⟩,
        Visited.unchanged rfl (by simp [hproven]) ?_⟩
      rw [provenOf, hproven]
      exact hhistory
  | none =>
    dsimp only
    cases hbefore : input.certified (t.proofs.get? o) with
    | some p =>
      -- an append to what was proven
      obtain ⟨hp, happend⟩ := Option.filter_eq_some_iff.mp hbefore
      rw [Bool.and_eq_true, decide_eq_true_eq, decide_eq_true_eq] at happend
      cases hproven : proven.get? o with
      | none => rw [h.absent o hproven] at hp; cases hp
      | some old =>
        obtain ⟨p', hp', hof⟩ := h.proofs o old hproven
        obtain rfl : p' = p := Option.some.inj (hp'.symm.trans hp)
        obtain ⟨rows, hrows⟩ := (hcertified o old input hproven hget).2 (by
          rw [happend.1, hof.revision, hof.length])
        have hdrop : input.history.drop p'.length = rows := by
          rw [hof.length, ← hrows, drop_left]
        have hrowsChron : Chronological rows := by
          rw [← hrows] at hchron
          exact (pairwise_append.mp hchron).2.1
        have hcorrected : (t.proofs.get? o).filter (fun old =>
            old.buckets ≠ [] && (some p').isNone) = none := by
          rw [hp']
          simp [Option.filter]
        rw [hcorrected]
        simp only [Option.map_some, Option.getD_some, hdrop]
        refine ⟨of_append hrows.symm hof.buckets (by rw [hof.prior]), ?_⟩
        refine Visited.continued old.history rows hrows.symm ?_
          (Or.inl ⟨by simp [hproven], by rw [provenOf, hproven]; rfl⟩) ?_
        · have hlength : input.history.length = p'.length + rows.length := by
            rw [hof.length, ← hrows, length_append]
          cases rows with
          | nil => rw [if_neg (by simp [hlength]), if_pos rfl]
          | cons c cs =>
            rw [if_pos (by rw [hlength]; simp), if_neg (by simp), hof.length, hof.prior]
        · rw [hof.length, hof.prior]
          exact firsts_dirty t o hrowsChron
    | none =>
      simp only [Option.map_none, Option.getD_none, drop_zero, nil_append]
      have hof : Proof.Of ⟨input.revision, input.history.length, input.history.filterMap scope,
          (input.history.getLast?.map Prior.after).getD {}⟩ input :=
        of_append (nil_append _).symm
          (by simp : ∀ c, c ∈ ([] : List Condition) ↔ ∃ call ∈ ([] : List Call), _) rfl
      cases hcorrected : (t.proofs.get? o).filter (fun old =>
          old.buckets ≠ [] && (none : Option Proof).isNone) with
      | some old =>
        refine ⟨hof, Visited.corrected rfl fun c hc => ?_⟩
        obtain ⟨hp, -⟩ := Option.filter_eq_some_iff.mp hcorrected
        cases hproven : proven.get? o with
        | none => rw [h.absent o hproven] at hp; cases hp
        | some oldInput =>
          obtain ⟨p', hp', hof'⟩ := h.proofs o oldInput hproven
          obtain rfl : p' = old := Option.some.inj (hp'.symm.trans hp)
          obtain ⟨call, hcall, hscope⟩ := hc
          rw [provenOf, hproven] at hcall
          refine List.mem_map.mpr ⟨c, mem_append.mpr ?_, rfl⟩
          rcases mem_append.mp hcall with hcall | hcall
          · exact Or.inl ((hof'.buckets c).mpr ⟨call, hcall, hscope⟩)
          · exact Or.inr ((hof.buckets c).mpr ⟨call, hcall, hscope⟩)
      | none =>
        refine ⟨hof, Visited.continued [] input.history rfl ?_ (Or.inr ⟨rfl, ?_⟩) ?_⟩
        · cases input.history with
          | nil => rfl
          | cons c cs => simp [priorAfter]
        · intro call hcall
          cases hproven : proven.get? o with
          | none =>
            rw [provenOf, hproven] at hcall
            exact absurd hcall not_mem_nil
          | some oldInput =>
            obtain ⟨p', hp', hof'⟩ := h.proofs o oldInput hproven
            rw [provenOf, hproven] at hcall
            have hempty : p'.buckets = [] := by
              by_contra hne
              rw [hp'] at hcorrected
              simp [Option.filter, hne] at hcorrected
            cases hscope : scope call with
            | none => rfl
            | some c =>
              have hmem := (hof'.buckets c).mpr ⟨call, hcall, hscope⟩
              rw [hempty] at hmem
              cases hmem
        · exact firsts_dirty t o hchron

end Codexon.Speed
