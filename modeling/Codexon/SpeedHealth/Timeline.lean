import Codexon.SpeedHealth

/-!
# Codexon.SpeedHealth.Timeline

The merged histories.  Calls are in a strict order, so a merge is determined by
the calls it holds (`timeline_unique`); the loop over a merge notes for each call
whether its session starts anew, which depends on the history of its owner alone
(`annotate`).
-/

namespace Codexon.Speed

open List

/-! ## histories -/

/-- The calls of an owner, each with whether the session starts anew with it. -/
def annotate (owner : Owner) : Prior → Nat → List Call → List (Item × Bool)
  | _, _, [] => []
  | prior, i, c :: cs =>
    (⟨owner, i, c⟩, prior.resets c) :: annotate owner (Prior.after c) (i + 1) cs

def priorAfter (prior : Prior) (history : List Call) : Prior :=
  (history.getLast?.map Prior.after).getD prior

theorem priorAfter_append (prior : Prior) (cs ds : List Call) :
    priorAfter prior (cs ++ ds) = priorAfter (priorAfter prior cs) ds := by
  unfold priorAfter
  rw [getLast?_append]
  cases ds.getLast? <;> rfl

theorem annotate_append (owner : Owner) (cs : List Call) : ∀ (prior : Prior) (i : Nat)
    (ds : List Call), annotate owner prior i (cs ++ ds) =
      annotate owner prior i cs ++ annotate owner (priorAfter prior cs) (i + cs.length) ds := by
  induction cs with
  | nil => exact fun _ _ _ => rfl
  | cons c cs ih =>
    intro prior i ds
    rw [cons_append, annotate, annotate, ih, cons_append]
    have hprior : priorAfter (Prior.after c) cs = priorAfter prior (c :: cs) :=
      (priorAfter_append prior [c] cs).symm
    rw [hprior, length_cons]
    congr 3
    omega

theorem map_annotate (owner : Owner) (cs : List Call) : ∀ (prior : Prior) (i : Nat),
    (annotate owner prior i cs).map Prod.fst = itemsFrom owner i cs := by
  induction cs with
  | nil => exact fun _ _ => rfl
  | cons c cs ih => exact fun _ _ => congrArg (_ :: ·) (ih _ _)

theorem map_itemsFrom (owner : Owner) (cs : List Call) : ∀ i : Nat,
    (itemsFrom owner i cs).map Item.call = cs := by
  induction cs with
  | nil => exact fun _ => rfl
  | cons c cs ih => exact fun _ => congrArg (c :: ·) (ih _)

variable {cs : List Call} {owner : Owner}

theorem mem_itemsFrom {item : Item} : ∀ {i : Nat},
    item ∈ itemsFrom owner i cs → item.owner = owner ∧ i ≤ item.ordinal ∧ item.call ∈ cs := by
  induction cs with
  | nil => exact fun h => absurd h not_mem_nil
  | cons c cs ih =>
    intro i h
    rcases mem_cons.mp h with rfl | h
    · exact ⟨rfl, le_rfl, mem_cons_self⟩
    · obtain ⟨howner, hordinal, hcall⟩ := ih h
      exact ⟨howner, by omega, mem_cons_of_mem _ hcall⟩

theorem mem_annotate {prior : Prior} {i : Nat}
    {e : Item × Bool} (h : e ∈ annotate owner prior i cs) :
    e.1.owner = owner ∧ i ≤ e.1.ordinal ∧ e.1.call ∈ cs :=
  mem_itemsFrom (map_annotate owner cs prior i ▸ mem_map_of_mem h)

theorem exists_annotate (owner : Owner) {c : Call} (h : c ∈ cs) :
    ∀ (prior : Prior) (i : Nat), ∃ e ∈ annotate owner prior i cs, e.1.call = c := by
  intro prior i
  obtain ⟨item, hitem, rfl⟩ := List.mem_map.mp ((map_itemsFrom owner cs i).symm ▸ h)
  obtain ⟨e, he, rfl⟩ := List.mem_map.mp ((map_annotate owner cs prior i).symm ▸ hitem)
  exact ⟨e, he, rfl⟩

/-! ## the strict order -/

def Chronological (history : List Call) : Prop := history.Pairwise (·.ts ≤ ·.ts)

theorem order_lt_of_owner {a b : Item} (howner : a.owner = b.owner) (hts : a.call.ts ≤ b.call.ts)
    (hordinal : a.ordinal < b.ordinal) : a.order < b.order := by
  rw [Item.order, Item.order, Prod.Lex.toLex_lt_toLex]
  rcases lt_or_eq_of_le hts with hlt | heq
  · left
    rw [Item.key, Item.key, Prod.Lex.toLex_lt_toLex]
    exact Or.inl hlt
  · right
    exact ⟨by rw [Item.key, Item.key, heq, howner], hordinal⟩

theorem owner_eq_of_order {a b : Item} (h : a.order = b.order) :
    a.owner = b.owner ∧ a.ordinal = b.ordinal := by
  obtain ⟨hkey, hordinal⟩ := Prod.mk.inj (toLex.injective h)
  obtain ⟨-, howner⟩ := Prod.mk.inj (toLex.injective hkey)
  obtain ⟨hhome, hsid⟩ := Prod.mk.inj (toLex.injective howner)
  exact ⟨Prod.ext hhome hsid, hordinal⟩

theorem pairwise_itemsFrom (owner : Owner) (h : Chronological cs) : ∀ i : Nat,
    (itemsFrom owner i cs).Pairwise (·.order < ·.order) := by
  induction cs with
  | nil => exact fun _ => List.Pairwise.nil
  | cons c cs ih =>
    intro i
    obtain ⟨hfirst, hrest⟩ := pairwise_cons.mp h
    refine pairwise_cons.mpr ⟨fun item hitem => ?_, ih hrest (i + 1)⟩
    obtain ⟨howner, hordinal, hcall⟩ := mem_itemsFrom hitem
    refine order_lt_of_owner howner.symm (hfirst _ hcall) ?_
    show i < item.ordinal
    omega

/-- A session that goes on with a call was in its condition before: since the
history before, or since an earlier call of the stretch. -/
theorem continues_annotate {e : Item × Bool}
    (hchron : Chronological cs) : ∀ {prior : Prior} {i : Nat},
      e ∈ annotate owner prior i cs → e.2 = false → prior.condition = scope e.1.call ∨
          ∃ e' ∈ annotate owner prior i cs, e'.1.order < e.1.order ∧
            scope e'.1.call = scope e.1.call := by
  induction cs with
  | nil => exact fun h => absurd h not_mem_nil
  | cons c cs ih =>
    intro prior i h hgoes
    obtain ⟨hfirst, hrest⟩ := pairwise_cons.mp hchron
    rcases mem_cons.mp h with rfl | h
    · left
      have hresets : prior.resets c = false := hgoes
      simp only [Prior.resets, Bool.or_eq_false_iff, decide_eq_false_iff_not, not_not] at hresets
      exact hresets.1.symm
    · right
      rcases ih hrest h hgoes with hcondition | ⟨e', he', hlt, hscope⟩
      · obtain ⟨howner, hordinal, hcall⟩ := mem_annotate h
        refine ⟨(⟨owner, i, c⟩, prior.resets c), mem_cons_self, ?_, hcondition⟩
        refine order_lt_of_owner howner.symm (hfirst _ hcall) ?_
        show i < e.1.ordinal
        omega
      · exact ⟨e', mem_cons_of_mem _ he', hlt, hscope⟩

/-- **A merge is determined by what it holds.** -/
theorem merge_unique {α : Type} (f : α → Order) {xs ys : List α}
    (hxs : xs.Pairwise fun a b => f a < f b) (hys : ys.Pairwise fun a b => f a < f b)
    (h : ∀ x, x ∈ xs ↔ x ∈ ys) : xs = ys := by
  have hnodup : ∀ {zs : List α}, (zs.Pairwise fun a b => f a < f b) → zs.Nodup := by
    intro zs hzs
    refine hzs.imp ?_
    rintro a b hlt rfl
    exact lt_irrefl _ hlt
  have hperm : xs.Perm ys := (perm_ext_iff_of_nodup (hnodup hxs) (hnodup hys)).mpr h
  exact hperm.eq_of_pairwise (fun a b _ _ hab hba => absurd hab (not_lt_of_gt hba)) hxs hys

def Ordered (es : List (Item × Bool)) : Prop := es.Pairwise fun a b => a.1.order < b.1.order

/-! ## merging -/

/-- A stretch of the history of an owner. -/
structure Stream where
  owner : Owner
  start : Nat
  calls : List Call

def Stream.items (s : Stream) : List Item := itemsFrom s.owner s.start s.calls

/-- Streams of distinct owners, each in the order of time. -/
structure Mergeable (streams : List Stream) : Prop where
  owners : (streams.map Stream.owner).Nodup
  chronological : ∀ s ∈ streams, Chronological s.calls

variable {streams : List Stream}

theorem Mergeable.pairwise_ne (h : Mergeable streams) :
    (streams.flatMap Stream.items).Pairwise fun a b => a.order ≠ b.order := by
  obtain ⟨howners, hchron⟩ := h
  induction streams with
  | nil => exact List.Pairwise.nil
  | cons s streams ih =>
    rw [map_cons, nodup_cons] at howners
    rw [flatMap_cons, pairwise_append]
    refine ⟨?_, ih howners.2 fun t ht => hchron t (mem_cons_of_mem _ ht), ?_⟩
    · exact (pairwise_itemsFrom s.owner (hchron s mem_cons_self) s.start).imp ne_of_lt
    · intro a ha b hb heq
      obtain ⟨t, ht, hbt⟩ := mem_flatMap.mp hb
      have howner := (owner_eq_of_order heq).1
      rw [(mem_itemsFrom ha).1, (mem_itemsFrom hbt).1] at howner
      exact howners.1 (howner ▸ mem_map_of_mem ht)

theorem Mergeable.pairwise_sort (h : Mergeable streams) :
    ((streams.flatMap Stream.items).mergeSort fun a b => a.order ≤ b.order).Pairwise
      (·.order < ·.order) := by
  have hle : ((streams.flatMap Stream.items).mergeSort fun a b => a.order ≤ b.order).Pairwise
      fun a b => a.order ≤ b.order := by
    refine (pairwise_mergeSort ?_ ?_ _).imp of_decide_eq_true
    · intro a b c hab hbc
      exact decide_eq_true (le_trans (of_decide_eq_true hab) (of_decide_eq_true hbc))
    · intro a b
      simpa using le_total a.order b.order
  have hne := (mergeSort_perm (streams.flatMap Stream.items)
    fun a b => decide (a.order ≤ b.order)).pairwise_iff (fun hab => Ne.symm hab) |>.mpr h.pairwise_ne
  exact (hle.and hne).imp fun hab => lt_of_le_of_ne hab.1 hab.2

theorem Mergeable.listed_ordinals (h : Mergeable streams) :
    (streams.flatMap Stream.items).Pairwise fun a b => a.owner = b.owner → a.ordinal < b.ordinal :=
    by
  have howners := h.owners
  clear h
  induction streams with
  | nil => exact List.Pairwise.nil
  | cons s streams ih =>
    rw [map_cons, nodup_cons] at howners
    rw [flatMap_cons, pairwise_append]
    refine ⟨?_, ih howners.2, ?_⟩
    · unfold Stream.items
      generalize s.start = i
      induction s.calls generalizing i with
      | nil => exact List.Pairwise.nil
      | cons c cs ih =>
        refine pairwise_cons.mpr ⟨fun item hitem _ => ?_, ih (i + 1)⟩
        have hordinal := (mem_itemsFrom hitem).2.1
        show i < item.ordinal
        omega
    · intro a ha b hb howner
      obtain ⟨t, ht, hbt⟩ := mem_flatMap.mp hb
      rw [(mem_itemsFrom ha).1, (mem_itemsFrom hbt).1] at howner
      exact absurd (howner ▸ mem_map_of_mem ht) howners.1

theorem Mergeable.stable_sort (h : Mergeable streams) :
    ((streams.flatMap Stream.items).mergeSort fun a b => a.key ≤ b.key) =
      (streams.flatMap Stream.items).mergeSort fun a b => a.order ≤ b.order := by
  refine merge_unique Item.order ?_ h.pairwise_sort fun item => by
    rw [mem_mergeSort, mem_mergeSort]
  have htrans : ∀ a b c : Item, decide (a.key ≤ b.key) → decide (b.key ≤ c.key) →
      decide (a.key ≤ c.key) := fun a b c hab hbc => by
    simpa using le_trans (by simpa using hab) (by simpa using hbc)
  have htotal : ∀ a b : Item, decide (a.key ≤ b.key) || decide (b.key ≤ a.key) := fun a b => by
    simpa using le_total a.key b.key
  rw [← mergeSort_zipIdx, pairwise_map]
  have hsorted := pairwise_mergeSort (zipIdxLE_trans htrans)
    (zipIdxLE_total htotal) (streams.flatMap Stream.items).zipIdx
  have hplaces : ((streams.flatMap Stream.items).zipIdx).Pairwise fun a b => a.2 ≠ b.2 := by
    rw [← pairwise_map, zipIdx_map_snd]
    exact nodup_range'
  have hne := (mergeSort_perm (streams.flatMap Stream.items).zipIdx
    (List.zipIdxLE fun a b => decide (a.key ≤ b.key))).pairwise_iff
      (fun hab => Ne.symm hab) |>.mpr hplaces
  refine (hsorted.and hne).imp_of_mem fun {a b} ha hb hab => ?_
  obtain ⟨hle, hplace⟩ := hab
  simp only [List.zipIdxLE] at hle
  split at hle
  · next hkey =>
    split at hle
    · -- a tie: both are of one owner, and listed in this order
      next hkey' =>
        have heq : a.1.key = b.1.key :=
          le_antisymm (by simpa using hkey) (by simpa using hkey')
        obtain ⟨hts, howner⟩ := Prod.mk.inj (toLex.injective heq)
        obtain ⟨hhome, hsid⟩ := Prod.mk.inj (toLex.injective howner)
        have hlt : a.2 < b.2 := lt_of_le_of_ne (by simpa using hle) hplace
        obtain ⟨hi, ha'⟩ := List.getElem?_eq_some_iff.mp
          (mem_zipIdx_iff_getElem?.mp (mem_mergeSort.mp ha))
        obtain ⟨hj, hb'⟩ := List.getElem?_eq_some_iff.mp
          (mem_zipIdx_iff_getElem?.mp (mem_mergeSort.mp hb))
        have hordinal := pairwise_iff_getElem.mp h.listed_ordinals a.2 b.2 hi hj hlt
        rw [ha', hb'] at hordinal
        have hsame : a.1.owner = b.1.owner := Prod.ext hhome hsid
        exact order_lt_of_owner hsame hts.le (hordinal hsame)
    · next hkey' =>
      have hlt : a.1.key < b.1.key :=
        lt_of_le_not_ge (by simpa using hkey) (by simpa using hkey')
      rw [Item.order, Item.order, Prod.Lex.toLex_lt_toLex]
      exact Or.inl hlt
  · cases hle

/-! ## the loop over a merge -/

theorem map_scan (items : List Item) : ∀ prior, (scan prior items).map Prod.fst = items := by
  induction items with
  | nil => exact fun _ => rfl
  | cons item items ih => exact fun _ => congrArg (item :: ·) (ih _)

/-- **The loop annotates every history on its own.** -/
theorem scan_filter (items : List Item) : ∀ (prior : Owner → Prior) (start : Owner → Nat)
    (calls : Owner → List Call),
    (∀ owner, items.filter (·.owner = owner) = itemsFrom owner (start owner) (calls owner)) →
      ∀ owner, (scan prior items).filter (·.1.owner = owner) =
        annotate owner (prior owner) (start owner) (calls owner) := by
  induction items with
  | nil =>
    intro prior start calls h owner
    cases hcalls : calls owner with
    | nil => rfl
    | cons c cs =>
      have hempty := h owner
      rw [hcalls] at hempty
      cases hempty
  | cons item items ih =>
    intro prior start calls h owner
    have hhead := h item.owner
    rw [filter_cons_of_pos (by simp)] at hhead
    cases hcalls : calls item.owner with
    | nil =>
      rw [hcalls] at hhead
      cases hhead
    | cons c cs =>
      rw [hcalls] at hhead
      obtain ⟨hitem, hrest⟩ := List.cons.inj hhead
      have hnext := ih (update prior item.owner (Prior.after item.call))
        (update start item.owner (start item.owner + 1)) (update calls item.owner cs)
        fun other => by
          by_cases hother : other = item.owner
          · subst hother
            simpa [update] using hrest
          · have htail := h other
            rw [filter_cons_of_neg (by simpa using Ne.symm hother)] at htail
            simpa [update, hother] using htail
      rw [scan]
      by_cases howner : owner = item.owner
      · subst howner
        have hcall : item.call = c := by rw [hitem]
        rw [filter_cons_of_pos (by simp), hnext, hcalls, annotate]
        simp only [update, if_true, hcall]
        rw [← hitem]
      · rw [filter_cons_of_neg (by simpa using Ne.symm howner), hnext]
        simp [update, howner]

def merged (streams : List Stream) : List Item :=
  (streams.flatMap Stream.items).mergeSort fun a b => a.order ≤ b.order

theorem Mergeable.filter_merged (h : Mergeable streams) {s : Stream}
    (hs : s ∈ streams) : (merged streams).filter (·.owner = s.owner) = s.items := by
  refine merge_unique Item.order (h.pairwise_sort.filter _)
    (pairwise_itemsFrom s.owner (h.chronological s hs) s.start) fun item => ?_
  rw [List.mem_filter, merged, mem_mergeSort, mem_flatMap, decide_eq_true_eq]
  constructor
  · rintro ⟨⟨t, ht, hitem⟩, howner⟩
    rw [(mem_itemsFrom hitem).1] at howner
    obtain rfl := inj_on_of_nodup_map h.owners ht hs howner
    exact hitem
  · exact fun hitem => ⟨⟨s, hs, hitem⟩, (mem_itemsFrom hitem).1⟩

theorem Mergeable.filter_merged_none
    (howner : ∀ s ∈ streams, s.owner ≠ owner) : (merged streams).filter (·.owner = owner) = [] := by
  refine filter_eq_nil_iff.mpr fun item hitem => ?_
  obtain ⟨s, hs, hitem⟩ := mem_flatMap.mp (mem_mergeSort.mp hitem)
  simpa [(mem_itemsFrom hitem).1] using howner s hs

theorem Mergeable.scan_merged (h : Mergeable streams) (prior : Owner → Prior) :
    Ordered (scan prior (merged streams)) ∧ ∀ e, e ∈ scan prior (merged streams) ↔
        ∃ s ∈ streams, e ∈ annotate s.owner (prior s.owner) s.start s.calls := by
  refine ⟨?_, fun e => ?_⟩
  · have hsorted := h.pairwise_sort
    rw [← merged, ← map_scan (merged streams) prior, pairwise_map] at hsorted
    exact hsorted
  · have hfilter := scan_filter (merged streams) prior
      (fun owner => ((streams.find? (·.owner = owner)).map Stream.start).getD 0)
      (fun owner => ((streams.find? (·.owner = owner)).map Stream.calls).getD []) fun owner => by
        cases hfind : streams.find? (·.owner = owner) with
        | none =>
          refine Mergeable.filter_merged_none fun s hs => ?_
          simpa using List.find?_eq_none.mp hfind s hs
        | some s =>
          have howner : s.owner = owner := by simpa using find?_some hfind
          rw [← howner]
          exact h.filter_merged (mem_of_find?_eq_some hfind)
    have hmem : e ∈ scan prior (merged streams) ↔
        e ∈ (scan prior (merged streams)).filter (·.1.owner = e.1.owner) := by
      simp [List.mem_filter]
    rw [hmem, hfilter]
    constructor
    · intro he
      cases hfind : streams.find? (·.owner = e.1.owner) with
      | none =>
        rw [hfind] at he
        exact absurd he not_mem_nil
      | some s =>
        have howner : s.owner = e.1.owner := by simpa using find?_some hfind
        rw [hfind] at he
        exact ⟨s, mem_of_find?_eq_some hfind, howner ▸ he⟩
    · rintro ⟨s, hs, he⟩
      have howner := (mem_annotate he).1
      have hfind : streams.find? (·.owner = e.1.owner) = some s := by
        cases hfind : streams.find? (·.owner = e.1.owner) with
        | none =>
          have hnone := List.find?_eq_none.mp hfind s hs
          simp [howner] at hnone
        | some t =>
          have ht : t.owner = e.1.owner := by simpa using find?_some hfind
          rw [inj_on_of_nodup_map h.owners (mem_of_find?_eq_some hfind) hs (ht.trans howner)]
      rw [hfind, howner]
      exact he

end Codexon.Speed
