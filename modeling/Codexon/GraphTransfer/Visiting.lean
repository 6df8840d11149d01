import Codexon.GraphTransfer

/-!
# Codexon.GraphTransfer.Visiting

What `persistent_id` has answered when a frame is pickled: every container of the frame
has its reference or its place in the memo, and what is pickled in place is pickled
completely.
-/

namespace Codexon

open List

namespace GraphTransfer

/-! ## values -/

mutual

theorem nodes_map {α β : Type} (f : α → β) : ∀ v : Value α, (v.map f).nodes = v.nodes.map f
  | .scalar _ => rfl
  | .tuple items => nodesAll_mapAll f items
  | .node _ => rfl

theorem nodesAll_mapAll {α β : Type} (f : α → β) : ∀ vs : List (Value α),
    Value.nodesAll (Value.mapAll f vs) = (Value.nodesAll vs).map f
  | [] => rfl
  | v :: vs => by
    simp only [Value.mapAll, Value.nodesAll, map_append, nodes_map f v, nodesAll_mapAll f vs]

end

mutual

theorem map_map {α β γ : Type} (f : α → β) (h : β → γ) : ∀ v : Value α,
    (v.map f).map h = v.map (h ∘ f)
  | .scalar _ => rfl
  | .tuple items => by simp only [Value.map, mapAll_mapAll f h items]
  | .node _ => rfl

theorem mapAll_mapAll {α β γ : Type} (f : α → β) (h : β → γ) : ∀ vs : List (Value α),
    Value.mapAll h (Value.mapAll f vs) = Value.mapAll (h ∘ f) vs
  | [] => rfl
  | v :: vs => by simp only [Value.mapAll, map_map f h v, mapAll_mapAll f h vs]

end

mutual

theorem map_congr {α β : Type} {f h : α → β} : ∀ v : Value α, (∀ a ∈ v.nodes, f a = h a) →
    v.map f = v.map h
  | .scalar _, _ => rfl
  | .tuple items, heq => by simp only [Value.map, mapAll_congr items heq]
  | .node a, heq => by simp only [Value.map, heq a (by simp [Value.nodes])]

theorem mapAll_congr {α β : Type} {f h : α → β} : ∀ vs : List (Value α),
    (∀ a ∈ Value.nodesAll vs, f a = h a) → Value.mapAll f vs = Value.mapAll h vs
  | [], _ => rfl
  | v :: vs, heq => by
    simp only [Value.nodesAll, mem_append] at heq
    simp only [Value.mapAll, map_congr v fun a ha => heq a (.inl ha),
      mapAll_congr vs fun a ha => heq a (.inr ha)]

end

variable {eq : Scalar → Scalar → Bool} {g : Graph eq}

mutual

theorem scalarWeight_nodes {α : Type} : ∀ (depth : Nat) (v : Value α) (w : Nat),
    scalarWeight depth v = some w → v.nodes = []
  | _, .scalar _, _, _ => rfl
  | depth, .tuple items, w, h => by
    simp only [scalarWeight] at h
    split at h
    · obtain ⟨total, htotal, -⟩ := Option.map_eq_some_iff.mp h
      exact scalarWeights_nodes (depth + 1) items total htotal
    · cases h
  | _, .node _, _, h => by cases h

theorem scalarWeights_nodes {α : Type} : ∀ (depth : Nat) (vs : List (Value α)) (w : Nat),
    scalarWeights depth vs = some w → Value.nodesAll vs = []
  | _, [], _, _ => rfl
  | depth, v :: vs, w, h => by
    simp only [scalarWeights] at h
    split at h
    · next a b ha hb =>
      simp [Value.nodesAll, scalarWeight_nodes depth v a ha, scalarWeights_nodes depth vs b hb]
    · cases h

end

theorem inlineWeight_scalar {levels : Nat} {ancestors : List Nat} {v : Value Nat}
    (hv : ∀ n, v ≠ .node n) : inlineWeight g levels ancestors v = scalarWeight 0 v := by
  cases levels with
  | zero => rfl
  | succ levels =>
    cases v with
    | node n => exact absurd rfl (hv n)
    | scalar s => rfl
    | tuple items => rfl

/-- A value that is weighed holds no containers but itself. -/
theorem inlineWeight_nodes {levels : Nat} {ancestors : List Nat} {v : Value Nat} {w : Nat}
    (h : inlineWeight g levels ancestors v = some w) {m : Nat} (hm : m ∈ v.nodes) :
    v = .node m := by
  by_cases hv : ∃ n, v = .node n
  · obtain ⟨n, rfl⟩ := hv
    obtain rfl : m = n := by simpa [Value.nodes] using hm
    rfl
  · rw [inlineWeight_scalar fun n hn => hv ⟨n, hn⟩] at h
    rw [scalarWeight_nodes 0 v w h] at hm
    cases hm

theorem addWeights_mem {weigh : Value Nat → Option Nat} {vs : List (Value Nat)} :
    ∀ {total w : Nat}, addWeights weigh total vs = some w → ∀ v ∈ vs, (weigh v).isSome := by
  induction vs with
  | nil => simp
  | cons v vs ih =>
    intro total w h u hu
    simp only [addWeights] at h
    split at h
    · cases h
    · next a ha =>
      split at h
      · cases h
      · rcases mem_cons.mp hu with rfl | hu
        · simp [ha]
        · exact ih h u hu

theorem addWeights_mono {weigh weigh' : Value Nat → Option Nat} {vs : List (Value Nat)} :
    ∀ {total w : Nat}, (∀ v ∈ vs, ∀ a, weigh v = some a → weigh' v = some a) →
      addWeights weigh total vs = some w → addWeights weigh' total vs = some w := by
  induction vs with
  | nil => exact fun _ h => h
  | cons v vs ih =>
    intro total w hweigh h
    simp only [addWeights] at h ⊢
    split at h
    · cases h
    · next a ha =>
      rw [hweigh v mem_cons_self a ha]
      split at h
      · cases h
      · next hle =>
        simp only [hle, if_false]
        exact ih (fun u hu => hweigh u (mem_cons_of_mem v hu)) h

theorem inlineWeight_node {levels : Nat} {ancestors : List Nat} {n w : Nat}
    (h : inlineWeight g (levels + 1) ancestors (.node n) = some w) :
    (g.node n).kind ≠ .packed ∧ (g.node n).entries.length ≤ INLINE_ITEMS ∧ n ∉ ancestors ∧
      addWeights (inlineWeight g levels (n :: ancestors)) 32 (g.node n).parts = some w := by
  simp only [inlineWeight] at h
  split at h
  · cases h
  · next hc =>
    simp only [not_or, not_lt] at hc
    exact ⟨hc.1, hc.2.1, hc.2.2, h⟩

theorem inlineWeight_mono : ∀ {levels levels' : Nat} {ancestors ancestors' : List Nat}
    {v : Value Nat} {w : Nat}, levels ≤ levels' → ancestors' ⊆ ancestors →
      inlineWeight g levels ancestors v = some w →
        inlineWeight g levels' ancestors' v = some w := by
  intro levels
  induction levels with
  | zero =>
    intro levels' ancestors ancestors' v w _ _ h
    cases v with
    | node n => cases h
    | scalar s => rwa [inlineWeight_scalar (by simp)] at h ⊢
    | tuple items => rwa [inlineWeight_scalar (by simp)] at h ⊢
  | succ levels ih =>
    intro levels' ancestors ancestors' v w hle hsub h
    cases v with
    | scalar s => rwa [inlineWeight_scalar (by simp)] at h ⊢
    | tuple items => rwa [inlineWeight_scalar (by simp)] at h ⊢
    | node n =>
      obtain ⟨levels', rfl⟩ : ∃ k, levels' = k + 1 := ⟨levels' - 1, by omega⟩
      obtain ⟨hkind, hlength, hfresh, hadd⟩ := inlineWeight_node h
      have hnot : ¬ ((g.node n).kind = .packed ∨ INLINE_ITEMS < (g.node n).entries.length ∨
          n ∈ ancestors') := by
        rintro (hc | hc | hc)
        · exact hkind hc
        · omega
        · exact hfresh (hsub hc)
      simp only [inlineWeight, hnot, if_false]
      exact addWeights_mono
        (fun v _ a ha => ih (by omega) (cons_subset_cons n hsub) ha) hadd

theorem inlined_of_weight {levels : Nat} {ancestors : List Nat} {n w : Nat} (hle : levels ≤ 3)
    (h : inlineWeight g levels ancestors (.node n) = some w) : inlined g n = true := by
  unfold inlined weight
  rw [inlineWeight_mono hle (nil_subset ancestors) h]
  rfl

/-! ## visiting -/

/-- A later state of the pickler. -/
structure Extends (p p' : Pickler) : Prop where
  refs : p.refs <+: p'.refs
  memo : p.memo <+: p'.memo

theorem extends_refl (p : Pickler) : Extends p p := ⟨prefix_refl _, prefix_refl _⟩

theorem Extends.trans {p p' p'' : Pickler} (h : Extends p p') (h' : Extends p' p'') :
    Extends p p'' := ⟨h.refs.trans h'.refs, h.memo.trans h'.memo⟩

/-- References are for containers in batches, the memo for those in place. -/
structure Good (g : Graph eq) (p : Pickler) : Prop where
  refs : p.refs.Nodup
  memo : p.memo.Nodup
  away : ∀ n ∈ p.refs, inlined g n = false
  inside : ∀ n ∈ p.memo, inlined g n = true

def Known (g : Graph eq) (p : Pickler) (n : Nat) : Prop :=
  if inlined g n then n ∈ p.memo else n ∈ p.refs

theorem Known.extends {p p' : Pickler} {n : Nat} (h : Known g p n) (hext : Extends p p') :
    Known g p' n := by
  unfold Known at *
  split <;> simp_all
  · exact hext.memo.subset h
  · exact hext.refs.subset h

/-- What was pickled in place since `p` is pickled with all that is in it. -/
def Complete (g : Graph eq) (p p' : Pickler) : Prop :=
  ∀ n ∈ p'.memo, n ∉ p.memo → ∀ m ∈ (g.node n).nodes, m ∈ p'.memo

theorem complete_refl (p : Pickler) : Complete g p p := fun _ h h' => absurd h h'

theorem Complete.trans {p p' p'' : Pickler} (h : Complete g p p') (h' : Complete g p' p'')
    (hext : Extends p' p'') : Complete g p p'' := by
  intro n hn hnew m hm
  by_cases hmem : n ∈ p'.memo
  · exact hext.memo.subset (h n hmem hnew m hm)
  · exact h' n hn hmem m hm

/-- One or more containers were visited. -/
structure Visits (g : Graph eq) (p p' : Pickler) : Prop where
  extended : Extends p p'
  good : Good g p'
  complete : Complete g p p'

theorem Visits.trans {p p' p'' : Pickler} (h : Visits g p p') (h' : Visits g p' p'') :
    Visits g p p'' :=
  ⟨h.extended.trans h'.extended, h'.good, h.complete.trans h'.complete h'.extended⟩

theorem foldl_visits (step : Pickler → Nat → Pickler) (ns : List Nat) {P : Pickler → Nat → Prop}
    {Q : Pickler → Pickler → Prop} (hrefl : ∀ p, Q p p)
    (htrans : ∀ p p' p'', Q p p' → Q p' p'' → Q p p'')
    (hmono : ∀ p p' n, P p n → Extends p p' → P p' n)
    (hstep : ∀ p, Good g p → ∀ n ∈ ns, Visits g p (step p n) ∧ P (step p n) n ∧ Q p (step p n))
    {p : Pickler} (hgood : Good g p) :
    Visits g p (ns.foldl step p) ∧ (∀ n ∈ ns, P (ns.foldl step p) n) ∧ Q p (ns.foldl step p) := by
  induction ns generalizing p with
  | nil => exact ⟨⟨extends_refl p, hgood, complete_refl p⟩, by simp, hrefl p⟩
  | cons n ns ih =>
    obtain ⟨hfirst, hP, hQ⟩ := hstep p hgood n mem_cons_self
    obtain ⟨hrest, hall, hQ'⟩ :=
      ih (fun p hp m hm => hstep p hp m (mem_cons_of_mem n hm)) hfirst.good
    refine ⟨hfirst.trans hrest, fun m hm => ?_, htrans _ _ _ hQ hQ'⟩
    rcases mem_cons.mp hm with rfl | hm
    · exact hmono _ _ m hP hrest.extended
    · exact hall m hm

theorem good_memo {p : Pickler} (hgood : Good g p) {n : Nat} (hin : inlined g n = true)
    (hnew : n ∉ p.memo) : Good g { p with memo := p.memo ++ [n] } where
  refs := hgood.refs
  memo := nodup_append.mpr ⟨hgood.memo, nodup_singleton n, by
    rintro a ha b hb rfl
    exact hnew ((mem_singleton.mp hb) ▸ ha)⟩
  away := hgood.away
  inside m hm := by
    rcases mem_append.mp hm with hm | hm
    · exact hgood.inside m hm
    · rwa [mem_singleton.mp hm]

theorem visit_inlined : ∀ {levels : Nat} {ancestors : List Nat} {n w : Nat}, levels ≤ 3 →
    inlineWeight g levels ancestors (.node n) = some w → ∀ {p : Pickler}, Good g p →
      Visits g p (visit g levels p n) ∧ n ∈ (visit g levels p n).memo ∧
        (visit g levels p n).refs = p.refs := by
  intro levels
  induction levels with
  | zero => exact fun _ h => by cases h
  | succ levels ih =>
    intro ancestors n w hle hw p hgood
    have hin := inlined_of_weight hle hw
    obtain ⟨-, -, -, hadd⟩ := inlineWeight_node hw
    by_cases hmem : n ∈ p.memo
    · simp only [visit, hin, if_true, hmem]
      exact ⟨⟨extends_refl p, hgood, complete_refl p⟩, trivial, trivial⟩
    · simp only [visit, hin, if_true, hmem, if_false]
      -- every container in it is weighed with one level less
      have hinner : ∀ m ∈ (g.node n).nodes,
          ∃ a, inlineWeight g levels (n :: ancestors) (.node m) = some a := fun m hm => by
        obtain ⟨v, hv, hmv⟩ := mem_flatMap.mp hm
        obtain ⟨a, ha⟩ := Option.isSome_iff_exists.mp (addWeights_mem hadd v hv)
        exact ⟨a, inlineWeight_nodes ha hmv ▸ ha⟩
      obtain ⟨hvisits, hall, hrefs⟩ := foldl_visits (g := g) (visit g levels) (g.node n).nodes
        (P := fun q m => m ∈ q.memo) (Q := fun q q' => q'.refs = q.refs) (fun _ => rfl)
        (fun _ _ _ h h' => h'.trans h) (fun _ _ _ h hext => hext.memo.subset h)
        (fun q hq m hm => (hinner m hm).elim fun a ha => ih (by omega) ha hq)
        (good_memo hgood hin hmem)
      have hself : n ∈ p.memo ++ [n] := by simp
      refine ⟨⟨⟨⟨[], by rw [List.append_nil, hrefs]⟩,
        (prefix_append _ _).trans hvisits.extended.memo⟩,
        hvisits.good, fun k hk hnew m hm => ?_⟩, hvisits.extended.memo.subset hself, hrefs⟩
      by_cases hkn : k = n
      · exact hall m (hkn ▸ hm)
      · exact hvisits.complete k hk (by simp [hnew, hkn]) m hm

theorem visits_reference {p : Pickler} (hgood : Good g p) {n : Nat} (haway : inlined g n = false) :
    Visits g p (p.reference n) ∧ n ∈ (p.reference n).refs := by
  unfold Pickler.reference
  split
  · next hmem => exact ⟨⟨extends_refl p, hgood, complete_refl p⟩, hmem⟩
  · next hnew =>
    refine ⟨⟨⟨prefix_append _ _, prefix_refl _⟩, ⟨?_, hgood.memo, ?_, hgood.inside⟩,
      fun _ h h' => absurd h h'⟩, by simp⟩
    · refine nodup_append.mpr ⟨hgood.refs, nodup_singleton n, ?_⟩
      rintro a ha b hb rfl
      exact hnew ((mem_singleton.mp hb) ▸ ha)
    · intro m hm
      rcases mem_append.mp hm with hm | hm
      · exact hgood.away m hm
      · rwa [mem_singleton.mp hm]

theorem visit_spec {p : Pickler} (hgood : Good g p) (n : Nat) :
    Visits g p (visit g 3 p n) ∧ Known g (visit g 3 p n) n ∧ ((visit g 3 p n).refs = p.refs ∨
        inlined g n = false ∧ n ∉ p.refs ∧ (visit g 3 p n).refs = p.refs ++ [n]) := by
  cases hin : inlined g n with
  | true =>
    obtain ⟨w, hw⟩ := Option.isSome_iff_exists.mp hin
    obtain ⟨hvisits, hmem, hrefs⟩ := visit_inlined le_rfl hw hgood
    exact ⟨hvisits, by simpa [Known, hin] using hmem, .inl hrefs⟩
  | false =>
    obtain ⟨hvisits, hmem⟩ := visits_reference hgood hin
    have hvisit : visit g 3 p n = p.reference n := by simp [visit, hin]
    rw [hvisit]
    refine ⟨hvisits, by simpa [Known, hin] using hmem, ?_⟩
    unfold Pickler.reference
    by_cases hn : n ∈ p.refs
    · exact .inl (by rw [if_pos hn])
    · exact .inr ⟨rfl, hn, by rw [if_neg hn]⟩

/-- The place of a container at the receiver. -/
def locOf (g : Graph eq) (p : Pickler) (n : Nat) : Loc := (atomOf g p n).loc

theorem locOf_inj {p : Pickler} {n m : Nat} (hn : Known g p n)
    (heq : locOf g p n = locOf g p m) : n = m := by
  unfold Known at hn
  unfold locOf atomOf at heq
  cases hin : inlined g n <;> cases hin' : inlined g m <;> simp [hin, hin', Atom.loc] at heq hn
  · exact (idxOf_inj hn).mp heq
  · exact heq

end GraphTransfer

end Codexon
