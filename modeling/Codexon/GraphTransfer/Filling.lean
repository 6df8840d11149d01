import Codexon.GraphTransfer.Loading
import Mathlib.Algebra.Order.BigOperators.Group.List

/-!
# Codexon.GraphTransfer.Filling

The records of a fill frame continue what has arrived: the receiver accepts them, and its
containers have the entries up to the offset of the sender.
-/

namespace Codexon

open List

namespace GraphTransfer

variable {eq : Scalar → Scalar → Bool} {g : Graph eq}

/-! ## keys -/

mutual

/-- Different containers stay different, so that keys compare as before. -/
theorem same_map {α β : Type} [DecidableEq α] [DecidableEq β] {f : α → β} : ∀ v u : Value α,
    (∀ a ∈ v.nodes, ∀ b ∈ u.nodes, f a = f b → a = b) →
      (v.map f).same eq (u.map f) = v.same eq u
  | .scalar _, .scalar _, _ => rfl
  | .scalar _, .tuple _, _ => rfl
  | .scalar _, .node _, _ => rfl
  | .tuple _, .scalar _, _ => rfl
  | .tuple items, .tuple others, hinj => sameAll_map items others hinj
  | .tuple _, .node _, _ => rfl
  | .node _, .scalar _, _ => rfl
  | .node _, .tuple _, _ => rfl
  | .node a, .node b, hinj => by
    have hab : f a = f b ↔ a = b := ⟨hinj a (by simp [Value.nodes]) b (by simp [Value.nodes]),
      congrArg f⟩
    simp only [Value.map, Value.same, hab]

theorem sameAll_map {α β : Type} [DecidableEq α] [DecidableEq β] {f : α → β} :
    ∀ vs us : List (Value α),
      (∀ a ∈ Value.nodesAll vs, ∀ b ∈ Value.nodesAll us, f a = f b → a = b) →
        Value.sameAll eq (Value.mapAll f vs) (Value.mapAll f us) = Value.sameAll eq vs us
  | [], [], _ => rfl
  | [], _ :: _, _ => rfl
  | _ :: _, [], _ => rfl
  | v :: vs, u :: us, hinj => by
    simp only [Value.nodesAll, mem_append] at hinj
    simp only [Value.mapAll, Value.sameAll,
      same_map v u fun a ha b hb => hinj a (.inl ha) b (.inl hb),
      sameAll_map vs us fun a ha b hb => hinj a (.inr ha) b (.inr hb)]

end

theorem before_map {f : Nat → Loc} {e e' : Entry Nat}
    (hinj : ∀ a ∈ e.nodes, ∀ b ∈ e'.nodes, f a = f b → a = b) (h : e.Before eq e') :
    (e.map f).Before eq (e'.map f) := by
  cases e <;> cases e' <;> simp only [Entry.map, Entry.Before] at h ⊢
  · next k v k' v' =>
    rw [same_map k k' fun a ha b hb => hinj a (by simp [Entry.nodes, Entry.parts, ha]) b
      (by simp [Entry.nodes, Entry.parts, hb])]
    exact h
  · exact h

/-! ## one container -/

theorem node_of_graph (g : Graph eq) (n : Nat) : g.node n ∈ g.nodes ∨ g.node n = {} := by
  rw [Graph.node, getD_eq_getElem?_getD]
  cases h : g.nodes[n]? with
  | none => exact .inr rfl
  | some node => exact .inl (mem_of_getElem? h)

theorem node_fits (g : Graph eq) (n : Nat) : ∀ e ∈ (g.node n).entries, e.fits (g.node n).kind := by
  rcases node_of_graph g n with h | h
  · exact g.fits _ h
  · simp [h]

theorem node_ordered (g : Graph eq) (n : Nat) : (g.node n).entries.Pairwise (Entry.Before eq) := by
  rcases node_of_graph g n with h | h
  · exact g.ordered _ h
  · simp [h]

theorem node_positive (g : Graph eq) (n : Nat) : ∀ stop data,
    Entry.block stop data ∈ (g.node n).entries → 0 < stop := by
  rcases node_of_graph g n with h | h
  · exact g.positive _ h
  · simp [h]

variable {es : List (Entry Loc)}

theorem setItem_new {k v : Value Loc}
    (hnew : ∀ e ∈ es, e.Before eq (.pair k v)) : setItem eq k v es = es ++ [.pair k v] := by
  induction es with
  | nil => rfl
  | cons e es ih =>
    have hrest := ih fun e he => hnew e (mem_cons_of_mem _ he)
    have hhead := hnew e mem_cons_self
    cases e <;> simp_all [setItem, Entry.Before]

theorem rowCount_lt {stop : Nat} {data : Bytes} (hpos : 0 < stop)
    (hbefore : ∀ e ∈ es, e.Before eq (.block stop data)) : rowCount es < stop := by
  unfold rowCount
  split
  · next last _ hlast => exact hbefore _ (mem_of_getLast? hlast)
  · exact hpos

theorem addItem_ok {kind : Kind} {e : Entry Loc} (hfits : e.fits kind)
    (hpos : ∀ stop data, e = .block stop data → 0 < stop) (hbefore : ∀ e' ∈ es, e'.Before eq e) :
    addItem eq kind es e = .ok (es ++ [e]) := by
  cases kind <;> cases e <;> simp only [Entry.fits] at hfits
  · rfl
  · simp only [addItem, setItem_new hbefore]
  · next stop data =>
    have hlt := rowCount_lt (hpos stop data rfl) hbefore
    simp only [addItem, if_neg (Nat.not_le.mpr hlt)]

theorem addItems_ok {kind : Kind} {items : List (Entry Loc)} (hfits : ∀ e ∈ items, e.fits kind)
    (hpos : ∀ stop data, Entry.block stop data ∈ items → 0 < stop)
    (hordered : (es ++ items).Pairwise (Entry.Before eq)) :
    items.foldlM (addItem eq kind) es = .ok (es ++ items) := by
  induction items generalizing es with
  | nil => simp [pure, Except.pure]
  | cons e items ih =>
    have hbefore : ∀ e' ∈ es, e'.Before eq e := fun e' he' =>
      (pairwise_append.mp hordered).2.2 e' he' e mem_cons_self
    have hone := addItem_ok (hfits e mem_cons_self)
      (fun stop data he => hpos stop data (he ▸ mem_cons_self)) hbefore
    have hrest := @ih (es ++ [e]) (fun e' he' => hfits e' (mem_cons_of_mem e he'))
      (fun stop data he => hpos stop data (mem_cons_of_mem e he)) (by simpa using hordered)
    rw [foldlM_cons, hone]
    exact hrest.trans (by simp)

theorem fits_map {f : Nat → Loc} {kind : Kind} {e : Entry Nat} (h : e.fits kind) :
    (e.map f).fits kind := by
  cases kind <;> cases e <;> simp_all [Entry.fits, Entry.map]

theorem addItems_next {P : Pickler} {n k l : Nat}
    (hknown : ∀ e ∈ (g.node n).entries.take (k + l), ∀ m ∈ e.nodes, Known g P m) :
    ((((g.node n).entries.drop k).take l).map (Entry.map (locOf g P))).foldlM
        (addItem eq (g.node n).kind) (((g.node n).entries.take k).map (Entry.map (locOf g P))) =
      .ok (((g.node n).entries.take (k + l)).map (Entry.map (locOf g P))) := by
  rw [addItems_ok, ← map_append, ← take_add]
  · intro e he
    obtain ⟨e, hmem, rfl⟩ := List.mem_map.mp he
    exact fits_map (node_fits g n e (mem_of_mem_drop (mem_of_mem_take hmem)))
  · intro stop data he
    obtain ⟨e, hmem, heq⟩ := List.mem_map.mp he
    cases e <;> simp only [Entry.map, Entry.block.injEq, reduceCtorEq] at heq
    obtain ⟨rfl, rfl⟩ := heq
    exact node_positive g n _ _ (mem_of_mem_drop (mem_of_mem_take hmem))
  · rw [← map_append, ← take_add, pairwise_map]
    refine ((node_ordered g n).sublist (take_sublist _ _)).imp_of_mem fun ha hb h => ?_
    exact before_map (fun a hm b _ hab => locOf_inj (hknown _ ha a hm) hab) h

/-! ## records -/

/-- What a fill frame takes from the containers that are not sent completely. -/
inductive Sent : List Active → List (Record Nat) → List Active → Prop where
  | stop (todo : List Active) : Sent todo [] todo
  | drop {a : Active} {todo left : List Active} {records : List (Record Nat)}
      (hempty : a.entries = []) (h : Sent todo records left) : Sent (a :: todo) records left
  | record {a : Active} {todo left : List Active} {records : List (Record Nat)}
      {items rest : List (Entry Nat)} (hitems : items ≠ []) (hentries : a.entries = items ++ rest)
      (h : Sent (⟨a.number, rest, a.offset + items.length⟩ :: todo) records left) :
      Sent (a :: todo) (⟨a.number, a.offset, items⟩ :: records) left

theorem Sent.append {todo left : List Active} {records : List (Record Nat)}
    (h : Sent todo records left) (more : List Active) :
    Sent (todo ++ more) records (left ++ more) := by
  induction h with
  | stop todo => exact .stop _
  | drop hempty _ ih => exact .drop hempty ih
  | record hitems hentries _ ih => exact .record hitems hentries ih

variable {r : Receiver} {p P : Pickler} {a : Active} {todo : List Active}

theorem Mirror.drop {place : Nat → Loc} (h : Mirror g place r p (a :: todo))
    (hempty : a.entries = []) : Mirror g place r p todo := by
  refine ⟨h.refs, h.fresh, h.number, h.completed,
    fun b hb => h.tracked b (mem_cons_of_mem a hb), (nodup_cons.mp h.distinct).2,
    fun i ref hget => ?_⟩
  rcases h.settled i ref hget with hdone | hmem
  · exact .inl hdone
  · rcases mem_cons.mp hmem with rfl | hmem
    · -- nothing is left behind its offset
      obtain ⟨n, ref', hn, hget', hreceived, hentries⟩ := h.tracked a mem_cons_self
      obtain rfl : ref = ref' := Option.some.inj (hget.symm.trans hget')
      obtain ⟨ref', hget', -, hcount, hle, -⟩ := h.refs a.number n hn
      obtain rfl : ref = ref' := Option.some.inj (hget.symm.trans hget')
      have hdrop := drop_eq_nil_iff.mp (hentries.symm.trans hempty)
      exact .inl (by omega)
    · exact .inr hmem

theorem Mirror.fill (h : Mirror g (locOf g P) r p (a :: todo)) (hext : Extends p P)
    {items rest : List (Entry Nat)} (hitems : items ≠ []) (hentries : a.entries = items ++ rest)
    (hknown : ∀ e ∈ items, ∀ m ∈ e.nodes, Known g p m) :
    ∃ r', fillRecord eq r ((⟨a.number, a.offset, items⟩ : Record Nat).map (locOf g P)) = .ok r' ∧
      Mirror g (locOf g P) r' p (⟨a.number, rest, a.offset + items.length⟩ :: todo) ∧
      r'.objects = r.objects ∧ r'.root = r.root := by
  obtain ⟨n, ref, hn, hget, hreceived, hdrop⟩ := h.tracked a mem_cons_self
  obtain ⟨ref', hget', hkind, hcount, hle, hold, hbefore⟩ := h.refs a.number n hn
  obtain rfl : ref = ref' := Option.some.inj (hget.symm.trans hget')
  -- the items are the next entries
  have hall : items ++ rest = (g.node n).entries.drop a.offset := hentries.symm.trans hdrop
  have hlength : items.length + rest.length = (g.node n).entries.length - a.offset := by
    rw [← length_append, hall, length_drop]
  have htake : ((g.node n).entries.drop a.offset).take items.length = items := by
    rw [← hall, take_left]
  have hpos : 0 < items.length := length_pos_of_ne_nil hitems
  have harrived : ∀ e ∈ (g.node n).entries.take (a.offset + items.length), ∀ m ∈ e.nodes,
      Known g p m := fun e he => by
    rw [take_add, htake] at he
    rcases mem_append.mp he with he | he
    · exact hbefore e (hreceived ▸ he)
    · exact hknown e he
  have hadd := addItems_next (P := P) (k := a.offset) (l := items.length) (n := n) (g := g)
    fun e he m hm => (harrived e he m hm).extends hext
  rw [htake, ← hreceived, ← hold, ← hkind] at hadd
  have hsum : a.offset + items.length ≤ ref.count := by omega
  have hfilled : (((g.node n).entries.take (ref.received + items.length)).map
      (Entry.map (locOf g P))).length = ref.received + items.length := by
    rw [length_map, length_take]
    omega
  have hfill : fillRecord eq r ((⟨a.number, a.offset, items⟩ : Record Nat).map (locOf g P)) =
      .ok { r with
        references := r.references.set a.number
          { ref with
            received := ref.received + items.length
            entries := ((g.node n).entries.take (ref.received + items.length)).map
              (Entry.map (locOf g P)) }
        completed := if ref.received + items.length = ref.count then r.completed + 1
          else r.completed } := by
    simp only [fillRecord, Record.map, hget, isEmpty_map, length_map, hadd]
    rw [if_neg (by simp [hitems, hreceived, hsum])]
    change (if _ then _ else _) = _
    rw [if_neg (by rintro ⟨hfull, hne⟩; exact hne (hfilled.trans hfull))]
    rfl
  have hothers : ∀ b ∈ todo, b.number ≠ a.number := fun b hb heq =>
    (nodup_cons.mp h.distinct).1 (List.mem_map.mpr ⟨b, hb, heq⟩)
  refine ⟨_, hfill, ⟨fun i m hm => ?_, fun i hi => ?_, ?_, ?_, fun b hb => ?_, h.distinct,
    fun i ref' href => ?_⟩, rfl, rfl⟩
  · simp only [Dict.get?_set]
    by_cases hi : i = a.number
    · obtain rfl : m = n := Option.some.inj (hm.symm.trans (hi ▸ hn))
      rw [if_pos hi]
      exact ⟨_, rfl, hkind, hcount, by simpa [hreceived] using hsum, rfl,
        by simpa [hreceived] using harrived⟩
    · rw [if_neg hi]
      exact h.refs i m hm
  · rw [Dict.get?_set, if_neg (fun heq => ?_)]
    · exact h.fresh i hi
    · have hlt := (List.getElem?_eq_some_iff.mp hn).1
      omega
  · simpa [Dict.length_set, hget] using h.number
  · rw [Dict.sumVal_set, ← h.completed, hget]
    have hbelow : ref.received ≠ ref.count := by omega
    by_cases hfull : ref.received + items.length = ref.count <;> simp [hfull, hbelow]
  · simp only [Dict.get?_set]
    rcases mem_cons.mp hb with rfl | hb
    · refine ⟨n, _, hn, if_pos rfl, by simp [hreceived], ?_⟩
      rw [← drop_drop, ← hall, drop_left]
    · rw [if_neg (hothers b hb)]
      exact h.tracked b (mem_cons_of_mem a hb)
  · simp only [Dict.get?_set] at href
    by_cases hi : i = a.number
    · exact .inr (by simp [hi])
    · rw [if_neg hi] at href
      exact h.settled i ref' href

end GraphTransfer

/-!
## sending

The loop of `frames`: a fill frame takes the next entries of the containers that are
pending, and every round takes some or drops a container, so that the loop ends.
-/

namespace GraphTransfer

variable {eq : Scalar → Scalar → Bool} {g : Graph eq}

/-! ## one frame -/

variable {left todo : List Active}

/-- What is left of the loop for the pending containers. -/
def work (todo : List Active) : Nat := (todo.map fun a => a.entries.length + 1).sum

/-- What a frame is made from, for a pickler that waits for `todo`. -/
def Pending (g : Graph eq) (p : Pickler) (todo : List Active) : Prop :=
  ∀ a ∈ todo, a.number < p.refs.length ∧
    ∃ n, a.entries = (g.node n).entries.drop a.offset ∧ a.offset ≤ (g.node n).entries.length

variable {p : Pickler}

theorem Sent.pending {records : List (Record Nat)}
    (h : Sent todo records left) (hpending : Pending g p todo) : Pending g p left := by
  induction h with
  | stop todo => exact hpending
  | drop hempty _ ih => exact ih fun a ha => hpending a (mem_cons_of_mem _ ha)
  | @record b todo left records items rest hitems hentries _ ih =>
    refine ih fun a ha => ?_
    rcases mem_cons.mp ha with rfl | ha
    · obtain ⟨hnumber, n, hdrop, hle⟩ := hpending b mem_cons_self
      have hall : items ++ rest = (g.node n).entries.drop b.offset := hentries.symm.trans hdrop
      have hlength := congrArg List.length hall
      rw [length_append, length_drop] at hlength
      exact ⟨hnumber, n, by rw [← drop_drop, ← hall, drop_left], by simp; omega⟩
    · exact hpending a (mem_cons_of_mem _ ha)

theorem Pending.extends {p' : Pickler} (h : Pending g p todo)
    (hext : Extends p p') : Pending g p' todo := fun a ha =>
  ⟨(h a ha).1.trans_le hext.refs.length_le, (h a ha).2⟩

/-- The rounds that the containers of references may take. -/
def total (g : Graph eq) (ns : List Nat) : Nat :=
  (ns.map fun n => (g.node n).entries.length + 1).sum

end GraphTransfer

end Codexon
