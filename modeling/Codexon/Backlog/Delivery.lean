import Mathlib.Algebra.Order.Ring.Int
import Codexon.Backlog

/-!
# Codexon.Backlog.Delivery

The backlog delivers every admitted value once `first` has returned it, in
order, over every interleaving of the service thread with appending threads
and every choice of failing disk operations.

The values a backlog holds form one queue: the durable rows, then the unsaved
entry (`State.values`).  `append` adds at its end and `acknowledge` removes its
head; the entry `first` returned stays that head until it is acknowledged,
because an occupied unsaved slot admits nothing (`Delivery.held`).
-/

namespace Codexon.Backlog

open List

variable {V : Type}

namespace State

/-- What a call of the service finds durable: increasing sequences below the
counter, a budget that counts the rows, and no more rows than the limit. -/
structure Durable (s : State) : Prop where
  sorted : (s.pending.map (·.seq)).Pairwise (· < ·)
  counter : ∀ row ∈ s.pending, row.seq ≤ s.lastSeq
  items : s.items = s.pending.length
  bytes : s.bytes = (s.pending.map (·.data.length)).sum
  bound : s.pending.length ≤ maxItems + controlReserve

/-- The held values, oldest first, as `first` decodes them. -/
def values (decode : List UInt8 → V) (s : State) : List (Kind × V) :=
  s.pending.map (fun row => (row.kind, decode row.data)) ++
    s.unsaved.toList.map fun (kind, data) => (kind, decode data)

theorem empty_durable : ({} : State).Durable where
  sorted := by simp
  counter := by simp
  items := rfl
  bytes := rfl
  bound := by simp

/-! ## storing and flushing -/

theorem store_eq {s s' : State} {kind : Kind} {encoded : List UInt8} {disk : Bool}
    (h : s.store kind encoded disk = .ok s') :
    s'.pending = s.pending ++ [⟨s.lastSeq + 1, kind, encoded⟩] ∧
      s'.unsaved = s.unsaved ∧ (s.Durable → s'.Durable) := by
  unfold store at h
  split at h
  · cases h
  split at h
  · cases h
  next hroom =>
  cases h
  refine ⟨rfl, rfl, fun hs => ?_⟩
  simp only [not_or, not_le, not_lt] at hroom
  refine
    { sorted := ?_
      counter := fun row hrow => ?_
      items := by simp [hs.items]
      bytes := by simp [hs.bytes]
      bound := ?_ }
  · simp only [map_append, map_cons, map_nil, pairwise_append]
    refine ⟨hs.sorted, pairwise_singleton _ _, fun a ha b hb => ?_⟩
    obtain ⟨row, hrow, rfl⟩ := List.mem_map.mp ha
    obtain rfl : b = s.lastSeq + 1 := by simpa using hb
    exact Nat.lt_succ_of_le (hs.counter row hrow)
  · rcases mem_append.mp hrow with hrow | hrow
    · exact Nat.le_succ_of_le (hs.counter row hrow)
    · obtain rfl := mem_singleton.mp hrow
      exact Nat.le_refl _
  · have hlt := hroom.1
    rw [hs.items] at hlt
    have hreserve : reserve kind ≤ controlReserve := by
      cases kind <;> simp [reserve, controlReserve]
    simp only [length_append, length_singleton]
    omega

theorem flush_eq (decode : List UInt8 → V) {s : State} (hs : s.Durable) (disk : Bool) :
    (s.flush disk).2.Durable ∧ (s.flush disk).2.values decode = s.values decode := by
  unfold flush
  split
  · exact ⟨hs, rfl⟩
  · next kind encoded hunsaved =>
    split
    · exact ⟨⟨hs.sorted, hs.counter, hs.items, hs.bytes, hs.bound⟩, rfl⟩
    · next s' hstore =>
      obtain ⟨hpending, -, hdurable⟩ := store_eq hstore
      have hd := hdurable hs
      refine ⟨⟨hd.sorted, hd.counter, hd.items, hd.bytes, hd.bound⟩, ?_⟩
      simp [values, hpending, hunsaved]

theorem reserveFetch_eq (decode : List UInt8 → V) {s : State} (hs : s.Durable) (disk disk' : Bool) :
    (s.reserveFetch disk disk').2.Durable ∧
      (s.reserveFetch disk disk').2.values decode = s.values decode := by
  have hflush := flush_eq decode hs disk
  unfold reserveFetch available
  split
  · exact ⟨hs, rfl⟩
  generalize hf : s.flush disk = result at hflush
  obtain ⟨done, s'⟩ := result
  obtain ⟨hd, hvalues⟩ := hflush
  have hkeep (issue : Issue) (reserved : Bool) :
      ({ s' with issue, fetchReserved := reserved } : State).Durable :=
    ⟨hd.sorted, hd.counter, hd.items, hd.bytes, hd.bound⟩
  cases done with
  | false => exact ⟨hd, hvalues⟩
  | true =>
    dsimp only
    split
    · next heq =>
      split at heq
      · cases heq; exact ⟨hkeep _ _, hvalues⟩
      · split at heq
        · cases heq; exact ⟨hkeep _ _, hvalues⟩
        · cases heq
    · next heq =>
      split at heq
      · cases heq
      · split at heq
        · cases heq
        · cases heq; exact ⟨hkeep _ _, hvalues⟩

/-! ## appending -/

/-- **Spec of `append`**: a taken value joins the end of the queue, a refused
one changes nothing.  While the unsaved slot is occupied nothing is taken. -/
theorem append_eq (encode : V → List UInt8) (decode : List UInt8 → V) {s : State}
    (hs : s.Durable) (kind : Kind) (value : V) (disk : Bool) :
    let result := s.append encode kind value disk
    result.2.Durable ∧
      result.2.values decode =
        s.values decode ++ (if result.1 then [(kind, decode (encode value))] else []) ∧
      (s.unsaved.isSome → result.1 = false) ∧
      s.pending <+: result.2.pending ∧
      (s.unsaved.isSome → result.2.unsaved = s.unsaved ∧ result.2.pending = s.pending) := by
  intro result
  -- Clearing the reservation touches neither table nor slot.
  obtain ⟨s₁, hs₁⟩ : ∃ s₁ : State,
      s₁ = if kind.fetched then { s with fetchReserved := false } else s := ⟨_, rfl⟩
  have hsame : s₁.pending = s.pending ∧ s₁.unsaved = s.unsaved ∧ s₁.Durable := by
    rw [hs₁]
    split
    · exact ⟨rfl, rfl, hs.sorted, hs.counter, hs.items, hs.bytes, hs.bound⟩
    · exact ⟨rfl, rfl, hs⟩
  obtain ⟨hpending, hunsaved, hd⟩ := hsame
  have hvalues : s₁.values decode = s.values decode := by simp [values, hpending, hunsaved]
  have hresult : result = s.append encode kind value disk := rfl
  simp only [append, ← hs₁] at hresult
  have hkeep (issue : Issue) (slot : Option (Kind × List UInt8)) :
      ({ s₁ with issue, unsaved := slot } : State).Durable :=
    ⟨hd.sorted, hd.counter, hd.items, hd.bytes, hd.bound⟩
  split at hresult
  · next hfull =>
    rw [hresult]
    exact ⟨hd, by simp [hvalues], fun _ => rfl, hpending ▸ prefix_refl _, fun _ => ⟨hunsaved, hpending⟩⟩
  next hfree =>
  have hnone : s₁.unsaved = none := by simpa using hfree
  have hsnone : s.unsaved = none := hunsaved ▸ hnone
  split at hresult
  · next s' hstore =>
    obtain ⟨hpending', hunsaved', hdurable⟩ := store_eq hstore
    rw [hresult]
    refine ⟨hdurable hd, ?_, by simp [hsnone], ?_, by simp [hsnone]⟩
    · simp [values, hpending', hunsaved', hnone, hpending, hsnone]
    · rw [hpending', hpending]; exact prefix_append _ _
  · split at hresult
    · rw [hresult]
      refine ⟨⟨hd.sorted, hd.counter, hd.items, hd.bytes, hd.bound⟩, ?_, fun _ => rfl,
        hpending ▸ prefix_refl _, by simp [hsnone]⟩
      simpa [values] using hvalues
    · rw [hresult]
      refine ⟨hkeep _ _, ?_, by simp [hsnone], hpending ▸ prefix_refl _, by simp [hsnone]⟩
      simp [values, hpending, hsnone]
  · rw [hresult]
    refine ⟨hkeep _ _, ?_, by simp [hsnone], hpending ▸ prefix_refl _, by simp [hsnone]⟩
    simp [values, hpending, hsnone]

/-! ## removing -/

/-- The entry is the head of the queue, in the table or in the slot. -/
def Heads (decode : List UInt8 → V) (s : State) (entry : Option Nat × Kind × V) : Prop :=
  match entry.1 with
  | some seq => ∃ row rest, s.pending = row :: rest ∧ row.seq = seq ∧
      entry.2 = (row.kind, decode row.data)
  | none => s.pending = [] ∧ ∃ kind data, s.unsaved = some (kind, data) ∧
      entry.2 = (kind, decode data)

theorem first_heads {decode : List UInt8 → V} {s : State} {disk : Bool}
    {entry : Option Nat × Kind × V} (h : s.first decode disk = .ok (some entry)) :
    s.Heads decode entry := by
  unfold first at h
  split at h
  · cases h
  split at h
  · next row rest hpending => cases h; exact ⟨row, rest, hpending, rfl, rfl⟩
  · next kind data hpending hunsaved => cases h; exact ⟨hpending, kind, data, hunsaved, rfl⟩
  · cases h

/-- **Spec of `acknowledge`** on the entry that heads the queue: exactly this
value is removed. -/
theorem acknowledge_eq {decode : List UInt8 → V} {s s' : State} (hs : s.Durable)
    {entry : Option Nat × Kind × V} (hhead : s.Heads decode entry) {disk : Bool}
    (h : s.acknowledge entry.1 disk = .ok s') :
    s'.Durable ∧ s.values decode = entry.2 :: s'.values decode := by
  obtain ⟨sequence, value⟩ := entry
  cases sequence with
  | none =>
    obtain ⟨hpending, kind, data, hunsaved, hvalue⟩ := hhead
    cases h
    refine ⟨⟨hs.sorted, hs.counter, hs.items, hs.bytes, hs.bound⟩, ?_⟩
    simp only at hvalue
    simp [values, hpending, hunsaved, hvalue]
  | some seq =>
    obtain ⟨row, rest, hpending, hseq, hvalue⟩ := hhead
    simp only [acknowledge] at h
    split at h
    · cases h
    -- Later rows have larger sequences, so the key removes the head only.
    have hsorted := hs.sorted
    rw [hpending, map_cons, pairwise_cons] at hsorted
    have hrest : ∀ r ∈ rest, r.seq ≠ seq := fun r hr heq => by
      have := hsorted.1 r.seq (mem_map_of_mem hr)
      omega
    have hkept : s.pending.filter (·.seq ≠ seq) = rest := by
      rw [hpending, filter_cons_of_neg (by simp [hseq]),
        filter_eq_self.mpr fun r hr => by simpa using hrest r hr]
    have hremoved : s.pending.filter (·.seq = seq) = [row] := by
      rw [hpending, filter_cons_of_pos (by simp [hseq]),
        filter_eq_nil_iff.mpr fun r hr => by simpa using hrest r hr]
    simp only [hkept, hremoved] at h
    cases h
    refine ⟨?_, ?_⟩
    · have hlen := hs.bound
      have hitems := hs.items
      have hbytes := hs.bytes
      rw [hpending] at hlen hitems hbytes
      exact
        { sorted := hsorted.2
          counter := fun r hr => hs.counter r (by rw [hpending]; exact mem_cons_of_mem _ hr)
          items := by simp [hitems]
          bytes := by simp [hbytes]
          bound := Nat.le_of_succ_le hlen }
    · simp only at hvalue
      simp [values, hpending, hvalue]

end State

/-! ## runs -/

/-- One atomic call.  `append` comes from any thread, the other calls from the
service thread; `abandon` is a service that failed to save what `first`
returned and will ask again. -/
inductive Call (V : Type) where
  | append (kind : Kind) (value : V) (disk : Bool)
  | reserveFetch (disk disk' : Bool)
  | cancelFetch
  | first (disk : Bool)
  | acknowledge (disk : Bool)
  | abandon

/-- A run so far: the backlog, the entry the service is saving, and the values
admitted by `append`, returned by `first` and acknowledged. -/
structure Delivery (V : Type) where
  state : State
  held : Option (Option Nat × Kind × V) := none
  admitted : List (Kind × V) := []
  returned : List (Kind × V) := []
  acknowledged : List (Kind × V) := []

section

variable (encode : V → List UInt8) (decode : List UInt8 → V)

/-- One call of a run.  Between `first` and its end the service makes no other
call than `acknowledge` of what it holds. -/
def Delivery.step (h : Delivery V) : Call V → Delivery V
  | .append kind value disk =>
    let (taken, state) := h.state.append encode kind value disk
    { h with state, admitted := if taken then h.admitted ++ [(kind, value)] else h.admitted }
  | .reserveFetch disk disk' =>
    if h.held.isSome then h else { h with state := (h.state.reserveFetch disk disk').2 }
  | .cancelFetch => if h.held.isSome then h else { h with state := h.state.cancelFetch }
  | .first disk =>
    if h.held.isSome then h
    else match h.state.first decode disk with
      | .ok (some entry) => { h with held := some entry, returned := h.returned ++ [entry.2] }
      | _ => h
  | .acknowledge disk => match h.held with
      | none => h
      | some entry => match h.state.acknowledge entry.1 disk with
          | .ok state =>
            { h with state, held := none, acknowledged := h.acknowledged ++ [entry.2] }
          | .error _ => { h with held := none }
  | .abandon => { h with held := none }

/-- The invariant of a run that began with the values `before`. -/
structure Delivery.Accounts (before : List (Kind × V)) (h : Delivery V) : Prop where
  durable : h.state.Durable
  queue : before ++ h.admitted.map (fun (kind, value) => (kind, decode (encode value))) =
    h.acknowledged ++ h.state.values decode
  held : ∀ entry ∈ h.held, h.state.Heads decode entry
  returned : (h.acknowledged ++ h.held.toList.map (·.2)).Sublist h.returned

variable {encode decode}

theorem heads_append {s : State} (hs : s.Durable) {entry : Option Nat × Kind × V}
    (h : s.Heads decode entry) (kind : Kind) (value : V) (disk : Bool) :
    (s.append encode kind value disk).2.Heads decode entry := by
  obtain ⟨-, -, -, hprefix, hslot⟩ := State.append_eq encode decode hs kind value disk
  obtain ⟨sequence, v⟩ := entry
  cases sequence with
  | some seq =>
    obtain ⟨row, rest, hpending, hseq⟩ := h
    obtain ⟨more, hmore⟩ := hprefix
    exact ⟨row, rest ++ more, by rw [← hmore, hpending]; rfl, hseq⟩
  | none =>
    obtain ⟨hpending, kind', data, hunsaved, hv⟩ := h
    obtain ⟨hkeep, hkeep'⟩ := hslot (by rw [hunsaved]; rfl)
    exact ⟨hkeep'.trans hpending, kind', data, hkeep.trans hunsaved, hv⟩

/-- **Step lemma**: every call keeps the accounts. -/
theorem Delivery.Accounts.step {before : List (Kind × V)} {h : Delivery V}
    (hh : h.Accounts encode decode before) (c : Call V) :
    (h.step encode decode c).Accounts encode decode before := by
  cases c with
  | append kind value disk =>
    obtain ⟨hdurable, hvalues, -⟩ := State.append_eq encode decode hh.durable kind value disk
    refine
      { durable := hdurable
        queue := ?_
        held := fun entry he => heads_append hh.durable (hh.held entry he) kind value disk
        returned := hh.returned }
    simp only [Delivery.step, hvalues, ← append_assoc, ← hh.queue]
    split <;> simp
  | reserveFetch disk disk' =>
    simp only [Delivery.step]
    split
    · exact hh
    · next hheld =>
      obtain ⟨hdurable, hvalues⟩ := State.reserveFetch_eq decode hh.durable disk disk'
      have hnone : h.held = none := by simpa using hheld
      exact ⟨hdurable, by rw [hvalues]; exact hh.queue, by simp [hnone], hh.returned⟩
  | cancelFetch =>
    simp only [Delivery.step]
    split
    · exact hh
    · exact ⟨⟨hh.durable.sorted, hh.durable.counter, hh.durable.items, hh.durable.bytes,
        hh.durable.bound⟩, hh.queue, hh.held, hh.returned⟩
  | first disk =>
    simp only [Delivery.step]
    split
    · exact hh
    next hheld =>
    split
    · next entry hfirst =>
      have hnone : h.held = none := by simpa using hheld
      refine ⟨hh.durable, hh.queue, fun e he => ?_, ?_⟩
      · obtain rfl : entry = e := by simpa using he
        exact State.first_heads hfirst
      · have := hh.returned
        rw [hnone] at this
        simpa using this.append (List.Sublist.refl [entry.2])
    · exact hh
  | acknowledge disk =>
    cases hheld : h.held with
    | none => simpa only [Delivery.step, hheld] using hh
    | some entry =>
      have hdrop : h.acknowledged.Sublist h.returned :=
        (sublist_append_left _ _).trans hh.returned
      cases hack : h.state.acknowledge entry.1 disk with
      | error e =>
        simp only [Delivery.step, hheld, hack]
        exact ⟨hh.durable, hh.queue, by simp, by simpa using hdrop⟩
      | ok s' =>
        simp only [Delivery.step, hheld, hack]
        obtain ⟨hdurable, hvalues⟩ :=
          State.acknowledge_eq hh.durable (hh.held entry hheld) hack
        refine ⟨hdurable, ?_, by simp, ?_⟩
        · rw [hh.queue, hvalues]; simp
        · simpa [hheld] using hh.returned
  | abandon =>
    exact ⟨hh.durable, hh.queue, by simp [Delivery.step],
      by simpa [Delivery.step] using (sublist_append_left _ _).trans hh.returned⟩

end

/-- **No admitted value is lost or reordered.**  After any interleaving of
calls on a backlog that held the values `start.values`:

* these values and the admitted ones, in order of admission, are exactly the
  acknowledged ones followed by the ones still held;
* every acknowledged value had been returned by `first`, in that order;
* the table stays within its limit and the budget counts it. -/
theorem delivery (encode : V → List UInt8) (decode : List UInt8 → V) (start : State)
    (hstart : start.Durable) (calls : List (Call V)) :
    let h := run (Delivery.step encode decode) { state := start } calls
    start.values decode ++ h.admitted.map (fun (kind, value) => (kind, decode (encode value))) =
        h.acknowledged ++ h.state.values decode ∧
      h.acknowledged.Sublist h.returned ∧
      h.state.pending.length ≤ maxItems + controlReserve ∧
      h.state.items = h.state.pending.length ∧
      h.state.bytes = (h.state.pending.map (·.data.length)).sum := by
  intro h
  have hinit : (Delivery.mk start none [] [] []).Accounts encode decode (start.values decode) :=
    ⟨hstart, by simp, by simp, by simp⟩
  have haccounts : h.Accounts encode decode (start.values decode) :=
    run_inv (I := Delivery.Accounts encode decode (start.values decode))
      (fun _ c hh => hh.step c) hinit calls
  exact ⟨haccounts.queue, (sublist_append_left _ _).trans haccounts.returned,
    haccounts.durable.bound, haccounts.durable.items, haccounts.durable.bytes⟩

/-- A fetch whose store fails waits in the slot while another thread's append
is refused, and leaves after the row before it. -/
theorem delivery_slot :
    let calls : List (Call (List UInt8)) := [.append .control [1] true, .reserveFetch true true,
      .append .quota [2] false, .append .local [3] true, .first true, .acknowledge true,
      .first true, .acknowledge true]
    let h := run (Delivery.step id id) { state := {} } calls
    h.admitted = [(.control, [1]), (.quota, [2])] ∧
      h.admitted = h.acknowledged ++ h.state.values id ∧
      h.acknowledged = [(.control, [1]), (.quota, [2])] := by
  intro calls h
  refine ⟨by decide +kernel, ?_, by decide +kernel⟩
  have hqueue := (delivery id id {} State.empty_durable calls).1
  simpa [State.values] using hqueue

end Codexon.Backlog
