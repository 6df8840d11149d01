import Codexon.DictMerge
import Codexon.GraphTransfer.Visiting

/-!
# Codexon.GraphTransfer.Loading

What the receiver has after a frame: an object for each container that was pickled in
place, and for each reference as many entries as were sent.
-/

namespace Codexon.GraphTransfer

open List

variable {eq : Scalar → Scalar → Bool} {g : Graph eq}

/-! ## frames -/

/-- The references of the receiver mirror those of the pickler; `todo` is what is left to
send, and `place` says where containers are. -/
structure Mirror (g : Graph eq) (place : Nat → Loc) (r : Receiver) (p : Pickler)
    (todo : List Active) : Prop where
  refs : ∀ (i n : Nat), p.refs[i]? = some n → ∃ ref, r.references.get? i = some ref ∧
    ref.kind = (g.node n).kind ∧ ref.count = (g.node n).entries.length ∧
      ref.received ≤ ref.count ∧
      ref.entries = ((g.node n).entries.take ref.received).map (Entry.map place) ∧
      ∀ e ∈ (g.node n).entries.take ref.received, ∀ m ∈ e.nodes, Known g p m
  fresh : ∀ i, p.refs.length ≤ i → r.references.get? i = none
  number : r.references.entries.length = p.refs.length
  completed : (r.completed : Int) =
    r.references.sumVal fun ref => if ref.received = ref.count then 1 else 0
  tracked : ∀ a ∈ todo, ∃ n ref, p.refs[a.number]? = some n ∧
    r.references.get? a.number = some ref ∧ ref.received = a.offset ∧
      a.entries = (g.node n).entries.drop a.offset
  distinct : (todo.map Active.number).Nodup
  settled : ∀ i ref, r.references.get? i = some ref →
    ref.received = ref.count ∨ i ∈ todo.map Active.number

variable {place : Nat → Loc} {r : Receiver} {p : Pickler} {todo : List Active}

variable {p' : Pickler}

theorem Mirror.extends (h : Mirror g place r p todo) (hext : Extends p p')
    (hrefs : p'.refs = p.refs) : Mirror g place r p' todo where
  refs i n hn := by
    obtain ⟨ref, hget, hkind, hcount, hle, hentries, hknown⟩ := h.refs i n (hrefs ▸ hn)
    exact ⟨ref, hget, hkind, hcount, hle, hentries,
      fun e he m hm => (hknown e he m hm).extends hext⟩
  fresh i hi := h.fresh i (hrefs ▸ hi)
  number := hrefs ▸ h.number
  completed := h.completed
  tracked a ha := hrefs ▸ h.tracked a ha
  distinct := h.distinct
  settled := h.settled

end Codexon.GraphTransfer
