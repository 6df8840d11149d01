import Codexon.GraphTransfer.Sizes

/-!
# Codexon.GraphTransfer.Lossless

A frame stays below `TARGET_FRAME_BYTES` in weight or has one item, so that no frame is too
long where the weights are right.
-/

namespace Codexon

open List

namespace GraphTransfer

variable {eq : Scalar → Scalar → Bool} {g : Graph eq}

/-! ## the weight of a frame -/

variable {b : Budget}

variable {p : Pickler}

def Numbered : Frame Nat → Prop
  | .fill records => ∀ record ∈ records, record.number < 2 ^ 63 ∧ record.offset < 2 ^ 63
  | _ => True

/-- The scalars and tuples that are pickled of a graph, packed blocks among them. -/
def Piece (g : Graph eq) (v : Value Nat) : Prop :=
  (v = g.root ∨ ∃ n, v ∈ (g.node n).parts) ∧ ∀ n, v ≠ .node n

variable {v : Value Nat}

def FromGraph (g : Graph eq) (records : List (Record Nat)) : Prop :=
  ∀ record ∈ records, ∀ e ∈ record.items, ∃ n, e ∈ (g.node n).entries

end GraphTransfer

/-!
## whole transfers

The transfer of a graph as a whole: what arrives is the graph, and graphs of small pieces
are sent.
-/

namespace GraphTransfer

variable {eq : Scalar → Scalar → Bool} {g : Graph eq} {size : Payload → Nat}

theorem Sent.records {p : Pickler} {todo left : List Active} {records : List (Record Nat)}
    (h : Sent todo records left) (hpending : Pending g p todo) :
    FromGraph g records ∧ ∀ record ∈ records, record.number < p.refs.length ∧
      ∃ n, record.offset ≤ (g.node n).entries.length := by
  induction h with
  | stop todo => exact ⟨by simp [FromGraph], by simp⟩
  | drop hempty _ ih => exact ih fun a ha => hpending a (mem_cons_of_mem _ ha)
  | @record b todo left records items rest hitems hentries hsent ih =>
    have hone : Sent (b :: todo) [⟨b.number, b.offset, items⟩]
        (⟨b.number, rest, b.offset + items.length⟩ :: todo) := .record hitems hentries (.stop _)
    obtain ⟨hfrom, hnumbers⟩ := ih (hone.pending hpending)
    obtain ⟨hnumber, n, hdrop, hle⟩ := hpending b mem_cons_self
    refine ⟨forall_mem_cons.mpr ⟨fun e he => ⟨n, ?_⟩, hfrom⟩,
      forall_mem_cons.mpr ⟨⟨hnumber, n, hle⟩, hnumbers⟩⟩
    have hmem : e ∈ b.entries := by
      rw [hentries]
      exact mem_append_left rest he
    rw [hdrop] at hmem
    exact mem_of_mem_drop hmem

end GraphTransfer

end Codexon
