import Codexon.GraphTransfer.Filling

/-!
# Codexon.GraphTransfer.Transfer

The receiver of the frames of a graph has the graph again, and not before the last frame.
-/

namespace Codexon.GraphTransfer

open List

variable {eq : Scalar → Scalar → Bool} {g : Graph eq} {size : Payload → Nat}

variable {payloads : List Payload}

variable {r : Receiver} {p P : Pickler} {todo : List Active} {v : Value Loc}

end Codexon.GraphTransfer
