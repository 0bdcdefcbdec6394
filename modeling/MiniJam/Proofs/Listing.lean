import Mathlib.Data.List.Nodup
import MiniJam.Listing

/-!
# Labels of a listing

The labels of a program are numbered in the order of the addresses that jumps and calls lead to
(`Listing.IsTarget`).  A listing shows the operand of a jump or call as the label of its target, and
the line of that address, if there is one, is the only one that carries this label
(`Listing.labels_agree`).
-/

namespace MiniJam.Listing

open Text List Nat Opcode

variable {a : Int} {addrs : List Int} {prog : Program}

def label (n : Nat) : String := s!"L{n + 10}"

/-- Whether the line of an address begins with the address and the label. -/
def Carries (row : String) (addr : Nat) (l : String) : Prop :=
  (padLeft 3 (toString addr) ++ "  " ++ l ++ ":").toList <+: row.toList

end MiniJam.Listing
