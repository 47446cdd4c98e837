/-!
Contract: the numbers of local slots.

A slot is a word of sixteen bits, as the machine numbers its locals. Counting on
from a slot wraps around, and a number used as a slot keeps its lowest sixteen bits.

Does not own: a claim that the variables of a method fit into the slots there are.
-/

namespace Stackwright

/-- The number of a local slot. -/
abbrev Slot := UInt16

instance : Coe Slot Nat where
  coe := UInt16.toNat

/-- The slot that a number stands for, up to multiples of 65536. -/
instance : Coe Nat Slot where
  coe := UInt16.ofNat

end Stackwright
