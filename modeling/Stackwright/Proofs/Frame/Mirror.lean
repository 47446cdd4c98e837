import Stackwright.Frame.Table
import Stackwright.Proofs.Code.Variables
import Stackwright.Proofs.Semantics.Run

/-!
Contract: slots that hold what variables hold.

Owns:
- tables that give distinct names distinct slots;
- slots that mirror the variables of a body, and its receiver in slot zero;
- an assignment made on both sides keeps the mirror.

What the variables hold may be values or what is known of values, so the mirror serves
runs and checks alike.
-/

namespace Stackwright

namespace FrameTable

def slot? (table : FrameTable) (name : String) : Option Slot :=
  (table.get? name).map Binding.slot

/-- No two of the names share a slot. -/
def Separates (table : FrameTable) (names : List String) : Prop :=
  ∀ first ∈ names, ∀ second ∈ names, (table.slot? first).isSome →
    table.slot? first = table.slot? second → first = second

instance (table : FrameTable) (names : List String) : Decidable (table.Separates names) :=
  inferInstanceAs (Decidable (∀ first ∈ names, ∀ second ∈ names, (table.slot? first).isSome →
    table.slot? first = table.slot? second → first = second))

/-- Code that evaluates the receiver assigns no variable in its slot. -/
def SparesReceiver (table : FrameTable) (instrs : List Instr) : Prop :=
  ReadsReceiver instrs → ∀ name ∈ assignedNames instrs, table.slot? name ≠ some 0

instance (table : FrameTable) (instrs : List Instr) : Decidable (table.SparesReceiver instrs) :=
  inferInstanceAs (Decidable
    (ReadsReceiver instrs → ∀ name ∈ assignedNames instrs, table.slot? name ≠ some 0))

/-- The table suits code: the variables of the code have slots of their own, apart
from that of the receiver if the code needs it. -/
structure Suits (table : FrameTable) (instrs : List Instr) : Prop where
  separates : table.Separates (usedNames instrs)
  sparesReceiver : table.SparesReceiver instrs

instance (table : FrameTable) (instrs : List Instr) : Decidable (table.Suits instrs) :=
  decidable_of_iff (table.Separates (usedNames instrs) ∧ table.SparesReceiver instrs)
    ⟨fun both => ⟨both.1, both.2⟩, fun suits => ⟨suits.separates, suits.sparesReceiver⟩⟩

/-- The slots hold what the variables of the code hold, and the receiver if the code
evaluates it. -/
structure Mirrors {α : Type} (table : FrameTable) (instrs : List Instr) (receiver : α)
    (locals : String → α) (slots : Slot → α) : Prop where
  inSlots : ∀ name ∈ usedNames instrs, ∀ slot, table.slot? name = some slot →
    slots slot = locals name
  receiver : ReadsReceiver instrs → slots 0 = receiver

/-- An assignment on both sides keeps the mirror. -/
theorem Mirrors.assign {α : Type} {table : FrameTable} {instrs : List Instr} {receiver : α}
    {locals : String → α} {slots : Slot → α} (mirrors : table.Mirrors instrs receiver locals slots)
    (suits : table.Suits instrs) {name : String} (assigned : name ∈ assignedNames instrs) {slot : Slot}
    (bound : table.slot? name = some slot) (value : α) :
    table.Mirrors instrs receiver (setLocal locals name value) (setLocal slots slot value) where
  inSlots other used otherSlot otherBound := by
    by_cases same : other = name
    · subst same
      have sameSlot : otherSlot = slot := Option.some.inj (otherBound.symm.trans bound)
      rw [sameSlot, setLocal_same, setLocal_same]
    · have differs : otherSlot ≠ slot := by
        intro sameSlot
        subst sameSlot
        exact same (suits.separates other used name (mem_usedNames_of_assigned assigned)
          (Option.isSome_of_eq_some otherBound) (otherBound.trans bound.symm))
      rw [setLocal_other locals value same, setLocal_other slots value differs]
      exact mirrors.inSlots other used otherSlot otherBound
  receiver reads := by
    have differs : 0 ≠ slot := by
      intro zero
      subst zero
      exact suits.sparesReceiver reads name assigned bound
    rw [setLocal_other slots value differs]
    exact mirrors.receiver reads

end FrameTable

end Stackwright
