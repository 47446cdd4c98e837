import Stackwright.Generation.Statement
import Stackwright.Member.Method

/-!
Contract: machine code of method bodies.

A failing instruction is reported under its class, method and index. A method
that returns nothing and does not end in a return gets one.
-/

namespace Stackwright

/-- The code of a list of instructions, one part for each. -/
def Scope.bodyParts (scope : Scope) (methodName : String) (instrs : List Instr) :
    Except Fault (List (List MachineInstr)) :=
  instrs.zipIdx.mapM fun (instr, index) =>
    (scope.statementCode instr).mapError (.inMethod scope.className methodName index)

namespace Method

/-- What the operands of the method mean inside a class. -/
def scope (method : Method) (className : String) : Scope :=
  { className, table := method.table }

/-- Whether the last instruction of the body is a return. -/
def EndsInReturn (method : Method) : Prop :=
  method.instrs.getLast?.map Instr.form = some .ret

instance (method : Method) : Decidable method.EndsInReturn :=
  inferInstanceAs (Decidable (method.instrs.getLast?.map Instr.form = some .ret))

/-- The return that the body leaves out. -/
def impliedReturn (method : Method) : List MachineInstr :=
  if method.result = .void ∧ ¬method.EndsInReturn then [.retVoid] else []

/-- The machine code of the method inside a class. -/
def code (method : Method) (className : String) : Except Fault (List MachineInstr) := do
  let parts ← (method.scope className).bodyParts method.name method.instrs
  return parts.flatten ++ method.impliedReturn

/-- The slots the method needs: those of its table, and never fewer than its
receiver and parameters. -/
def localsLimit (method : Method) : Slot :=
  max method.table.slotCount method.paramSlots

end Method

end Stackwright
