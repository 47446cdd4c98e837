import Stackwright.Fault
import Stackwright.Frame.Table
import Stackwright.Machine.Instr
import Stackwright.Ty.Descriptor

/-!
Contract: what the operands of one method stand for on the machine.

Owns:
- the scope of a method: the enclosing class and the slot table;
- loads, stores, owners and call descriptors of operands.

The receiver type is resolved before an owner or a call descriptor is encoded.
The object a method runs on is always in slot zero; it is not looked up, and
neither is a variable that has the receiver type.
-/

namespace Stackwright

/-- The kind of store for a variable of a type. The receiver type is no type of
a target. -/
def Ty.storeKind? (ty : Ty) : Option Kind :=
  if ty = .receiver then none else ty.kind?

/-- What names and types mean inside one method. -/
structure Scope where
  className : String
  table : FrameTable

namespace Scope

/-- The slot of a variable. -/
def slot (scope : Scope) (name : String) : Except Fault Slot :=
  match scope.table.get? name with
  | some binding => .ok binding.slot
  | none => .error (.unresolved name)

/-- The class that owns the members reached through an operand, from its declared
type alone. -/
def owner (scope : Scope) (operand : Operand) : Except Fault String :=
  Fault.liftEncoding ((operand.ty.resolve scope.className).internalName .operand)

/-- The descriptor of a call, from the declared types of its arguments. -/
def callDescriptor (scope : Scope) (call : Call) : Except Fault String :=
  Fault.liftEncoding (Stackwright.callDescriptor
    (call.args.map fun arg => arg.ty.resolve scope.className)
    (call.result.resolve scope.className))

/-- The field that a place denotes inside the class that owns it. Field types are
encoded as they are declared. -/
def fieldRef (place : FieldPlace) (owner : String) : Except Fault FieldRef := do
  let descriptor ← Fault.liftEncoding (place.ty.descriptor .field)
  return { owner, name := place.field, descriptor }

/-- The instruction that pushes an operand. -/
def load (scope : Scope) : Operand → Except Fault MachineInstr
  | .literal text ty => if ty = .void then .error (.unsupportedOperand ty) else .ok (.ldc text)
  | .receiver => .ok (.load .reference 0)
  | .variable name ty =>
    if ty = .receiver then
      .ok (.load .reference 0)
    else do
      let slot ← scope.slot name
      match ty.kind? with
      | some kind => return .load kind slot
      | none => throw (.unsupportedOperand ty)

/-- The instruction that pops a value into a variable. -/
def store (scope : Scope) (name : String) (ty : Ty) : Except Fault MachineInstr := do
  let slot ← scope.slot name
  match ty.storeKind? with
  | some kind => return .store kind slot
  | none => throw (.unsupportedTarget ty)

end Scope

end Stackwright
