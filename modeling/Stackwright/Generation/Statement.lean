import Stackwright.Generation.Scope

/-!
Contract: machine code of single instructions.

Owns:
- code that leaves exactly one value, for the right side of an assignment;
- code of an instruction that stands as a statement.

Each part of an instruction is checked in the order in which its code is
emitted, except that a call looks up its owner first and encodes its descriptor
before it loads its arguments, and a field store encodes its field before it
loads anything. The first part that fails decides the fault.
-/

namespace Stackwright

/-- The instruction that computes an operator. Comparison has none. -/
def Operator.machineInstr? : Operator → Option MachineInstr
  | .add => some .iadd
  | .sub => some .isub
  | .mul => some .imul
  | .div => some .idiv
  | .and => some .iand
  | .less => none

/-- Whether a call takes an object off the stack. -/
def CallKind.hasReceiver : CallKind → Bool
  | .special | .virtual => true
  | .static | .allocate => false

/-- The method a call names. -/
def Call.methodName (call : Call) : Except Fault String :=
  match call.method? with
  | some name => .ok name
  | none => .error (.unsupportedShape (.missingMethodName call.kind))

namespace Scope

/-- Both operands, then the operator. -/
def binaryCode (scope : Scope) (operator : Operator) (left right : Operand) :
    Except Fault (List MachineInstr) :=
  match operator.machineInstr? with
  | none => .error (.unsupportedOperator operator)
  | some instr => do
    let leftLoad ← scope.load left
    let rightLoad ← scope.load right
    return [leftLoad, rightLoad, instr]

/-- The arguments, then the call itself. -/
def invokeCode (scope : Scope) (call : Call) (owner name : String) :
    Except Fault (List MachineInstr) := do
  let descriptor ← scope.callDescriptor call
  let argLoads ← call.args.mapM scope.load
  let invocation : Invocation :=
    { kind := call.kind, owner, name, descriptor,
      argCount := call.args.length,
      hasReceiver := call.kind.hasReceiver,
      returnsValue := call.result ≠ .void }
  return argLoads ++ [.invoke invocation]

/-- A call of any kind. An allocation leaves a second copy of the new object; a
constructor call loads no receiver, because it consumes that copy. -/
def callCode (scope : Scope) (call : Call) : Except Fault (List MachineInstr) := do
  let owner ← scope.owner call.target
  match call.kind with
  | .allocate => return [.new owner, .dup]
  | .special => scope.invokeCode call owner "<init>"
  | .virtual => do
    let name ← call.methodName
    let targetLoad ← scope.load call.target
    return targetLoad :: (← scope.invokeCode call owner name)
  | .static => do
    let name ← call.methodName
    scope.invokeCode call owner name

/-- Code that leaves exactly one value on the stack. -/
def valueCode (scope : Scope) : Instr → Except Fault (List MachineInstr)
  | .single operand => do return [← scope.load operand]
  | .binary operator left right _ => scope.binaryCode operator left right
  | .call invocation =>
    match invocation.resultType? with
    | some _ => scope.callCode invocation
    | none => .error (.unsupportedShape .voidCallValue)
  | .getField place => do
    let objectLoad ← scope.load place.object
    let owner ← scope.owner place.object
    let field ← fieldRef place owner
    return [objectLoad, .getField field]
  | .assign _ _ => .error (.unsupportedShape (.assignedValue .assign))
  | .ret _ _ => .error (.unsupportedShape (.assignedValue .ret))
  | .putField _ _ => .error (.unsupportedShape (.assignedValue .putField))

/-- The value, then the store into the target. -/
def assignCode (scope : Scope) (target : Operand) (source : Instr) :
    Except Fault (List MachineInstr) :=
  match target with
  | .variable name ty => do
    let value ← scope.valueCode source
    let store ← scope.store name ty
    return value ++ [store]
  | .literal _ _ | .receiver => .error (.unsupportedShape .nonVariableTarget)

/-- A return under the declared type, which also decides its kind. A `void`
return ignores a value. -/
def returnCode (scope : Scope) (ty : Ty) (value? : Option Operand) :
    Except Fault (List MachineInstr) :=
  match ty.kind? with
  | none => .ok [.retVoid]
  | some kind =>
    match value? with
    | none => .error (.missingValue (.returnOf ty))
    | some value => do return [← scope.load value, .ret kind]

/-- A call on its own. A result that nobody takes is popped. -/
def callStatementCode (scope : Scope) (call : Call) : Except Fault (List MachineInstr) :=
  if call.kind = .allocate then
    .error (.unsupportedShape .discardedAllocation)
  else do
    let code ← scope.callCode call
    return code ++ (if call.result = .void then [] else [.pop])

/-- Object and value, then the store into the field. -/
def putFieldCode (scope : Scope) (place : FieldPlace) (value : Operand) :
    Except Fault (List MachineInstr) := do
  let owner ← scope.owner place.object
  let field ← fieldRef place owner
  let objectLoad ← scope.load place.object
  let valueLoad ← scope.load value
  return [objectLoad, valueLoad, .putField field]

/-- Code of an instruction that stands as a statement. -/
def statementCode (scope : Scope) : Instr → Except Fault (List MachineInstr)
  | .assign target source => scope.assignCode target source
  | .single operand => do return [← scope.load operand]
  | .ret ty value? => scope.returnCode ty value?
  | .call invocation => scope.callStatementCode invocation
  | .putField place value => scope.putFieldCode place value
  | .binary _ _ _ _ => .error (.unsupportedShape (.outsideAssignment .binary))
  | .getField _ => .error (.unsupportedShape (.outsideAssignment .getField))

end Scope

end Stackwright
