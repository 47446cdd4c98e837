import Stackwright.Machine.Instr
import Stackwright.Proofs.Semantics.Instr
import Stackwright.Ty.Descriptor

/-!
Contract: the meaning of machine code.

Owns:
- the actions of the machine, which addresses methods and fields by text;
- the world of the machine, with the meaning of constants;
- runs of machine instructions, alone and in sequence;
- the world of instructions that a world of the machine gives rise to inside a
  class.

The machine takes operands and arguments off its stack, the last one first. It
tells neither kinds of value apart nor reads descriptors; a call takes as many
arguments as it records.
-/

namespace Stackwright

structure MethodRef where
  kind : CallKind
  owner : String
  name : String
  descriptor : String
deriving DecidableEq, Repr

def Invocation.method (invocation : Invocation) : MethodRef where
  kind := invocation.kind
  owner := invocation.owner
  name := invocation.name
  descriptor := invocation.descriptor

inductive MachineAction (Value : Type) where
  | operate (operator : Operator) (left right : Value)
  | allocate (owner : String)
  | invoke (method : MethodRef) (receiver? : Option Value) (args : List Value)
  | getField (field : FieldRef) (object : Value)
  | putField (field : FieldRef) (object value : Value)
deriving DecidableEq, Repr

/-- A world of the machine. The meaning of a constant is that of its text. -/
structure MachineWorld (Value Heap : Type) extends World Value (MachineAction Value) Heap where
  literal : String → Value

variable {Value Heap : Type}

/-- Runs of the machine, whose locals are numbered slots. -/
abbrev MachineM (Value Heap : Type) :=
  RunM Slot Value (MachineAction Value) Heap

namespace MachineInstr

/-- The right operand is on top. -/
def execOperator (world : MachineWorld Value Heap) (operator : Operator) :
    MachineM Value Heap Unit := do
  let right ← RunM.pop
  let left ← RunM.pop
  RunM.push (← RunM.perform world.toWorld (.operate operator left right))

/-- The arguments are on top, above the object that is called, if there is one. -/
def execInvoke (world : MachineWorld Value Heap) (invocation : Invocation) :
    MachineM Value Heap Unit := do
  let args ← RunM.popMany invocation.argCount
  let receiver? ← if invocation.hasReceiver then some <$> RunM.pop else pure none
  let value ← RunM.perform world.toWorld (.invoke invocation.method receiver? args)
  if invocation.returnsValue then RunM.push value else pure ()

def exec (world : MachineWorld Value Heap) : MachineInstr → MachineM Value Heap Unit
  | .ldc text => RunM.push (world.literal text)
  | .load _ slot => do RunM.push ((← RunM.locals) slot)
  | .store _ slot => do RunM.assign slot (← RunM.pop)
  | .iadd => execOperator world .add
  | .isub => execOperator world .sub
  | .imul => execOperator world .mul
  | .idiv => execOperator world .div
  | .iand => execOperator world .and
  | .new owner => do RunM.push (← RunM.perform world.toWorld (.allocate owner))
  | .dup => do
    let top ← RunM.pop
    RunM.push top
    RunM.push top
  | .pop => do
    let _ ← RunM.pop
  | .invoke invocation => execInvoke world invocation
  | .getField field => do
    let object ← RunM.pop
    RunM.push (← RunM.perform world.toWorld (.getField field object))
  | .putField field => do
    let value ← RunM.pop
    let object ← RunM.pop
    let _ ← RunM.perform world.toWorld (.putField field object value)
  | .retVoid => throw (.returned none)
  | .ret _ => do throw (.returned (some (← RunM.pop)))

def execAll (world : MachineWorld Value Heap) :
    List MachineInstr → MachineM Value Heap Unit
  | [] => return ()
  | instr :: rest => do
    instr.exec world
    execAll world rest

@[simp] theorem execAll_nil (world : MachineWorld Value Heap) :
    execAll world [] = pure () := rfl

@[simp] theorem execAll_cons (world : MachineWorld Value Heap) (instr : MachineInstr)
    (rest : List MachineInstr) :
    execAll world (instr :: rest) = instr.exec world >>= fun _ => execAll world rest := rfl

theorem execAll_append (world : MachineWorld Value Heap) (first second : List MachineInstr) :
    execAll world (first ++ second) =
      execAll world first >>= fun _ => execAll world second := by
  induction first with
  | nil => rfl
  | cons instr rest inductionHypothesis =>
    rw [List.cons_append, execAll_cons, execAll_cons, inductionHypothesis, bind_assoc]

/-! ### What instructions do to a stack that holds what they take -/

section Steps

variable {world : MachineWorld Value Heap} {state : RunState Slot Value (MachineAction Value) Heap}

/-- The value that was pushed first comes first. -/
theorem popMany_run (state : RunState Slot Value (MachineAction Value) Heap) (taken rest : List Value) :
    (RunM.popMany taken.length).run { state with stack := taken ++ rest } =
      .ok taken.reverse { state with stack := rest } := by
  induction taken with
  | nil => rfl
  | cons top more inductionHypothesis =>
    show EStateM.run (RunM.popMany more.length >>= fun values => pure (values ++ [top]))
      { state with stack := more ++ rest } = _
    rw [EStateM.run_bind, inductionHypothesis, List.reverse_cons]
    rfl

theorem execOperator_run {instr : MachineInstr} {operator : Operator}
    (computes : instr.exec world = execOperator world operator) (left right : Value) :
    (instr.exec world).run { state with stack := right :: left :: state.stack } =
      (RunM.perform world.toWorld (.operate operator left right) >>= RunM.push).run state := by
  rw [computes]
  rfl

theorem exec_getField_run (field : FieldRef) (object : Value) :
    ((MachineInstr.getField field).exec world).run { state with stack := object :: state.stack } =
      (RunM.perform world.toWorld (.getField field object) >>= RunM.push).run state := rfl

theorem exec_putField_run (field : FieldRef) (object value : Value) :
    ((MachineInstr.putField field).exec world).run
        { state with stack := value :: object :: state.stack } =
      (RunM.perform world.toWorld (.putField field object value) >>= fun _ => pure ()).run state := rfl

theorem execInvoke_run {invocation : Invocation} {receiver? : Option Value} {args : List Value}
    (sameCount : invocation.argCount = args.length)
    (sameReceiver : invocation.hasReceiver = receiver?.isSome) :
    (execInvoke world invocation).run
        { state with stack := args.reverse ++ (receiver?.toList ++ state.stack) } =
      (RunM.perform world.toWorld (.invoke invocation.method receiver? args) >>= fun value =>
        if invocation.returnsValue then RunM.push value else pure ()).run state := by
  have popped := popMany_run state args.reverse (receiver?.toList ++ state.stack)
  rw [List.length_reverse, List.reverse_reverse] at popped
  rw [execInvoke, sameCount, EStateM.run_bind, popped, sameReceiver]
  cases receiver? with
  | none => rfl
  | some receiver => rfl

end Steps

end MachineInstr

/-- The method that a call addresses inside a class: its owner is named by the type
of the target, its descriptor by the types of arguments and result. -/
def Call.methodRef? (call : Call) (className : String) : Option MethodRef := do
  let owner ← ((call.target.ty.resolve className).internalName .operand).toOption
  let name ← call.method?
  let descriptor ← (callDescriptor (call.args.map fun arg => arg.ty.resolve className)
    (call.result.resolve className)).toOption
  return { kind := call.kind, owner, name, descriptor }

/-- The field that a place denotes inside a class. -/
def FieldPlace.fieldRef? (place : FieldPlace) (className : String) : Option FieldRef := do
  let owner ← ((place.object.ty.resolve className).internalName .operand).toOption
  let descriptor ← (place.ty.descriptor .field).toOption
  return { owner, name := place.field, descriptor }

/-- The instructions of a class mean the actions of the machine. A literal means
what its text means, whatever its type. -/
def MachineWorld.instrWorld (world : MachineWorld Value Heap) (className : String) :
    InstrWorld Value (MachineAction Value) Heap where
  toWorld := world.toWorld
  literal := fun text _ => world.literal text
  operate := .operate
  call? := fun call receiver? args =>
    (call.methodRef? className).map fun method => .invoke method receiver? args
  getField? := fun place object =>
    (place.fieldRef? className).map fun field => .getField field object
  putField? := fun place object value =>
    (place.fieldRef? className).map fun field => .putField field object value

end Stackwright
