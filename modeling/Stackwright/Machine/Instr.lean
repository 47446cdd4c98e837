import Stackwright.Code.Instr
import Stackwright.Frame.Slot

/-!
Contract: machine instructions, their assembler text and what each does to the
depth of the operand stack.

A call records how many arguments it takes, whether it takes a receiver and
whether it leaves a result, because its descriptor is text. Its effect is counted
in 32-bit words, so a count beyond that range is reduced modulo the word size.
-/

namespace Stackwright

/-- A method call, as the machine addresses it. -/
structure Invocation where
  kind : CallKind
  owner : String
  name : String
  descriptor : String
  argCount : Nat
  hasReceiver : Bool
  returnsValue : Bool
deriving DecidableEq, Repr

/-- A field, as the machine addresses it. -/
structure FieldRef where
  owner : String
  name : String
  descriptor : String
deriving DecidableEq, Repr

/-- A machine instruction. -/
inductive MachineInstr where
  | ldc (value : String)
  | load (kind : Kind) (slot : Slot)
  | store (kind : Kind) (slot : Slot)
  | iadd
  | isub
  | imul
  | idiv
  | iand
  | new (owner : String)
  | dup
  | pop
  | invoke (invocation : Invocation)
  | getField (field : FieldRef)
  | putField (field : FieldRef)
  | retVoid
  | ret (kind : Kind)
deriving DecidableEq, Repr

/-- The letter that marks the kind of value in an instruction's name. -/
def Kind.letter : Kind → String
  | .int => "i"
  | .reference => "a"

/-- The first four slots have instructions of their own. -/
def slotText (slot : Slot) : String :=
  if slot ≤ 3 then "_" ++ toString slot else " " ++ toString slot

def FieldRef.text (field : FieldRef) : String :=
  field.owner ++ "/" ++ field.name ++ " " ++ field.descriptor

namespace Invocation

def text (invocation : Invocation) : String :=
  invocation.kind.text ++ " " ++ invocation.owner ++ "/" ++ invocation.name ++
    invocation.descriptor

/-- What a call leaves on the stack less what it takes from it. -/
def stackEffect (invocation : Invocation) : Int :=
  let pushed : Int := if invocation.returnsValue then 1 else 0
  let receiver : Int := if invocation.hasReceiver then 1 else 0
  Int.bmod (pushed - (invocation.argCount + receiver)) 0x100000000

end Invocation

namespace MachineInstr

/-- The assembler text of an instruction. -/
def text : MachineInstr → String
  | .ldc value => "ldc " ++ value
  | .load kind slot => kind.letter ++ "load" ++ slotText slot
  | .store kind slot => kind.letter ++ "store" ++ slotText slot
  | .iadd => "iadd"
  | .isub => "isub"
  | .imul => "imul"
  | .idiv => "idiv"
  | .iand => "iand"
  | .new owner => "new " ++ owner
  | .dup => "dup"
  | .pop => "pop"
  | .invoke invocation => invocation.text
  | .getField field => "getfield " ++ field.text
  | .putField field => "putfield " ++ field.text
  | .retVoid => "return"
  | .ret kind => kind.letter ++ "return"

/-- The net change of the operand-stack depth. -/
def stackEffect : MachineInstr → Int
  | .ldc _ | .load _ _ | .new _ | .dup => 1
  | .store _ _ | .pop => -1
  | .iadd | .isub | .imul | .idiv | .iand => -1
  | .invoke invocation => invocation.stackEffect
  | .getField _ => 0
  | .putField _ => -2
  | .retVoid => 0
  | .ret _ => -1

end MachineInstr

end Stackwright
