import Stackwright.Code.Operand

/-!
Contract: three-address instructions.

Owns:
- operators and call kinds, with their spelling;
- the instruction language;
- the type of the value an instruction leaves behind.

Instructions nest only through assignment. The language allows more than
lowering ever produces, such as an assignment of an assignment; which of it can
be turned into machine code is decided where that code is generated.
-/

namespace Stackwright

/-- The binary operators, shared by source trees and instructions. -/
inductive Operator where
  | add
  | sub
  | mul
  | div
  | less
  | and
deriving DecidableEq, Repr

def Operator.text : Operator → String
  | .add => "+"
  | .sub => "-"
  | .mul => "*"
  | .div => "/"
  | .less => "<"
  | .and => "&&"

/-- How a call is dispatched. Allocation counts as a call of the class itself. -/
inductive CallKind where
  | allocate
  | special
  | virtual
  | static
deriving DecidableEq, Repr

def CallKind.text : CallKind → String
  | .allocate => "new"
  | .special => "invokespecial"
  | .virtual => "invokevirtual"
  | .static => "invokestatic"

/-- An allocation or a method call. -/
structure Call where
  kind : CallKind
  target : Operand
  method? : Option String
  args : List Operand
  result : Ty
deriving DecidableEq, Repr

/-- The type of the value a call leaves behind: an allocation leaves the new
object, whatever its declared result, and a `void` call leaves nothing. -/
def Call.resultType? (call : Call) : Option Ty :=
  match call.kind with
  | .allocate => some call.target.ty
  | .special | .virtual | .static => if call.result = .void then none else some call.result

/-- A field of an object, with its declared type. -/
structure FieldPlace where
  object : Operand
  field : String
  ty : Ty
deriving DecidableEq, Repr

/-- A three-address instruction. -/
inductive Instr where
  | assign (target : Operand) (source : Instr)
  | single (operand : Operand)
  | binary (operator : Operator) (left right : Operand) (ty : Ty)
  | ret (ty : Ty) (value? : Option Operand)
  | call (invocation : Call)
  | putField (place : FieldPlace) (value : Operand)
  | getField (place : FieldPlace)
deriving DecidableEq, Repr

/-- The forms of instruction. -/
inductive Form where
  | assign
  | single
  | binary
  | ret
  | call
  | putField
  | getField
deriving DecidableEq, Repr

/-- The name of a form in diagnostics. -/
def Form.text : Form → String
  | .assign => "assign"
  | .single => "single-op"
  | .binary => "binary-op"
  | .ret => "return"
  | .call => "call"
  | .putField => "putfield"
  | .getField => "getfield"

namespace Instr

/-- A return without a value. -/
def retVoid : Instr :=
  .ret .void none

/-- A return of an operand under its own type. -/
def retValue (operand : Operand) : Instr :=
  .ret operand.ty (some operand)

def form : Instr → Form
  | .assign _ _ => .assign
  | .single _ => .single
  | .binary _ _ _ _ => .binary
  | .ret _ _ => .ret
  | .call _ => .call
  | .putField _ _ => .putField
  | .getField _ => .getField

/-- The type of the value an instruction leaves behind, if it leaves one. -/
def resultType? : Instr → Option Ty
  | .single operand => some operand.ty
  | .binary _ _ _ ty => some ty
  | .call invocation => invocation.resultType?
  | .getField place => some place.ty
  | .assign _ _ | .ret _ _ | .putField _ _ => none

end Instr

end Stackwright
