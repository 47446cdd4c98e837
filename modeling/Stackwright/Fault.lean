import Stackwright.Ty.Site
import Stackwright.Code.Instr

/-!
Contract: everything that can go wrong between a source tree and its assembly.

Owns:
- the causes of a failure, as data, and their wording in one place;
- the location wrappers, which say where a cause was met;
- what looks through wrappers: `root`, `kind` and `sources`.

A fault is always fatal for the class it concerns. The wrappers carry no cause
of their own: the kind of a wrapped fault is the kind of its root.
-/

namespace Stackwright

/-- Why an instruction has no machine code at the place where it stands. -/
inductive ShapeDefect where
  | discardedAllocation
  | nonVariableTarget
  | voidCallValue
  | missingMethodName (kind : CallKind)
  | outsideAssignment (form : Form)
  | assignedValue (form : Form)
  | described (text : String)
deriving DecidableEq, Repr

def ShapeDefect.text : ShapeDefect → String
  | .discardedAllocation => "allocation whose result is discarded"
  | .nonVariableTarget => "assignment to a non-variable target"
  | .voidCallValue => "void call used as a value"
  | .missingMethodName kind => kind.text ++ " without a method name"
  | .outsideAssignment form => form.text ++ " outside of an assignment"
  | .assignedValue form => form.text ++ " as an assigned value"
  | .described text => text

/-- Where a value is needed. -/
inductive ValueSite where
  | leftOperand
  | rightOperand
  | callReceiver
  | argument (index : Nat) (method : String)
  | assigned (name : String)
  | returned
  | returnOf (ty : Ty)
  | described (text : String)
deriving DecidableEq, Repr

def ValueSite.text : ValueSite → String
  | .leftOperand => "left operand"
  | .rightOperand => "right operand"
  | .callReceiver => "call receiver"
  | .argument index method => "argument " ++ toString index ++ " of `" ++ method ++ "`"
  | .assigned name => "assignment to `" ++ name ++ "`"
  | .returned => "return value"
  | .returnOf ty => "return of " ++ ty.text
  | .described text => text

/-- A failure: a cause, or a location around another failure. -/
inductive Fault where
  | unsupportedType (fault : EncodingFault)
  | unsupportedShape (defect : ShapeDefect)
  | unsupportedTarget (ty : Ty)
  | unsupportedOperand (ty : Ty)
  | unsupportedOperator (operator : Operator)
  | unresolved (name : String)
  | missingValue (site : ValueSite)
  | inMethod (className methodName : String) (index : Nat) (source : Fault)
  | inClass (className memberName : String) (source : Fault)
deriving DecidableEq, Repr

/-- The classes of failure that a caller can react to. -/
inductive FaultKind where
  | type
  | shape
  | binding
deriving DecidableEq, Repr

namespace Fault

/-- The cause, without the locations around it. -/
def root : Fault → Fault
  | .inMethod _ _ _ source | .inClass _ _ source => source.root
  | fault => fault

/-- The class of a failure, which locations do not change. -/
def kind : Fault → FaultKind
  | .unsupportedType _ | .unsupportedTarget _ | .unsupportedOperand _ => .type
  | .unsupportedShape _ | .unsupportedOperator _ | .missingValue _ => .shape
  | .unresolved _ => .binding
  | .inMethod _ _ _ source | .inClass _ _ source => source.kind

/-- What the location of an instruction adds in front of a message. -/
def methodLocation (className methodName : String) (index : Nat) : String :=
  className ++ "." ++ methodName ++ ", instruction " ++ toString index ++ ": "

/-- What the location of a field or a method header adds in front of a message. -/
def memberLocation (className memberName : String) : String :=
  className ++ "." ++ memberName ++ ": "

def message : Fault → String
  | .unsupportedType fault => fault.message
  | .unsupportedShape defect => "Unsupported instruction shape: " ++ defect.text
  | .unsupportedTarget ty => "Unsupported assignment target type: " ++ ty.text
  | .unsupportedOperand ty => "Unsupported operand type: " ++ ty.text
  | .unsupportedOperator operator => "Unsupported operator: " ++ operator.text
  | .unresolved name => "Unresolved binding: " ++ name
  | .missingValue site => "Expression produces no value: " ++ site.text
  | .inMethod className methodName index source =>
    methodLocation className methodName index ++ source.message
  | .inClass className memberName source => memberLocation className memberName ++ source.message

/-- The failures inside a located one, from the outside in. -/
def sources : Fault → List Fault
  | .inMethod _ _ _ source | .inClass _ _ source => source :: source.sources
  | _ => []

/-- A step that may meet a type without an encoding, as a step of compilation. -/
def liftEncoding {α : Type} (encoded : Except EncodingFault α) : Except Fault α :=
  encoded.mapError .unsupportedType

end Fault

end Stackwright
