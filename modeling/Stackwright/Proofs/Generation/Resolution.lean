import Stackwright.Proofs.Generation.Failure
import Stackwright.Proofs.Ty.Encoding

/-!
Contract: code generation for instructions whose types are resolved beforehand.

Owns:
- changes of the types that an instruction declares: that of the field it accesses, and the
  result of the call it makes;
- resolving the result of a call beforehand changes nothing;
- changing the type of a field changes the code only as it changes the descriptor.

The types of operands are left alone: they also decide how operands are loaded.
-/

namespace Stackwright

/-- A call whose result is resolved. -/
def Call.resolve (className : String) (call : Call) : Call :=
  { call with result := call.result.resolve className }

/-- An access to a field of another type. -/
def FieldPlace.mapTy (onField : Ty → Ty) (place : FieldPlace) : FieldPlace :=
  { place with ty := onField place.ty }

/-- An instruction whose declared types are changed: the types of fields as given, and the
results of calls by resolving them. -/
def Instr.resolve (onField : Ty → Ty) (className : String) : Instr → Instr
  | .assign target source => .assign target (source.resolve onField className)
  | .call invocation => .call (invocation.resolve className)
  | .putField place value => .putField (place.mapTy onField) value
  | .getField place => .getField (place.mapTy onField)
  | .single operand => .single operand
  | .binary operator left right ty => .binary operator left right ty
  | .ret ty value? => .ret ty value?

@[simp] theorem Instr.form_resolve (onField : Ty → Ty) (className : String) (instr : Instr) :
    (instr.resolve onField className).form = instr.form := by
  cases instr <;> rfl

/-- The field that is accessed stays the same but for its type. -/
theorem Instr.place?_resolve (onField : Ty → Ty) (className : String) (instr : Instr) :
    (instr.resolve onField className).place? = instr.place?.map (FieldPlace.mapTy onField) := by
  induction instr with
  | assign target source inductionHypothesis => exact inductionHypothesis
  | single | binary | ret | call | putField | getField => rfl

/-- Resolution does not change whether a call leaves a value. -/
theorem Call.isSome_resultType?_resolve (className : String) (call : Call) :
    (call.resolve className).resultType?.isSome = call.resultType?.isSome := by
  unfold Call.resultType? Call.resolve
  cases call.kind with
  | allocate => rfl
  | special | virtual | static =>
    simp only [Ty.resolve_eq_void_iff]
    split <;> rfl

namespace Scope

variable (scope : Scope)

/-! ### Calls -/

theorem callDescriptor_resolve (call : Call) :
    scope.callDescriptor (call.resolve scope.className) = scope.callDescriptor call := by
  simp only [callDescriptor, Call.resolve, Ty.resolve_resolve]

theorem invokeCode_resolve (call : Call) (owner name : String) :
    scope.invokeCode (call.resolve scope.className) owner name = scope.invokeCode call owner name := by
  simp only [invokeCode, callDescriptor_resolve]
  simp only [Call.resolve, Ne, Ty.resolve_eq_void_iff]

theorem callCode_resolve (call : Call) :
    scope.callCode (call.resolve scope.className) = scope.callCode call := by
  simp only [callCode, invokeCode_resolve]
  rfl

/-- As a value, a call is asked first whether it leaves one. -/
theorem valueCode_call (call : Call) :
    scope.valueCode (.call call) =
      if call.resultType?.isSome then scope.callCode call
      else .error (.unsupportedShape .voidCallValue) := by
  rw [valueCode]
  cases call.resultType? <;> rfl

theorem callStatementCode_resolve (call : Call) :
    scope.callStatementCode (call.resolve scope.className) = scope.callStatementCode call := by
  simp only [callStatementCode, callCode_resolve]
  simp only [Call.resolve, Ty.resolve_eq_void_iff]

/-! ### Statements -/

variable {form : EncodingFault → Prop} {onField : Ty → Ty}
  (keepsField : ∀ ty : Ty, KeepsUnless form (ty.descriptor .field) ((onField ty).descriptor .field))

include keepsField

theorem fieldRef_mapTy (place : FieldPlace) (owner : String) :
    KeepsUnless (Fault.ComesFrom form) (fieldRef place owner)
      (fieldRef (place.mapTy onField) owner) :=
  (keepsField place.ty).liftEncoding.map

theorem valueCode_resolve (instr : Instr) :
    KeepsUnless (Fault.ComesFrom form) (scope.valueCode instr)
      (scope.valueCode (instr.resolve onField scope.className)) := by
  cases instr with
  | call call =>
    apply KeepsUnless.of_eq
    simp only [Instr.resolve, valueCode_call, Call.isSome_resultType?_resolve, callCode_resolve]
  | getField place =>
    apply (KeepsUnless.same (scope.load place.object)).bind
    intro load
    apply (KeepsUnless.same (scope.owner place.object)).bind
    intro owner
    exact (fieldRef_mapTy keepsField place owner).map
  | single | binary | assign | ret | putField => exact .same _

/-- A statement keeps its code, or its failure, unless it fails in the form in which the type of
its field does. -/
theorem statementCode_resolve (instr : Instr) :
    KeepsUnless (Fault.ComesFrom form) (scope.statementCode instr)
      (scope.statementCode (instr.resolve onField scope.className)) := by
  cases instr with
  | assign target source =>
    cases target with
    | «variable» name ty =>
      exact (scope.valueCode_resolve keepsField source).bind fun value => .same _
    | literal | receiver => exact .same _
  | call call => exact .of_eq (scope.callStatementCode_resolve call)
  | putField place value =>
    apply (KeepsUnless.same (scope.owner place.object)).bind
    intro owner
    exact (fieldRef_mapTy keepsField place owner).bind fun field => .same _
  | single | ret | binary | getField => exact .same _

end Scope

end Stackwright
