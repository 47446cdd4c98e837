import Stackwright.Generation.Body
import Stackwright.Proofs.Fault

/-!
Contract: the ways in which the code of a single instruction can fail.

Owns:
- the field that an instruction accesses;
- every failure of an instruction is a cause without a location, and where it is a missing
  encoding, it is that of one of the types that the instruction has encoded.

All types that an instruction has encoded are resolved first, except for the type of the
field that it accesses.
-/

namespace Stackwright

/-- The field that an instruction accesses, by itself or for the value that it assigns. -/
def Instr.place? : Instr → Option FieldPlace
  | .assign _ source => source.place?
  | .putField place _ | .getField place => some place
  | .single _ | .binary _ _ _ _ | .ret _ _ | .call _ => none

/-- A signature fails only as one of its types does. -/
theorem failsOnly_signatureDescriptor {form : EncodingFault → Prop} {inputSite : Site}
    {inputs : List Ty} {result : Ty}
    (failsInputs : ∀ input ∈ inputs, FailsOnly form (input.descriptor inputSite))
    (failsResult : FailsOnly form (result.descriptor .result)) :
    FailsOnly form (signatureDescriptor inputSite inputs result) :=
  (FailsOnly.mapM failsInputs).bind fun _ => failsResult.map

namespace Scope

variable {form : EncodingFault → Prop} (scope : Scope)

theorem failsOnly_slot (name : String) : FailsOnly (Fault.IsCauseOf form) (scope.slot name) := by
  unfold slot
  cases scope.table.get? name with
  | some binding => exact .ok binding.slot
  | none => exact .error trivial

theorem failsOnly_load (operand : Operand) : FailsOnly (Fault.IsCauseOf form) (scope.load operand) := by
  cases operand with
  | literal text ty =>
    rw [load]
    split
    · exact .error trivial
    · exact .ok _
  | receiver => exact .ok _
  | «variable» name ty =>
    rw [load]
    split
    · exact .ok _
    · apply (scope.failsOnly_slot name).bind
      intro slot
      cases ty.kind? with
      | some kind => exact .ok _
      | none => exact .error trivial

theorem failsOnly_store (name : String) (ty : Ty) :
    FailsOnly (Fault.IsCauseOf form) (scope.store name ty) := by
  apply (scope.failsOnly_slot name).bind
  intro slot
  cases ty.storeKind? with
  | some kind => exact .ok _
  | none => exact .error trivial

theorem failsOnly_methodName (call : Call) : FailsOnly (Fault.IsCauseOf form) call.methodName := by
  unfold Call.methodName
  cases call.method? with
  | some name => exact .ok name
  | none => exact .error trivial

theorem failsOnly_fieldRef {place : FieldPlace} (owner : String)
    (failsField : FailsOnly form (place.ty.descriptor .field)) :
    FailsOnly (Fault.IsCauseOf form) (fieldRef place owner) :=
  failsField.liftEncoding.map

theorem failsOnly_binaryCode (operator : Operator) (left right : Operand) :
    FailsOnly (Fault.IsCauseOf form) (scope.binaryCode operator left right) := by
  unfold binaryCode
  cases operator.machineInstr? with
  | none => exact .error trivial
  | some instr =>
    exact (scope.failsOnly_load left).bind fun _ => (scope.failsOnly_load right).map

/-- Resolved types have internal names and descriptors, but for failures of a given form. -/
structure ResolvedFailsOnly (form : EncodingFault → Prop) (className : String) : Prop where
  internalName : ∀ ty : Ty, FailsOnly form ((ty.resolve className).internalName .operand)
  descriptor : ∀ (ty : Ty) (site : Site), FailsOnly form ((ty.resolve className).descriptor site)

variable {scope} (resolved : ResolvedFailsOnly form scope.className)

include resolved

theorem ResolvedFailsOnly.owner (operand : Operand) :
    FailsOnly (Fault.IsCauseOf form) (scope.owner operand) :=
  (resolved.internalName operand.ty).liftEncoding

theorem ResolvedFailsOnly.callDescriptor (call : Call) :
    FailsOnly (Fault.IsCauseOf form) (scope.callDescriptor call) := by
  apply FailsOnly.liftEncoding
  apply failsOnly_signatureDescriptor
  · rw [List.forall_mem_map]
    exact fun arg _ => resolved.descriptor arg.ty .argument
  · exact resolved.descriptor call.result .result

theorem ResolvedFailsOnly.invokeCode (call : Call) (owner name : String) :
    FailsOnly (Fault.IsCauseOf form) (scope.invokeCode call owner name) :=
  (resolved.callDescriptor call).bind fun _ =>
    (FailsOnly.mapM fun arg _ => scope.failsOnly_load arg).map

theorem ResolvedFailsOnly.callCode (call : Call) :
    FailsOnly (Fault.IsCauseOf form) (scope.callCode call) := by
  apply (resolved.owner call.target).bind
  intro owner
  cases call.kind with
  | allocate => exact .ok _
  | special => exact resolved.invokeCode call owner "<init>"
  | virtual =>
    apply (failsOnly_methodName call).bind
    intro name
    exact (scope.failsOnly_load call.target).bind fun _ => (resolved.invokeCode call owner name).map
  | static =>
    exact (failsOnly_methodName call).bind fun name => resolved.invokeCode call owner name

theorem ResolvedFailsOnly.valueCode {instr : Instr}
    (failsField : ∀ place, instr.place? = some place → FailsOnly form (place.ty.descriptor .field)) :
    FailsOnly (Fault.IsCauseOf form) (scope.valueCode instr) := by
  cases instr with
  | single operand => exact (scope.failsOnly_load operand).map
  | binary operator left right ty => exact scope.failsOnly_binaryCode operator left right
  | call call =>
    rw [Scope.valueCode]
    cases call.resultType? with
    | some ty => exact resolved.callCode call
    | none => exact .error trivial
  | getField place =>
    apply (scope.failsOnly_load place.object).bind
    intro load
    apply (resolved.owner place.object).bind
    intro owner
    exact (failsOnly_fieldRef owner (failsField place rfl)).map
  | assign | ret | putField => exact .error trivial

/-- The failures of a statement are causes. -/
theorem ResolvedFailsOnly.statementCode {instr : Instr}
    (failsField : ∀ place, instr.place? = some place → FailsOnly form (place.ty.descriptor .field)) :
    FailsOnly (Fault.IsCauseOf form) (scope.statementCode instr) := by
  cases instr with
  | assign target source =>
    cases target with
    | «variable» name ty =>
      have failsSource : ∀ place, source.place? = some place →
          FailsOnly form (place.ty.descriptor .field) := failsField
      exact (resolved.valueCode failsSource).bind fun _ => (scope.failsOnly_store name ty).map
    | literal | receiver => exact .error trivial
  | single operand => exact (scope.failsOnly_load operand).map
  | ret ty value? =>
    rw [Scope.statementCode, returnCode]
    cases ty.kind? with
    | none => exact .ok _
    | some kind =>
      cases value? with
      | none => exact .error trivial
      | some value => exact (scope.failsOnly_load value).map
  | call call =>
    rw [Scope.statementCode, callStatementCode]
    split
    · exact .error trivial
    · exact (resolved.callCode call).map
  | putField place value =>
    apply (resolved.owner place.object).bind
    intro owner
    apply (failsOnly_fieldRef owner (failsField place rfl)).bind
    intro field
    exact (scope.failsOnly_load place.object).bind fun _ => (scope.failsOnly_load value).map
  | binary | getField => exact .error trivial

end Scope

/-- Whatever instruction fails, it fails with a cause. -/
theorem Scope.statementCode_fails_with_cause {scope : Scope} {instr : Instr} {fault : Fault}
    (failed : scope.statementCode instr = .error fault) : fault.IsCause := by
  have resolved : ResolvedFailsOnly (fun _ => True) scope.className :=
    ⟨fun _ _ _ => trivial, fun _ _ _ _ => trivial⟩
  exact (resolved.statementCode (fun _ _ _ _ => trivial) fault failed).isCause

end Stackwright
