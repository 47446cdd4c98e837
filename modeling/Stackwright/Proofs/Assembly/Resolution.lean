import Stackwright.Proofs.Assembly.Failure
import Stackwright.Proofs.Generation.Resolution

/-!
Contract: the assembly of classes whose types are resolved beforehand.

Owns:
- the class with its declared types resolved, fields apart or included;
- resolving them beforehand changes nothing, fields apart;
- resolving fields too changes the assembly exactly of those classes that fail on the
  receiver type.

Field types are encoded as they are declared, in declarations and in accesses. All other types
are resolved where they are encoded, so the field types of a class are all that resolution
beforehand can make a difference to.
-/

namespace Stackwright

/-- A body keeps its code, or its failure, unless it fails in the form in which the type of a
field does. -/
theorem Scope.bodyParts_resolve {form : EncodingFault → Prop} {onField : Ty → Ty}
    (keepsField : ∀ ty : Ty, KeepsUnless form (ty.descriptor .field) ((onField ty).descriptor .field))
    (scope : Scope) (methodName : String) (instrs : List Instr) :
    KeepsUnless (Fault.ComesFrom form) (scope.bodyParts methodName instrs)
      (scope.bodyParts methodName (instrs.map (Instr.resolve onField scope.className))) := by
  unfold bodyParts
  rw [List.zipIdx_map]
  apply KeepsUnless.mapM
  rintro ⟨instr, index⟩
  apply (scope.statementCode_resolve keepsField instr).mapError
  exact fun fault comesFrom => Fault.comesFrom_inMethod_iff.2 comesFrom

/-! ### Methods -/

/-- A variable whose type is resolved. -/
def Variable.resolve (className : String) (declared : Variable) : Variable :=
  { declared with ty := declared.ty.resolve className }

namespace Method

/-- The method with its types resolved, and with field types changed as given. The types of
operands and of the slot table are left alone. -/
def resolve (onField : Ty → Ty) (className : String) (method : Method) : Method :=
  { method with
    params := method.params.map (Variable.resolve className)
    result := method.result.resolve className
    instrs := method.instrs.map (Instr.resolve onField className) }

variable {form : EncodingFault → Prop} {onField : Ty → Ty} (method : Method) (className : String)

theorem assemblyHeader_resolve :
    (method.resolve onField className).assemblyHeader className = method.assemblyHeader className := by
  have sameParams : (fun param : Variable => param.ty.resolve className) ∘ Variable.resolve className =
      fun param => param.ty.resolve className :=
    funext fun param => Ty.resolve_resolve className className param.ty
  simp only [assemblyHeader, descriptor, resolve, List.map_map, sameParams, Ty.resolve_resolve]

theorem impliedReturn_resolve :
    (method.resolve onField className).impliedReturn = method.impliedReturn := by
  simp [impliedReturn, EndsInReturn, resolve, Function.comp_def]

theorem ofCode_resolve (limits : Limits) (code : List MachineInstr) :
    limits.ofCode (method.resolve onField className) code = limits.ofCode method code := by
  cases limits with
  | fixed stack locals => rfl
  | computed => simp [Limits.ofCode, localsLimit, paramSlots, isStatic, resolve]

theorem assembly_resolve_keeps
    (keepsField : ∀ ty : Ty, KeepsUnless form (ty.descriptor .field) ((onField ty).descriptor .field))
    (options : Options) :
    KeepsUnless (Fault.ComesFrom form) (method.assembly className options)
      ((method.resolve onField className).assembly className options) := by
  have keepsCode : KeepsUnless (Fault.ComesFrom form) (method.code className)
      ((method.resolve onField className).code className) := by
    unfold code
    rw [impliedReturn_resolve]
    exact ((method.scope className).bodyParts_resolve keepsField method.name method.instrs).map
  unfold assembly
  rw [assemblyHeader_resolve]
  simp only [ofCode_resolve]
  exact (KeepsUnless.same _).bind fun _ => keepsCode.map

/-- Once its field types are resolved too, a method does not fail on the receiver type. -/
theorem FailsAt.not_comesFrom_receiver {method : Method} {className : String}
    {position? : Option Nat} {fault : Fault}
    (fails : (method.resolve (Ty.resolve className) className).FailsAt className position? fault) :
    ¬fault.ComesFrom EncodingFault.IsOfReceiver := by
  cases fails with
  | @header encoding fails =>
    have failsDescriptor : FailsOnly (fun encoding => ¬encoding.IsOfReceiver)
        ((method.resolve (Ty.resolve className) className).descriptor className) := by
      apply failsOnly_signatureDescriptor
      · rw [List.forall_mem_map]
        exact fun param _ => param.ty.failsOnly_descriptor_resolve className .parameter
      · exact Ty.failsOnly_descriptor_resolve className _ .result
    simpa using failsDescriptor encoding fails
  | @instr position instr descriptor cause described earlier found fails =>
    have resolved : Scope.ResolvedFailsOnly (fun encoding => ¬encoding.IsOfReceiver) className :=
      ⟨fun ty => ty.failsOnly_internalName_resolve className .operand,
        fun ty site => ty.failsOnly_descriptor_resolve className site⟩
    have failsField : ∀ place, instr.place? = some place →
        FailsOnly (fun encoding => ¬encoding.IsOfReceiver) (place.ty.descriptor .field) := by
      intro place accesses
      simp only [resolve, List.getElem?_map, Option.map_eq_some_iff] at found
      rcases found with ⟨declared, _, rfl⟩
      rw [Instr.place?_resolve, Option.map_eq_some_iff] at accesses
      rcases accesses with ⟨declaredPlace, _, rfl⟩
      exact declaredPlace.ty.failsOnly_descriptor_resolve className .field
    simpa using (resolved.statementCode failsField cause fails).not_comesFrom

end Method

/-! ### Classes -/

namespace ClassUnit

/-- The class with its types resolved, and with field types changed as given. -/
def resolve (onField : Ty → Ty) (unit : ClassUnit) : ClassUnit :=
  { unit with
    fields := unit.fields.map fun field => { field with ty := onField field.ty }
    methods := unit.methods.map (Method.resolve onField unit.name) }

theorem generated_resolve (onField : Ty → Ty) (unit : ClassUnit) :
    (unit.resolve onField).generated = unit.generated.map (Method.resolve onField unit.name) := by
  simp only [generated, resolve, List.filter_map]
  rfl

theorem assembly_resolve_keeps {form : EncodingFault → Prop} {onField : Ty → Ty}
    (keepsField : ∀ ty : Ty, KeepsUnless form (ty.descriptor .field) ((onField ty).descriptor .field))
    (unit : ClassUnit) (options : Options) :
    KeepsUnless (Fault.ComesFrom form) (unit.assembly options)
      ((unit.resolve onField).assembly options) := by
  have keepsDeclarations : KeepsUnless (Fault.ComesFrom form) unit.fieldLines
      (unit.resolve onField).fieldLines := by
    apply KeepsUnless.map
    apply KeepsUnless.mapM
    intro field
    exact (keepsField field.ty).map.mapError fun _ ofForm => by simpa using ofForm
  have keepsMethods : KeepsUnless (Fault.ComesFrom form)
      (unit.generated.mapM fun method => method.assembly unit.name options)
      ((unit.resolve onField).generated.mapM fun method => method.assembly unit.name options) := by
    rw [generated_resolve]
    apply KeepsUnless.mapM
    intro method
    exact method.assembly_resolve_keeps unit.name keepsField options
  exact (keepsDeclarations.bind fun _ => keepsMethods.map).map

/-- Once its field types are resolved too, a class does not fail on the receiver type. -/
theorem failsOnly_assembly_resolve (unit : ClassUnit) (options : Options) :
    FailsOnly (fun fault => ¬fault.ComesFrom EncodingFault.IsOfReceiver)
      ((unit.resolve (Ty.resolve unit.name)).assembly options) := by
  intro fault failed
  rcases assembly_eq_error_iff.1 failed with ⟨place, fails⟩
  cases fails with
  | @field index field encoding earlier found fails =>
    simp only [resolve, List.getElem?_map, Option.map_eq_some_iff] at found
    rcases found with ⟨declared, _, rfl⟩
    simpa using declared.ty.failsOnly_descriptor_resolve unit.name .field encoding fails
  | method fields earlier found fails =>
    rw [generated_resolve, List.getElem?_map, Option.map_eq_some_iff] at found
    rcases found with ⟨declared, _, rfl⟩
    exact fails.not_comesFrom_receiver

/-- Resolving the types of a class beforehand changes nothing as long as the types of its fields
are left alone. Resolving these too makes no difference either, except to the classes that fail
on the receiver type: and all of these it changes. -/
theorem assembly_resolve (unit : ClassUnit) (options : Options) :
    (unit.resolve id).assembly options = unit.assembly options ∧
    ((unit.resolve (Ty.resolve unit.name)).assembly options = unit.assembly options ↔
      ∀ fault, unit.assembly options = .error fault → ¬fault.ComesFrom EncodingFault.IsOfReceiver) := by
  constructor
  · have keepsField (ty : Ty) : KeepsUnless (fun _ => False) (ty.descriptor .field)
        ((id ty).descriptor .field) := .same _
    rcases unit.assembly_resolve_keeps keepsField options with unchanged | ⟨fault, failed, comesFrom⟩
    · exact unchanged
    · rcases comesFrom with ⟨encoding, isRoot, impossible⟩
      exact impossible.elim
  · have keepsField (ty : Ty) := ty.descriptor_resolve unit.name .field
    exact (unit.assembly_resolve_keeps keepsField options).eq_iff
      (unit.failsOnly_assembly_resolve options)

end ClassUnit

/-- A class of list nodes: its field has the type of the class that it stands in. -/
def nodeUnit : ClassUnit where
  name := "Node"
  fields := [{ name := "next", ty := .receiver }]

/-- The text of the class with the type of its field resolved. -/
def nodeText : String := unlines [
  ".class Node", ".super java/lang/Object", "",
  ".field next LNode;", "",
  "; default constructor", ".method public <init>()V",
  "    aload_0", "    invokespecial java/lang/Object/<init>()V", "    return", ".end method"]

/-- That class has no assembly, but would have one if the type of its field were resolved. -/
theorem ClassUnit.assembly_changes_for_node :
    nodeUnit.assembly {} =
      .error (.inClass "Node" "next" (.unsupportedType (.ofTy .receiver .field))) ∧
    (nodeUnit.resolve (Ty.resolve "Node")).assembly {} = .ok nodeText :=
  ⟨rfl, rfl⟩

end Stackwright
