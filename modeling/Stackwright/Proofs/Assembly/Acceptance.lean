import Stackwright.Assembly.Text
import Stackwright.Proofs.Generation.Language

/-!
Contract: exactly which classes have an assembly.

Owns:
- well-formed methods and classes;
- that a class is turned into assembly exactly if it is well-formed, under any options.

Well-formedness is said of the declarations alone: of their types, of the slot tables and of
the form of each instruction. Constructors are not judged, because they are left out.
-/

namespace Stackwright

/-- The types of the header can be written down once the receiver type is resolved, and
every instruction can stand as a statement. -/
structure Method.WellFormed (method : Method) (className : String) : Prop where
  params : ∀ param ∈ method.params, (param.ty.resolve className).Encodes .parameter
  result : (method.result.resolve className).Encodes .result
  instrs : ∀ instr ∈ method.instrs, (method.scope className).Accepts instr

/-- Every field type can be written down as it is declared, and every method that is not a
constructor is well-formed. -/
structure ClassUnit.WellFormed (unit : ClassUnit) : Prop where
  fields : ∀ field ∈ unit.fields, field.ty.Encodes .field
  methods : ∀ method ∈ unit.methods, method.isConstructor = false → method.WellFormed unit.name

instance (method : Method) (className : String) : Decidable (method.WellFormed className) :=
  decidable_of_iff
    ((∀ param ∈ method.params, (param.ty.resolve className).Encodes .parameter) ∧
      (method.result.resolve className).Encodes .result ∧
      ∀ instr ∈ method.instrs, (method.scope className).Accepts instr)
    ⟨fun ⟨params, result, instrs⟩ => ⟨params, result, instrs⟩,
      fun ⟨params, result, instrs⟩ => ⟨params, result, instrs⟩⟩

instance (unit : ClassUnit) : Decidable unit.WellFormed :=
  decidable_of_iff
    ((∀ field ∈ unit.fields, field.ty.Encodes .field) ∧
      ∀ method ∈ unit.methods, method.isConstructor = false → method.WellFormed unit.name)
    ⟨fun ⟨fields, methods⟩ => ⟨fields, methods⟩, fun ⟨fields, methods⟩ => ⟨fields, methods⟩⟩

/-! ### Methods -/

/-- Which instruction fails makes no difference to whether one does. -/
theorem Scope.settles_bodyParts (scope : Scope) (methodName : String) (instrs : List Instr) :
    Settles (fun _ => True) (scope.bodyParts methodName instrs)
      (∀ instr ∈ instrs, scope.Accepts instr) := by
  have settles : Settles (fun _ => True) (scope.bodyParts methodName instrs)
      (∀ indexed ∈ instrs.zipIdx, scope.Accepts indexed.1) :=
    Settles.mapM instrs.zipIdx fun indexed =>
      (scope.settles_statementCode indexed.1).mapError fun _ _ => trivial
  rw [← List.forall_mem_map, List.zipIdx_map_fst] at settles
  exact settles

namespace Method

theorem settles_code_of_accepts (method : Method) (className : String) :
    Settles (fun _ => True) (method.code className)
      (∀ instr ∈ method.instrs, (method.scope className).Accepts instr) :=
  ((method.scope className).settles_bodyParts method.name method.instrs).map

theorem settles_descriptor (method : Method) (className : String) :
    Settles (fun _ => True) (method.descriptor className)
      ((∀ param ∈ method.params, (param.ty.resolve className).Encodes .parameter) ∧
        (method.result.resolve className).Encodes .result) := by
  have settles := settles_signatureDescriptor .parameter
    (method.params.map fun param => param.ty.resolve className) (method.result.resolve className)
  rw [List.forall_mem_map] at settles
  exact settles

theorem settles_assembly (method : Method) (className : String) (options : Options) :
    Settles (fun _ => True) (method.assembly className options) (method.WellFormed className) := by
  have settlesHeader : Settles (fun _ => True) (method.assemblyHeader className) _ :=
    (method.settles_descriptor className).map
  apply Settles.congr ((settlesHeader.mapError fun _ _ => trivial).bind fun _ _ =>
    (method.settles_code_of_accepts className).map)
  exact ⟨fun ⟨⟨params, result⟩, instrs⟩ => ⟨params, result, instrs⟩,
    fun wellFormed => ⟨⟨wellFormed.params, wellFormed.result⟩, wellFormed.instrs⟩⟩

end Method

/-! ### Classes -/

namespace ClassUnit

theorem settles_fieldLines (unit : ClassUnit) :
    Settles (fun _ => True) unit.fieldLines (∀ field ∈ unit.fields, field.ty.Encodes .field) :=
  (Settles.mapM unit.fields fun field =>
    (field.ty.settles_descriptor .field).map.mapError fun _ _ => trivial).map

theorem settles_assembly (unit : ClassUnit) (options : Options) :
    Settles (fun _ => True) (unit.assembly options) unit.WellFormed := by
  have settlesMethods := Settles.mapM unit.generated fun method =>
    method.settles_assembly unit.name options
  apply Settles.congr (unit.settles_fieldLines.bind fun _ _ => settlesMethods.map).map
  have generated : (∀ method ∈ unit.generated, method.WellFormed unit.name) ↔
      ∀ method ∈ unit.methods, method.isConstructor = false → method.WellFormed unit.name := by
    simp [ClassUnit.generated]
  rw [generated]
  exact ⟨fun both => ⟨both.1, both.2⟩, fun wellFormed => ⟨wellFormed.fields, wellFormed.methods⟩⟩

/-- Exactly the well-formed classes have an assembly, whatever the options. -/
theorem assembly_succeeds_iff (unit : ClassUnit) (options : Options) :
    (∃ text, unit.assembly options = .ok text) ↔ unit.WellFormed :=
  (unit.settles_assembly options).ok_iff

end ClassUnit

-- A receiver type is resolved in the header of a method, but not as the type of a field.
example :
    ClassUnit.WellFormed { name := "Node", methods := [.declare "self" [] .receiver] } ∧
    ¬ClassUnit.WellFormed { name := "Node", fields := [{ name := "next", ty := .receiver }] } := by
  decide

end Stackwright
