import Stackwright.Proofs.Assembly.Acceptance
import Stackwright.Proofs.Generation.Failure

/-!
Contract: where the assembly of a class fails, and what its failure depends on.

Owns:
- the places at which a class can fail, and the part of a class up to a place;
- the failure at the first place where something fails;
- every failure is that of the first such place, with one location around a cause;
- a failure depends on the part of the class up to its place, and on no option;
- several classes fail as the first of them that fails.

The parts of a class are asked in the order of their declaration: the fields, then method by
method, its header before its instructions. Constructors are not asked.
-/

namespace Stackwright

/-- A place at which the assembly of a class can fail: a field, or a method that is no
constructor, at one of its instructions or else at its header. -/
inductive Place where
  | field (index : Nat)
  | method (index : Nat) (position? : Option Nat)
deriving DecidableEq, Repr

/-! ### Methods -/

theorem Scope.bodyParts_eq_error_iff {scope : Scope} {methodName : String} {instrs : List Instr}
    {fault : Fault} :
    scope.bodyParts methodName instrs = .error fault ↔
      ∃ position instr cause, instrs[position]? = some instr ∧
        scope.statementCode instr = .error cause ∧
        (∀ earlier ∈ instrs.take position, scope.Accepts earlier) ∧
        fault = .inMethod scope.className methodName position cause := by
  have acceptsEarlier (position : Nat) :
      (∀ indexed ∈ instrs.zipIdx.take position, ∃ code,
        (scope.statementCode indexed.1).mapError
          (Fault.inMethod scope.className methodName indexed.2) = .ok code) ↔
        ∀ earlier ∈ instrs.take position, scope.Accepts earlier := by
    have settles (indexed : Instr × Nat) : Settles (fun _ => True)
        ((scope.statementCode indexed.1).mapError
          (Fault.inMethod scope.className methodName indexed.2)) (scope.Accepts indexed.1) :=
      (scope.settles_statementCode indexed.1).mapError fun _ _ => trivial
    simp only [(settles _).ok_iff]
    rw [← List.forall_mem_map, List.map_take, List.zipIdx_map_fst]
  rw [bodyParts, mapM_eq_error_iff]
  simp only [acceptsEarlier, mapError_eq_error_iff]
  constructor
  · rintro ⟨position, ⟨instr, index⟩, found, ⟨cause, fails, rfl⟩, earlier⟩
    rw [List.getElem?_zipIdx, Option.map_eq_some_iff] at found
    rcases found with ⟨_, found, same⟩
    cases same
    rw [Nat.zero_add]
    exact ⟨position, instr, cause, found, fails, earlier, rfl⟩
  · rintro ⟨position, instr, cause, found, fails, earlier, rfl⟩
    refine ⟨position, (instr, position), ?_, ⟨cause, fails, rfl⟩, earlier⟩
    rw [List.getElem?_zipIdx, found, Nat.zero_add]
    rfl

namespace Method

/-- The method up to one of its instructions, or else its header alone. -/
def upTo (method : Method) : Option Nat → Method
  | none => { method with instrs := [] }
  | some position => { method with instrs := method.instrs.take (position + 1) }

theorem take_upTo (method : Method) (position : Nat) :
    (method.upTo (some position)).instrs.take position = method.instrs.take position := by
  simp only [upTo, List.take_take, Nat.min_eq_left (Nat.le_succ position)]

theorem getElem?_upTo (method : Method) (position : Nat) :
    (method.upTo (some position)).instrs[position]? = method.instrs[position]? := by
  simp only [upTo, List.getElem?_take_of_succ]

/-- The failure of a method at the first of its parts that fails. -/
inductive FailsAt (method : Method) (className : String) : Option Nat → Fault → Prop where
  | header {cause : EncodingFault} (fails : method.descriptor className = .error cause) :
      FailsAt method className none (.inClass className method.name (.unsupportedType cause))
  | instr {position : Nat} {instr : Instr} {descriptor : String} {cause : Fault}
      (described : method.descriptor className = .ok descriptor)
      (earlier : ∀ other ∈ method.instrs.take position, (method.scope className).Accepts other)
      (found : method.instrs[position]? = some instr)
      (fails : (method.scope className).statementCode instr = .error cause) :
      FailsAt method className (some position) (.inMethod className method.name position cause)

theorem code_eq_error_iff {method : Method} {className : String} {fault : Fault} :
    method.code className = .error fault ↔
      (method.scope className).bodyParts method.name method.instrs = .error fault :=
  map_eq_error_iff

/-- The assembly of a method fails as the first of its parts that fails. -/
theorem assembly_eq_error_iff {method : Method} {className : String} {options : Options}
    {fault : Fault} :
    method.assembly className options = .error fault ↔
      ∃ position?, method.FailsAt className position? fault := by
  have headerFails (cause : EncodingFault) :
      method.assemblyHeader className = .error cause ↔ method.descriptor className = .error cause :=
    map_eq_error_iff
  have headerSucceeds (header : String) :
      (method.assemblyHeader className).mapError (fun cause =>
        Fault.inClass className method.name (.unsupportedType cause)) = .ok header →
      ∃ descriptor, method.descriptor className = .ok descriptor := by
    intro succeeds
    cases described : method.descriptor className with
    | ok descriptor => exact ⟨descriptor, rfl⟩
    | error cause => simp [assemblyHeader, described, bind, Except.bind] at succeeds
  unfold assembly
  rw [bind_eq_error_iff, mapError_eq_error_iff]
  constructor
  · rintro (⟨cause, fails, rfl⟩ | ⟨header, succeeds, fails⟩)
    · exact ⟨none, .header ((headerFails cause).1 fails)⟩
    · rcases headerSucceeds header succeeds with ⟨descriptor, described⟩
      rcases Scope.bodyParts_eq_error_iff.1 (code_eq_error_iff.1 (map_eq_error_iff.1 fails)) with
        ⟨position, instr, cause, found, instrFails, earlier, rfl⟩
      exact ⟨some position, .instr described earlier found instrFails⟩
  · rintro ⟨position?, fails⟩
    cases fails with
    | header fails => exact .inl ⟨_, (headerFails _).2 fails, rfl⟩
    | @instr position instr descriptor cause described earlier found fails =>
      right
      refine ⟨".method " ++ method.modifiers.leading ++ method.name ++ descriptor, ?_, ?_⟩
      · simp [assemblyHeader, described, bind, Except.bind, pure, Except.pure]
      · apply map_eq_error_iff.2
        apply code_eq_error_iff.2
        exact Scope.bodyParts_eq_error_iff.2 ⟨position, instr, cause, found, fails, earlier, rfl⟩

/-- A failure of a method is that of the method up to its place. -/
theorem failsAt_upTo_iff {method : Method} {className : String} {position? : Option Nat}
    {fault : Fault} :
    (method.upTo position?).FailsAt className position? fault ↔
      method.FailsAt className position? fault := by
  constructor
  · intro fails
    cases fails with
    | header fails => exact .header fails
    | instr described earlier found fails =>
      rw [take_upTo] at earlier
      rw [getElem?_upTo] at found
      exact .instr described earlier found fails
  · intro fails
    cases fails with
    | header fails => exact .header fails
    | @instr position _ _ _ described earlier found fails =>
      rw [← take_upTo] at earlier
      rw [← getElem?_upTo] at found
      exact @FailsAt.instr (method.upTo (some position)) _ _ _ _ _ described earlier found fails

/-- A failure is one location around a cause. -/
theorem FailsAt.isLocatedCause {method : Method} {className : String} {position? : Option Nat}
    {fault : Fault} (fails : method.FailsAt className position? fault) : fault.IsLocatedCause := by
  cases fails with
  | header fails => exact trivial
  | instr described earlier found fails => exact Scope.statementCode_fails_with_cause fails

end Method

/-! ### Classes -/

namespace ClassUnit

/-- The class up to a place, without constructors and without what a failure cannot depend
on: superclass and access. -/
def upTo (unit : ClassUnit) : Place → ClassUnit
  | .field index => { name := unit.name, fields := unit.fields.take (index + 1) }
  | .method index position? =>
    { name := unit.name
      fields := unit.fields
      methods := (unit.generated.take (index + 1)).modify index (Method.upTo · position?) }

/-- The class with one method only, and with one instruction only in it. -/
def reducedTo (unit : ClassUnit) (method : Method) (instr : Instr) : ClassUnit :=
  { unit with methods := [{ method with instrs := [instr] }] }

/-- The failure of a class at the first of its members that fails. -/
inductive FailsAt (unit : ClassUnit) : Place → Fault → Prop where
  | field {index : Nat} {field : Field} {cause : EncodingFault}
      (earlier : ∀ other ∈ unit.fields.take index, other.ty.Encodes .field)
      (found : unit.fields[index]? = some field)
      (fails : field.ty.descriptor .field = .error cause) :
      FailsAt unit (.field index) (.inClass unit.name field.name (.unsupportedType cause))
  | method {index : Nat} {position? : Option Nat} {method : Method} {fault : Fault}
      (fields : ∀ field ∈ unit.fields, field.ty.Encodes .field)
      (earlier : ∀ other ∈ unit.generated.take index, other.WellFormed unit.name)
      (found : unit.generated[index]? = some method)
      (fails : method.FailsAt unit.name position? fault) :
      FailsAt unit (.method index position?) fault

theorem fieldLines_eq_error_iff {unit : ClassUnit} {fault : Fault} :
    unit.fieldLines = .error fault ↔
      ∃ index field cause, unit.fields[index]? = some field ∧
        field.ty.descriptor .field = .error cause ∧
        (∀ earlier ∈ unit.fields.take index, earlier.ty.Encodes .field) ∧
        fault = .inClass unit.name field.name (.unsupportedType cause) := by
  have settles (field : Field) : Settles (fun _ => True)
      (field.assembly.mapError fun fault =>
        Fault.inClass unit.name field.name (.unsupportedType fault)) (field.ty.Encodes .field) :=
    (field.ty.settles_descriptor .field).map.mapError fun _ _ => trivial
  have fieldFails (field : Field) (cause : EncodingFault) :
      field.assembly = .error cause ↔ field.ty.descriptor .field = .error cause :=
    map_eq_error_iff
  refine map_eq_error_iff.trans (mapM_eq_error_iff.trans ?_)
  simp only [(settles _).ok_iff, mapError_eq_error_iff, fieldFails]
  constructor
  · rintro ⟨index, field, found, ⟨cause, fails, rfl⟩, earlier⟩
    exact ⟨index, field, cause, found, fails, earlier, rfl⟩
  · rintro ⟨index, field, cause, found, fails, earlier, rfl⟩
    exact ⟨index, field, found, ⟨cause, fails, rfl⟩, earlier⟩

/-- The assembly of a class fails as the first of its members that fails. -/
theorem assembly_eq_error_iff {unit : ClassUnit} {options : Options} {fault : Fault} :
    unit.assembly options = .error fault ↔ ∃ place, unit.FailsAt place fault := by
  have settlesMethod (method : Method) := method.settles_assembly unit.name options
  refine map_eq_error_iff.trans (bind_eq_error_iff.trans ?_)
  rw [fieldLines_eq_error_iff]
  constructor
  · rintro (⟨index, field, cause, found, fails, earlier, rfl⟩ | ⟨lines, succeeds, fails⟩)
    · exact ⟨.field index, .field earlier found fails⟩
    · have fields := unit.settles_fieldLines.accepted_of_ok succeeds
      rcases mapM_eq_error_iff.1 (map_eq_error_iff.1 fails) with
        ⟨index, method, found, methodFails, earlier⟩
      simp only [(settlesMethod _).ok_iff] at earlier
      rcases Method.assembly_eq_error_iff.1 methodFails with ⟨position?, methodFails⟩
      exact ⟨.method index position?, .method fields earlier found methodFails⟩
  · rintro ⟨place, fails⟩
    cases fails with
    | field earlier found fails => exact .inl ⟨_, _, _, found, fails, earlier, rfl⟩
    | @method index position? method fault fields earlier found fails =>
      rcases unit.settles_fieldLines.ok_iff.2 fields with ⟨lines, succeeds⟩
      refine .inr ⟨lines, succeeds, map_eq_error_iff.2 (mapM_eq_error_iff.2 ?_)⟩
      refine ⟨index, method, found, Method.assembly_eq_error_iff.2 ⟨position?, fails⟩, ?_⟩
      simpa only [(settlesMethod _).ok_iff] using earlier

theorem isConstructor_of_mem_generated {unit : ClassUnit} {method : Method}
    (member : method ∈ unit.generated) : method.isConstructor = false := by
  simpa using (List.mem_filter.1 member).2

/-- Every method up to a place is generated. -/
theorem generated_upTo (unit : ClassUnit) (index : Nat) (position? : Option Nat) :
    (unit.upTo (.method index position?)).generated =
      (unit.generated.take (index + 1)).modify index (Method.upTo · position?) := by
  apply List.filter_eq_self.2
  intro method member
  rcases List.mem_iff_getElem?.1 member with ⟨other, found⟩
  simp only [upTo, List.getElem?_modify, Option.map_eq_map, Option.map_eq_some_iff] at found
  rcases found with ⟨original, found, rfl⟩
  have generated := isConstructor_of_mem_generated (List.mem_of_mem_take (List.mem_of_getElem? found))
  by_cases same : index = other
  · cases position? <;> simp [same, Method.upTo, generated]
  · simp [same, generated]

/-- A failure of a class is that of the class up to its place. -/
theorem failsAt_upTo_iff {unit : ClassUnit} {place : Place} {fault : Fault} :
    (unit.upTo place).FailsAt place fault ↔ unit.FailsAt place fault := by
  have takeUpTo (index : Nat) (position? : Option Nat) :
      (unit.upTo (.method index position?)).generated.take index = unit.generated.take index := by
    rw [generated_upTo, List.take_modify, List.take_take, Nat.min_eq_left (Nat.le_succ index),
      List.modify_eq_self (List.length_take_le index unit.generated)]
  have getElemUpTo (index : Nat) (position? : Option Nat) :
      (unit.upTo (.method index position?)).generated[index]? =
        unit.generated[index]?.map (Method.upTo · position?) := by
    rw [generated_upTo, List.getElem?_modify_eq, List.getElem?_take_of_succ, Option.map_eq_map]
  constructor
  · intro fails
    cases fails with
    | @field index field cause earlier found fails =>
      simp only [upTo, List.take_take, Nat.min_eq_left (Nat.le_succ index)] at earlier
      simp only [upTo, List.getElem?_take_of_succ] at found
      exact .field earlier found fails
    | @method index position? method fault fields earlier found fails =>
      rw [takeUpTo] at earlier
      rw [getElemUpTo, Option.map_eq_some_iff] at found
      rcases found with ⟨original, found, rfl⟩
      exact .method fields earlier found (Method.failsAt_upTo_iff.1 fails)
  · intro fails
    cases fails with
    | @field index field cause earlier found fails =>
      apply @FailsAt.field (unit.upTo (.field index)) index field cause _ _ fails
      · simpa only [upTo, List.take_take, Nat.min_eq_left (Nat.le_succ index)] using earlier
      · simpa only [upTo, List.getElem?_take_of_succ] using found
    | @method index position? method fault fields earlier found fails =>
      rw [← takeUpTo index position?] at earlier
      have foundUpTo : (unit.upTo (.method index position?)).generated[index]? =
          some (method.upTo position?) := by
        rw [getElemUpTo, found]
        rfl
      exact @FailsAt.method (unit.upTo (.method index position?)) _ _ _ _ fields earlier foundUpTo
        (Method.failsAt_upTo_iff.2 fails)

theorem FailsAt.isLocatedCause {unit : ClassUnit} {place : Place} {fault : Fault}
    (fails : unit.FailsAt place fault) : fault.IsLocatedCause := by
  cases fails with
  | field earlier found fails => exact trivial
  | method fields earlier found fails => exact fails.isLocatedCause

/-- An instruction fails in the same way where it is the only one of the class. -/
theorem FailsAt.reducedTo {unit : ClassUnit} {index position : Nat} {fault : Fault}
    (fails : unit.FailsAt (.method index (some position)) fault) :
    ∃ method instr cause, unit.generated[index]? = some method ∧
      method.instrs[position]? = some instr ∧
      fault = .inMethod unit.name method.name position cause ∧
      ∀ options, (unit.reducedTo method instr).assembly options =
        .error (.inMethod unit.name method.name 0 cause) := by
  cases fails with
  | @method _ _ method fault fields earlier found fails =>
    cases fails with
    | @instr _ instr descriptor cause described earlierInstrs foundInstr fails =>
      refine ⟨method, instr, cause, found, foundInstr, rfl, fun options => ?_⟩
      have generated : (unit.reducedTo method instr).generated = [{ method with instrs := [instr] }] := by
        have notConstructor := isConstructor_of_mem_generated (List.mem_of_getElem? found)
        simp [ClassUnit.reducedTo, ClassUnit.generated, notConstructor]
      refine assembly_eq_error_iff.2 ⟨.method 0 (some 0), ?_⟩
      apply @FailsAt.method (unit.reducedTo method instr) 0 (some 0) { method with instrs := [instr] } _ fields
      · simp
      · rw [generated]
        rfl
      · exact @Method.FailsAt.instr { method with instrs := [instr] } _ 0 instr descriptor cause described
          (by simp) rfl fails

end ClassUnit

/-! ### Several classes -/

/-- Assembly fails at the first place where something fails, with one location around the
cause. An instruction fails there as it would alone, and the failure depends on the class up
to the place and on nothing else: not on what follows, not on constructors, and on no option.
Several classes have their texts in order, or else the failure of the first that fails. -/
theorem assembly_failure_located (options : Options) :
    (∀ (unit : ClassUnit) (fault : Fault), unit.assembly options = .error fault →
      fault.IsLocatedCause ∧ ∃ place, unit.FailsAt place fault ∧
        (∀ index position, place = .method index (some position) →
          ∃ method instr cause, unit.generated[index]? = some method ∧
            method.instrs[position]? = some instr ∧
            fault = .inMethod unit.name method.name position cause ∧
            ∀ otherOptions, (unit.reducedTo method instr).assembly otherOptions =
              .error (.inMethod unit.name method.name 0 cause)) ∧
        ∀ (other : ClassUnit) (otherOptions : Options), other.upTo place = unit.upTo place →
          other.assembly otherOptions = .error fault) ∧
    (∀ (units : List ClassUnit) (texts : List String), assembleAll units options = .ok texts ↔
      (units.map fun unit => unit.assembly options) = texts.map .ok) ∧
    ∀ (units : List ClassUnit) (fault : Fault), assembleAll units options = .error fault ↔
      ∃ index unit, units[index]? = some unit ∧ unit.assembly options = .error fault ∧
        ∀ earlier ∈ units.take index, ∃ text, earlier.assembly options = .ok text := by
  refine ⟨fun unit fault failed => ?_, fun units texts => mapM_eq_ok_iff,
    fun units fault => mapM_eq_error_iff⟩
  rcases ClassUnit.assembly_eq_error_iff.1 failed with ⟨place, fails⟩
  refine ⟨fails.isLocatedCause, place, fails, ?_, ?_⟩
  · rintro index position rfl
    exact fails.reducedTo
  · intro other otherOptions same
    have failsUpTo := ClassUnit.failsAt_upTo_iff.2 fails
    rw [← same] at failsUpTo
    exact ClassUnit.assembly_eq_error_iff.2 ⟨place, ClassUnit.failsAt_upTo_iff.1 failsUpTo⟩

/-- A class whose second method that is no constructor loads a variable without a slot. -/
def strayUnit : ClassUnit where
  name := "Counter"
  fields := [{ name := "count", ty := .int }]
  methods := [
    { Method.declare "reset" [] .void with instrs := [.retVoid] },
    { Method.declare "Counter" [⟨"start", .receiver⟩] .void with isConstructor := true },
    { Method.declare "bump" [⟨"step", .int⟩] .int with
      instrs := [.single (.variable "step" .int), .ret .int (some (.variable "stray" .int))] }]

/-- The second generated method fails at its second instruction. -/
theorem assembly_failure_located_of_stray :
    strayUnit.assembly {} = .error (.inMethod "Counter" "bump" 1 (.unresolved "stray")) ∧
    (Fault.inMethod "Counter" "bump" 1 (.unresolved "stray")).IsLocatedCause ∧
    ∃ place, strayUnit.FailsAt place (.inMethod "Counter" "bump" 1 (.unresolved "stray")) := by
  have fails :
      strayUnit.assembly {} = .error (.inMethod "Counter" "bump" 1 (.unresolved "stray")) := rfl
  rcases (assembly_failure_located {}).1 strayUnit _ fails with ⟨located, place, failsAt, _⟩
  exact ⟨fails, located, place, failsAt⟩

end Stackwright
