import Stackwright.Proofs.Generation.Derivation
import Stackwright.Proofs.Text.Lines
import Stackwright.Proofs.Ty.Reading

/-!
Contract: machine code is printed on one line for each instruction.

Owns:
- the names and literals in instructions that machine code shows;
- encodings of types are free of newlines if the class names in them are;
- the instructions of generated code are, if what they show is, and no instruction starts as a
  directive does.

The name of a variable is not shown: variables are printed as slots.
-/

namespace Stackwright

/-! ### Names and literals -/

/-- What is shown of an operand: the text of a literal, and the classes in its type. -/
def Operand.texts : Operand → List String
  | .literal text ty => text :: ty.classNames
  | .variable _ ty => ty.classNames
  | .receiver => []

def Call.texts (call : Call) : List String :=
  call.target.texts ++ call.method?.toList ++ call.args.flatMap Operand.texts ++ call.result.classNames

def FieldPlace.texts (place : FieldPlace) : List String :=
  place.object.texts ++ place.field :: place.ty.classNames

/-- The names and literals in an instruction that its code shows. -/
def Instr.texts : Instr → List String
  | .assign _ source => source.texts
  | .single operand => operand.texts
  | .binary _ left right _ => left.texts ++ right.texts
  | .ret _ value? => value?.toList.flatMap Operand.texts
  | .call invocation => invocation.texts
  | .putField place value => place.texts ++ value.texts
  | .getField place => place.texts

/-- The texts are free of newlines. -/
def AllOneLine (texts : List String) : Prop :=
  ∀ text ∈ texts, OneLine text

instance (texts : List String) : Decidable (AllOneLine texts) :=
  inferInstanceAs (Decidable (∀ text ∈ texts, OneLine text))

@[simp] theorem allOneLine_append {first second : List String} :
    AllOneLine (first ++ second) ↔ AllOneLine first ∧ AllOneLine second :=
  List.forall_mem_append

@[simp] theorem allOneLine_cons {text : String} {rest : List String} :
    AllOneLine (text :: rest) ↔ OneLine text ∧ AllOneLine rest :=
  List.forall_mem_cons

theorem allOneLine_flatMap {α : Type} {items : List α} {texts : α → List String} :
    AllOneLine (items.flatMap texts) ↔ ∀ item ∈ items, AllOneLine (texts item) := by
  simp only [AllOneLine, List.mem_flatMap, forall_exists_index, and_imp]
  exact ⟨fun all item member text isText => all text item member isText,
    fun all text item member isText => all item member text isText⟩

/-! ### Encodings of types -/

theorem oneLine_slashed {name : String} (oneLine : OneLine name) : OneLine (slashed name) := by
  rw [OneLine, slashed, String.toList_ofList, List.mem_map]
  rintro ⟨char, member, same⟩
  split at same
  · cases same
  · exact oneLine (same ▸ member)

namespace Ty

theorem allOneLine_resolve {enclosing : String} {ty : Ty} (texts : AllOneLine ty.classNames)
    (oneLineClass : OneLine enclosing) : AllOneLine (ty.resolve enclosing).classNames := by
  induction ty with
  | receiver => exact List.forall_mem_singleton.2 oneLineClass
  | array element inductionHypothesis => exact inductionHypothesis texts
  | int | boolean | void | string | classRef => exact texts

theorem gives_descriptor {ty : Ty} (texts : AllOneLine ty.classNames) (site : Site) :
    Gives OneLine (ty.descriptor site) := by
  induction ty generalizing site with
  | int | boolean => exact .ok (by decide)
  | void =>
    cases site with
    | result => exact .ok (by decide)
    | field | parameter | operand | argument | arrayElement => exact .error _
  | string => exact .ok (by decide)
  | array element inductionHypothesis =>
    exact (inductionHypothesis texts .arrayElement).map fun text oneLine =>
      oneLine_append.2 ⟨by decide, oneLine⟩
  | classRef name =>
    have oneLine := oneLine_slashed (List.forall_mem_singleton.1 texts)
    exact .ok (oneLine_append.2 ⟨oneLine_append.2 ⟨by decide, oneLine⟩, by decide⟩)
  | receiver => exact .error _

theorem gives_internalName {ty : Ty} (texts : AllOneLine ty.classNames) (site : Site) :
    Gives OneLine (ty.internalName site) := by
  cases ty with
  | string => exact .ok (by decide)
  | classRef name => exact .ok (oneLine_slashed (List.forall_mem_singleton.1 texts))
  | array element => exact gives_descriptor texts site
  | int | boolean | void | receiver => exact .error _

end Ty

theorem gives_signatureDescriptor {inputSite : Site} {inputs : List Ty} {result : Ty}
    (inputTexts : ∀ input ∈ inputs, AllOneLine input.classNames)
    (resultTexts : AllOneLine result.classNames) :
    Gives OneLine (signatureDescriptor inputSite inputs result) :=
  (Gives.mapM fun input member => Ty.gives_descriptor (inputTexts input member) inputSite).bind
    fun _ encoded => (Ty.gives_descriptor resultTexts .result).map fun _ encodedResult => by
      simp only [oneLine_append]
      exact ⟨⟨⟨by decide, oneLine_join encoded⟩, by decide⟩, encodedResult⟩

/-! ### Machine instructions -/

theorem oneLine_slotText (slot : Slot) : OneLine (slotText slot) := by
  unfold slotText
  split <;> exact oneLine_append.2 ⟨by decide, oneLine_toString slot⟩

theorem CallKind.oneLine_text (kind : CallKind) : OneLine kind.text := by
  cases kind <;> decide

theorem Kind.oneLine_letter (kind : Kind) : OneLine kind.letter := by
  cases kind <;> decide

namespace MachineInstr

/-- The names and literals that an instruction shows. -/
def texts : MachineInstr → List String
  | .ldc text => [text]
  | .new owner => [owner]
  | .invoke invocation => [invocation.owner, invocation.name, invocation.descriptor]
  | .getField field | .putField field => [field.owner, field.name, field.descriptor]
  | .load _ _ | .store _ _ | .iadd | .isub | .imul | .idiv | .iand | .dup | .pop | .retVoid | .ret _ => []

theorem oneLine_text {instr : MachineInstr} (texts : AllOneLine instr.texts) : OneLine instr.text := by
  cases instr with
  | ldc text => exact oneLine_append.2 ⟨by decide, List.forall_mem_singleton.1 texts⟩
  | new owner => exact oneLine_append.2 ⟨by decide, List.forall_mem_singleton.1 texts⟩
  | invoke invocation =>
    simp only [MachineInstr.texts, allOneLine_cons] at texts
    simp only [text, Invocation.text, oneLine_append]
    exact ⟨⟨⟨⟨⟨invocation.kind.oneLine_text, by decide⟩, texts.1⟩, by decide⟩, texts.2.1⟩, texts.2.2.1⟩
  | getField field | putField field =>
    simp only [MachineInstr.texts, allOneLine_cons] at texts
    simp only [text, FieldRef.text, oneLine_append]
    exact ⟨by decide, ⟨⟨⟨texts.1, by decide⟩, texts.2.1⟩, by decide⟩, texts.2.2.1⟩
  | load kind slot | store kind slot =>
    simp only [text, oneLine_append]
    exact ⟨⟨kind.oneLine_letter, by decide⟩, oneLine_slotText slot⟩
  | ret kind => exact oneLine_append.2 ⟨kind.oneLine_letter, by decide⟩
  | iadd | isub | imul | idiv | iand | dup | pop | retVoid => decide

/-- No instruction is printed with a dot in front. -/
theorem head_text_ne (instr : MachineInstr) : instr.text.toList.head? ≠ some '.' := by
  have ofHead {head : String} (rest : String) (noDot : ∃ char, head.toList.head? = some char ∧ char ≠ '.') :
      (head ++ rest).toList.head? ≠ some '.' := by
    rcases noDot with ⟨char, isHead, differs⟩
    rw [String.toList_append, List.head?_append, isHead]
    exact fun same => differs (Option.some.inj same)
  cases instr with
  | ldc | new => exact ofHead _ ⟨_, rfl, by decide⟩
  | getField | putField => exact ofHead _ ⟨_, rfl, by decide⟩
  | load kind slot | store kind slot =>
    rw [text, String.append_assoc]
    cases kind <;> exact ofHead _ ⟨_, rfl, by decide⟩
  | ret kind => cases kind <;> exact ofHead _ ⟨_, rfl, by decide⟩
  | invoke invocation =>
    simp only [text, Invocation.text, String.append_assoc]
    cases invocation.kind <;> exact ofHead _ ⟨_, rfl, by decide⟩
  | iadd | isub | imul | idiv | iand | dup | pop | retVoid => decide

end MachineInstr

/-! ### Generated code -/

theorem Operand.allOneLine_ty {operand : Operand} (texts : AllOneLine operand.texts) :
    AllOneLine operand.ty.classNames := by
  cases operand with
  | literal => exact (allOneLine_cons.1 texts).2
  | «variable» => exact texts
  | receiver => exact List.forall_mem_nil _

/-- All that code shows is free of newlines. -/
def OneLineCode (code : List MachineInstr) : Prop :=
  ∀ instr ∈ code, AllOneLine instr.texts

theorem oneLineCode_nil : OneLineCode [] :=
  List.forall_mem_nil _

theorem oneLineCode_append {first second : List MachineInstr} :
    OneLineCode (first ++ second) ↔ OneLineCode first ∧ OneLineCode second :=
  List.forall_mem_append

theorem oneLineCode_cons {instr : MachineInstr} {rest : List MachineInstr} :
    OneLineCode (instr :: rest) ↔ AllOneLine instr.texts ∧ OneLineCode rest :=
  List.forall_mem_cons

theorem oneLineCode_singleton {instr : MachineInstr} : OneLineCode [instr] ↔ AllOneLine instr.texts :=
  List.forall_mem_singleton

namespace Scope

variable {scope : Scope}

theorem gives_load {operand : Operand} (texts : AllOneLine operand.texts) :
    Gives (fun instr => AllOneLine instr.texts) (scope.load operand) := by
  cases operand with
  | literal text ty =>
    rw [load]
    split
    · exact .error _
    · exact .ok (List.forall_mem_singleton.2 (allOneLine_cons.1 texts).1)
  | receiver => exact .ok (List.forall_mem_nil _)
  | «variable» name ty =>
    rw [load]
    split
    · exact .ok (List.forall_mem_nil _)
    · have anySlot : Gives (fun _ => True) (scope.slot name) := fun _ _ => trivial
      refine anySlot.bind fun slot _ => ?_
      split
      · exact .ok (List.forall_mem_nil _)
      · exact .error _

theorem gives_store (name : String) (ty : Ty) :
    Gives (fun instr => AllOneLine instr.texts) (scope.store name ty) := by
  intro instr generated
  rcases store_eq_ok generated with ⟨slot, kind, -, -, -, rfl⟩
  exact List.forall_mem_nil _

theorem gives_fieldRef {place : FieldPlace} (texts : AllOneLine place.texts) {owner : String}
    (oneLineOwner : OneLine owner) :
    Gives (fun field => AllOneLine (MachineInstr.getField field).texts) (fieldRef place owner) := by
  rw [FieldPlace.texts, allOneLine_append, allOneLine_cons] at texts
  refine Gives.map (Gives.mapError (Ty.gives_descriptor texts.2.2 .field)) fun descriptor oneLine => ?_
  simp only [MachineInstr.texts, allOneLine_cons]
  exact ⟨oneLineOwner, texts.2.1, oneLine, List.forall_mem_nil _⟩

theorem gives_binaryCode {operator : Operator} {left right : Operand} (leftTexts : AllOneLine left.texts)
    (rightTexts : AllOneLine right.texts) : Gives OneLineCode (scope.binaryCode operator left right) := by
  unfold binaryCode
  cases operator with
  | less => exact .error _
  | add | sub | mul | div | and =>
    exact (gives_load leftTexts).bind fun leftLoad ofLeft => (gives_load rightTexts).map fun rightLoad ofRight =>
      oneLineCode_cons.2 ⟨ofLeft, oneLineCode_cons.2 ⟨ofRight, oneLineCode_singleton.2 (List.forall_mem_nil _)⟩⟩

theorem gives_returnCode {ty : Ty} {value? : Option Operand}
    (texts : AllOneLine (value?.toList.flatMap Operand.texts)) :
    Gives OneLineCode (scope.returnCode ty value?) := by
  unfold returnCode
  cases ty.kind? with
  | none => exact .ok (oneLineCode_singleton.2 (List.forall_mem_nil _))
  | some kind =>
    cases value? with
    | none => exact .error _
    | some value =>
      have valueTexts : AllOneLine value.texts := allOneLine_flatMap.1 texts value List.mem_cons_self
      exact (gives_load valueTexts).map fun load ofLoad =>
        oneLineCode_cons.2 ⟨ofLoad, oneLineCode_singleton.2 (List.forall_mem_nil _)⟩

section

variable (oneLineClass : OneLine scope.className)

include oneLineClass

theorem gives_owner {operand : Operand} (texts : AllOneLine operand.texts) :
    Gives OneLine (scope.owner operand) :=
  (Ty.gives_internalName
    (Ty.allOneLine_resolve (Operand.allOneLine_ty texts) oneLineClass) .operand).mapError

theorem gives_callDescriptor {call : Call} (texts : AllOneLine call.texts) :
    Gives OneLine (scope.callDescriptor call) := by
  simp only [Call.texts, allOneLine_append, allOneLine_flatMap] at texts
  refine Gives.mapError (gives_signatureDescriptor ?_ (Ty.allOneLine_resolve texts.2 oneLineClass))
  intro input member
  rcases List.mem_map.1 member with ⟨arg, isArg, rfl⟩
  exact Ty.allOneLine_resolve (Operand.allOneLine_ty (texts.1.2 arg isArg)) oneLineClass

theorem gives_invokeCode {call : Call} {owner name : String} (texts : AllOneLine call.texts)
    (oneLineOwner : OneLine owner) (oneLineName : OneLine name) :
    Gives OneLineCode (scope.invokeCode call owner name) := by
  have argTexts : ∀ arg ∈ call.args, AllOneLine arg.texts := by
    simp only [Call.texts, allOneLine_append, allOneLine_flatMap] at texts
    exact texts.1.2
  refine (gives_callDescriptor oneLineClass texts).bind fun descriptor oneLineDescriptor => ?_
  refine (Gives.mapM fun arg isArg => gives_load (argTexts arg isArg)).map fun loads ofLoads => ?_
  refine oneLineCode_append.2 ⟨ofLoads, oneLineCode_singleton.2 ?_⟩
  simp only [MachineInstr.texts, allOneLine_cons]
  exact ⟨oneLineOwner, oneLineName, oneLineDescriptor, List.forall_mem_nil _⟩

theorem gives_callCode {call : Call} (texts : AllOneLine call.texts) :
    Gives OneLineCode (scope.callCode call) := by
  have parts := texts
  simp only [Call.texts, allOneLine_append] at parts
  have ofName : Gives OneLine call.methodName := by
    intro name named
    rw [methodName_eq_ok_iff] at named
    exact parts.1.1.2 name (Option.mem_toList.2 named)
  refine (gives_owner oneLineClass parts.1.1.1).bind fun owner oneLineOwner => ?_
  split
  · exact .ok (oneLineCode_cons.2 ⟨List.forall_mem_singleton.2 oneLineOwner,
      oneLineCode_singleton.2 (List.forall_mem_nil _)⟩)
  · exact gives_invokeCode oneLineClass texts oneLineOwner (by decide)
  · refine ofName.bind fun name oneLineName => (gives_load parts.1.1.1).bind fun load ofLoad => ?_
    exact (gives_invokeCode oneLineClass texts oneLineOwner oneLineName).map fun code ofCode =>
      oneLineCode_cons.2 ⟨ofLoad, ofCode⟩
  · exact ofName.bind fun name oneLineName => gives_invokeCode oneLineClass texts oneLineOwner oneLineName

theorem gives_valueCode {instr : Instr} (texts : AllOneLine instr.texts) :
    Gives OneLineCode (scope.valueCode instr) := by
  cases instr with
  | single operand =>
    exact (gives_load texts).map fun load ofLoad => oneLineCode_singleton.2 ofLoad
  | binary operator left right ty =>
    rw [Instr.texts, allOneLine_append] at texts
    exact gives_binaryCode texts.1 texts.2
  | call invocation =>
    rw [valueCode]
    split
    · exact gives_callCode oneLineClass texts
    · exact .error _
  | getField place =>
    have objectTexts : AllOneLine place.object.texts := (allOneLine_append.1 texts).1
    refine (gives_load objectTexts).bind fun load ofLoad =>
      (gives_owner oneLineClass objectTexts).bind fun owner oneLineOwner => ?_
    exact (gives_fieldRef texts oneLineOwner).map fun field ofField =>
      oneLineCode_cons.2 ⟨ofLoad, oneLineCode_singleton.2 ofField⟩
  | assign | ret | putField => exact .error _

/-- The code of an instruction shows nothing but what the instruction does. -/
theorem gives_statementCode {instr : Instr} (texts : AllOneLine instr.texts) :
    Gives OneLineCode (scope.statementCode instr) := by
  cases instr with
  | assign target source =>
    cases target with
    | «variable» name ty =>
      have sourceTexts : AllOneLine source.texts := texts
      exact (gives_valueCode oneLineClass sourceTexts).bind fun value ofValue =>
        (gives_store name ty).map fun store ofStore =>
          oneLineCode_append.2 ⟨ofValue, oneLineCode_singleton.2 ofStore⟩
    | literal | receiver => exact .error _
  | single operand =>
    exact (gives_load texts).map fun load ofLoad => oneLineCode_singleton.2 ofLoad
  | ret ty value? => exact gives_returnCode texts
  | call invocation =>
    rw [statementCode, callStatementCode]
    split
    · exact .error _
    · refine (gives_callCode oneLineClass texts).map fun code ofCode => oneLineCode_append.2 ⟨ofCode, ?_⟩
      split
      · exact oneLineCode_nil
      · exact oneLineCode_singleton.2 (List.forall_mem_nil _)
  | putField place value =>
    rw [Instr.texts, allOneLine_append] at texts
    have objectTexts : AllOneLine place.object.texts := (allOneLine_append.1 texts.1).1
    refine (gives_owner oneLineClass objectTexts).bind fun owner oneLineOwner =>
      (gives_fieldRef texts.1 oneLineOwner).bind fun field ofField =>
        (gives_load objectTexts).bind fun objectLoad ofObject =>
          (gives_load texts.2).map fun valueLoad ofValue => ?_
    exact oneLineCode_cons.2 ⟨ofObject, oneLineCode_cons.2 ⟨ofValue, oneLineCode_singleton.2 ofField⟩⟩
  | binary | getField => exact .error _

end

end Scope

/-- The code of a method shows nothing but what its instructions do. -/
theorem Method.gives_code {method : Method} {className : String} (oneLineClass : OneLine className)
    (texts : ∀ instr ∈ method.instrs, AllOneLine instr.texts) :
    Gives OneLineCode (method.code className) := by
  intro code generated machineInstr member
  rcases Method.exists_part_of_mem_code generated member with
    ⟨instr, isInstr, part, instrGenerated, inside⟩ | rfl
  · have oneLineScope : OneLine (method.scope className).className := oneLineClass
    exact Scope.gives_statementCode oneLineScope (texts instr isInstr) part instrGenerated machineInstr inside
  · exact List.forall_mem_nil _

end Stackwright
