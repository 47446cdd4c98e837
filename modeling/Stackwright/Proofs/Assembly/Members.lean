import Mathlib.Data.List.Forall2
import Stackwright.Proofs.Assembly.Text
import Stackwright.Proofs.Generation.OneLine

/-!
Contract: the members of a class, found again in its text.

Owns:
- the names and literals that the text of a class shows, and the condition that they and the
  indent leave lines alone;
- the kinds of line that structure a text, told apart by how they start, and the blocks of lines
  that methods are;
- what the lines of members show of them;
- the text of a class taken apart: its field lines, and one section for the default constructor
  and for each generated method, as long as no name reaches over a line.

No assumption is made on names other than that: a name may itself be called as a directive is.
-/

namespace Stackwright

/-! ### What is shown of a class -/

def Field.texts (field : Field) : List String :=
  field.name :: field.ty.classNames

def Method.texts (method : Method) : List String :=
  method.name :: (method.params.flatMap (·.ty.classNames) ++ method.result.classNames ++
    method.instrs.flatMap Instr.texts)

/-- The names and literals that the text of a class shows. -/
def ClassUnit.texts (unit : ClassUnit) : List String :=
  unit.name :: (unit.super?.toList ++ unit.fields.flatMap Field.texts ++
    unit.generated.flatMap Method.texts)

/-- The text consists of blanks and tabs. -/
def IsBlank (text : String) : Prop :=
  ∀ char ∈ text.toList, char = ' ' ∨ char = '\t'

instance (text : String) : Decidable (IsBlank text) :=
  List.decidableBAll (fun char => char = ' ' ∨ char = '\t') text.toList

/-- No name, literal or default superclass reaches over a line, and lines are indented by blanks
and tabs. -/
structure ClassUnit.KeepsLines (unit : ClassUnit) (options : Options) : Prop where
  texts : AllOneLine unit.texts
  defaultSuper : OneLine options.defaultSuper
  indent : IsBlank options.indent

/-! ### Kinds of line -/

def isFieldLine (line : String) : Bool :=
  Opens ".field " line

def isMethodLine (line : String) : Bool :=
  Opens ".method " line

/-- The lines from each start of a method up to the next one. -/
def methodSections (text : String) : List (List String) :=
  sectionsAt isMethodLine (splitAtNewlines text)

/-- How the lines start by which the text is taken apart. -/
def memberDirectives : List String :=
  [".field ", ".method ", ".end method"]

/-- The line starts as none of the lines by which the text is taken apart. -/
def IsOrdinary (line : String) : Prop :=
  ∀ directive ∈ memberDirectives, ¬Opens directive line

instance (line : String) : Decidable (IsOrdinary line) :=
  inferInstanceAs (Decidable (∀ directive ∈ memberDirectives, ¬Opens directive line))

namespace IsOrdinary

variable {line : String}

theorem not_field (ordinary : IsOrdinary line) : isFieldLine line = false :=
  decide_eq_false (ordinary _ (by decide))

theorem not_method (ordinary : IsOrdinary line) : isMethodLine line = false :=
  decide_eq_false (ordinary _ (by decide))

theorem ne_end (ordinary : IsOrdinary line) : line ≠ ".end method" := by
  rintro rfl
  revert ordinary
  decide

/-- A line is ordinary if its first characters are. -/
theorem append {head : String} (apart : ∀ directive ∈ memberDirectives, Apart directive head)
    (rest : String) : IsOrdinary (head ++ rest) :=
  fun directive member => (apart directive member).not_opens (opens_append head rest)

theorem of_head (noDot : line.toList.head? ≠ some '.') : IsOrdinary line := by
  have dots : ∀ directive ∈ memberDirectives, directive.toList.head? = some '.' := by decide
  exact fun directive member => not_opens_of_head (dots directive member) noDot

/-- Indenting an ordinary line makes no directive out of it. -/
theorem indent {indent : String} (blank : IsBlank indent) (ordinary : IsOrdinary line) :
    IsOrdinary (indent ++ line) := by
  cases chars : indent.toList with
  | nil =>
    intro directive member
    rw [Opens, String.toList_append, chars, List.nil_append]
    exact ordinary directive member
  | cons char rest =>
    have isBlank := blank char (chars ▸ List.mem_cons_self)
    apply of_head
    rw [String.toList_append, chars, List.cons_append, List.head?_cons]
    rcases isBlank with rfl | rfl <;> decide

end IsOrdinary

theorem MachineInstr.isOrdinary_text (instr : MachineInstr) : IsOrdinary instr.text :=
  .of_head instr.head_text_ne

/-- A line starts in one way only. -/
theorem isMethodLine_eq_false {line : String} (isField : isFieldLine line = true) :
    isMethodLine line = false :=
  decide_eq_false ((by decide : Apart ".method " ".field ").not_opens (of_decide_eq_true isField))

theorem isFieldLine_eq_false {line : String} (isMethod : isMethodLine line = true) :
    isFieldLine line = false :=
  decide_eq_false ((by decide : Apart ".field " ".method ").not_opens (of_decide_eq_true isMethod))

/-! ### Blocks of lines -/

/-- The lines of a method, by their shape: a header, ordinary lines, and the end. -/
def IsBlock (lines : List String) : Prop :=
  ∃ header body, lines = header :: (body ++ [".end method"]) ∧ isMethodLine header = true ∧
    ∀ line ∈ body, IsOrdinary line

namespace IsBlock

variable {lines : List String}

/-- A block with the blank line after it is a section. -/
theorem isSection (block : IsBlock lines) : IsSection isMethodLine (lines ++ [""]) := by
  rcases block with ⟨header, body, rfl, isMethod, ordinary⟩
  refine ⟨header, body ++ [".end method"] ++ [""], rfl, isMethod, ?_⟩
  simp only [List.forall_mem_append, List.forall_mem_singleton]
  exact ⟨⟨fun line member => (ordinary line member).not_method, by decide⟩, by decide⟩

theorem filter_field (block : IsBlock lines) : (lines ++ [""]).filter isFieldLine = [] := by
  rcases block with ⟨header, body, rfl, isMethod, ordinary⟩
  rw [List.filter_eq_nil_iff]
  simp only [List.cons_append, List.forall_mem_cons, List.forall_mem_append]
  refine ⟨by simp [isFieldLine_eq_false isMethod], ⟨fun line member => ?_, by decide⟩, by decide⟩
  simp [(ordinary line member).not_field]

/-- A block ends once. -/
theorem count_end (block : IsBlock lines) : (lines ++ [""]).count ".end method" = 1 := by
  rcases block with ⟨header, body, rfl, isMethod, ordinary⟩
  have headerDiffers : header ≠ ".end method" := by
    rintro rfl
    revert isMethod
    decide
  have notInBody : ".end method" ∉ body := fun member => (ordinary _ member).ne_end rfl
  rw [List.cons_append, List.count_cons_of_ne headerDiffers, List.append_assoc, List.count_append,
    List.count_eq_zero_of_not_mem notInBody]
  decide

end IsBlock

theorem isOrdinary_limit {indent : String} (blank : IsBlank indent) (number : Nat) :
    IsOrdinary (indent ++ ".limit stack " ++ toString number) ∧
      IsOrdinary (indent ++ ".limit locals " ++ toString number) := by
  rw [String.append_assoc, String.append_assoc]
  exact ⟨.indent blank (.append (by decide) _), .indent blank (.append (by decide) _)⟩

theorem Method.isBlock_block (method : Method) {options : Options} (blank : IsBlank options.indent)
    (descriptor : String) (code : List MachineInstr) :
    IsBlock (method.block options descriptor code) := by
  refine ⟨_, [_, _] ++ code.map _, rfl, ?_, ?_⟩
  · apply decide_eq_true
    rw [String.append_assoc, String.append_assoc]
    exact opens_append _ _
  · simp only [List.forall_mem_append, List.forall_mem_cons, List.forall_mem_map]
    exact ⟨⟨(isOrdinary_limit blank _).1, (isOrdinary_limit blank _).2, List.forall_mem_nil _⟩,
      fun instr _ => .indent blank instr.isOrdinary_text⟩

namespace ClassUnit

/-- The lines of the default constructor, without the remark in front of it. -/
def constructorBlock (unit : ClassUnit) (options : Options) : List String :=
  [".method public <init>()V", options.indent ++ "aload_0",
    options.indent ++ "invokespecial " ++ unit.superText options ++ "/<init>()V",
    options.indent ++ "return", ".end method"]

theorem isBlock_constructorBlock (unit : ClassUnit) {options : Options} (blank : IsBlank options.indent) :
    IsBlock (unit.constructorBlock options) := by
  refine ⟨_, [_, _, _], rfl, by decide, ?_⟩
  simp only [List.forall_mem_cons]
  rw [String.append_assoc, String.append_assoc]
  exact ⟨.indent blank (by decide), .indent blank (.append (by decide) _), .indent blank (by decide),
    List.forall_mem_nil _⟩

/-- The lines of a class in front of its first method. -/
def leadingLines (unit : ClassUnit) (options : Options) (fields : List String) : List String :=
  [".class " ++ unit.access.leading ++ slashed unit.name, ".super " ++ unit.superText options, ""] ++
    fields ++ ["; default constructor"]

/-- The lines of a class, with the blank lines behind the blocks that they follow. -/
theorem linesOf_append_blank (unit : ClassUnit) (options : Options) (fields : List String)
    (blocks : List (List String)) :
    unit.linesOf options fields blocks ++ [""] =
      unit.leadingLines options fields ++
        ((unit.constructorBlock options :: blocks).map (· ++ [""])).flatten := by
  have blanks : (blocks.map fun block => "" :: block).flatten ++ [""] =
      "" :: (blocks.map (· ++ [""])).flatten := by
    induction blocks with
    | nil => rfl
    | cons block rest inductionHypothesis =>
      rw [List.map_cons, List.flatten_cons, List.append_assoc, inductionHypothesis, List.map_cons,
        List.flatten_cons, List.cons_append, List.append_assoc, List.singleton_append]
  rw [linesOf, List.append_assoc, blanks]
  simp [preamble, leadingLines, defaultConstructor, constructorBlock]

end ClassUnit

/-- Declarations with a blank line behind them, if there are any. -/
def setOff (declarations : List String) : List String :=
  if declarations.isEmpty then [] else declarations ++ [""]

theorem forall_mem_setOff {holds : String → Prop} {declarations : List String}
    (each : ∀ line ∈ declarations, holds line) (blank : holds "") : ∀ line ∈ setOff declarations, holds line := by
  unfold setOff
  split
  · exact List.forall_mem_nil _
  · rw [List.forall_mem_append, List.forall_mem_singleton]
    exact ⟨each, blank⟩

theorem filter_setOff {keeps : String → Bool} (blank : keeps "" = false) (declarations : List String) :
    (setOff declarations).filter keeps = declarations.filter keeps := by
  unfold setOff
  split
  · next isEmpty => rw [List.isEmpty_iff.1 isEmpty]
  · rw [List.filter_append, List.filter_cons_of_neg (by simp [blank]), List.filter_nil, List.append_nil]

/-! ### What the lines show -/

/-- The line shows the modifiers, the name and the descriptor of a field. -/
def Field.ShownBy (field : Field) (line : String) : Prop :=
  ∃ descriptor, field.ty.descriptor .field = .ok descriptor ∧
    line = ".field " ++ field.modifiers.leading ++ field.name ++ " " ++ descriptor

/-- The line shows the modifiers, the name and the descriptor of a method. -/
def Method.ShownBy (method : Method) (className line : String) : Prop :=
  ∃ descriptor, method.descriptor className = .ok descriptor ∧
    line = ".method " ++ method.modifiers.leading ++ method.name ++ descriptor

theorem Field.shownBy_of_assembly {field : Field} {line : String} (declared : field.assembly = .ok line) :
    field.ShownBy line := by
  rw [Field.assembly, bind_eq_ok_iff] at declared
  rcases declared with ⟨descriptor, described, written⟩
  cases written
  exact ⟨descriptor, described, rfl⟩

/-! ### Lines without newlines -/

theorem Access.oneLine_leading (access : Access) : OneLine access.leading := by
  cases access <;> decide

theorem Modifiers.oneLine_leading (modifiers : Modifiers) : OneLine modifiers.leading := by
  simp only [leading, oneLine_append]
  refine ⟨⟨modifiers.access.oneLine_leading, ?_⟩, ?_⟩
  · split <;> decide
  · split <;> decide

theorem IsBlank.oneLine {indent : String} (blank : IsBlank indent) : OneLine indent := by
  intro member
  rcases blank _ member with same | same <;> cases same

/-- A field is declared on one line, which starts as field lines do. -/
theorem Field.gives_assembly {field : Field} (texts : AllOneLine field.texts) :
    Gives OneLine field.assembly := by
  rw [Field.texts, allOneLine_cons] at texts
  refine (Ty.gives_descriptor texts.2 .field).map fun descriptor oneLine => ?_
  simp only [oneLine_append]
  exact ⟨⟨⟨⟨by decide, field.modifiers.oneLine_leading⟩, texts.1⟩, by decide⟩, oneLine⟩

theorem Field.isFieldLine_assembly {field : Field} {line : String} (declared : field.assembly = .ok line) :
    isFieldLine line = true := by
  rcases Field.shownBy_of_assembly declared with ⟨descriptor, -, rfl⟩
  apply decide_eq_true
  simp only [String.append_assoc]
  exact opens_append _ _

theorem Method.gives_descriptor {method : Method} {className : String} (texts : AllOneLine method.texts)
    (oneLineClass : OneLine className) : Gives OneLine (method.descriptor className) := by
  simp only [Method.texts, allOneLine_cons, allOneLine_append, allOneLine_flatMap] at texts
  refine gives_signatureDescriptor ?_ (Ty.allOneLine_resolve texts.2.1.2 oneLineClass)
  intro input member
  rcases List.mem_map.1 member with ⟨param, isParam, rfl⟩
  exact Ty.allOneLine_resolve (texts.2.1.1 param isParam) oneLineClass

/-- The lines of a method are lines. -/
theorem Method.gives_assembly {method : Method} {className : String} {options : Options}
    (texts : AllOneLine method.texts) (oneLineClass : OneLine className)
    (blank : IsBlank options.indent) :
    Gives AllOneLine (method.assembly className options) := by
  intro lines succeeds
  rcases Method.assembly_eq_ok_iff.1 succeeds with ⟨descriptor, code, described, generated, rfl⟩
  have oneLineDescriptor := Method.gives_descriptor texts oneLineClass descriptor described
  simp only [Method.texts, allOneLine_cons, allOneLine_append, allOneLine_flatMap] at texts
  have oneLineCode := Method.gives_code oneLineClass texts.2.2 code generated
  simp only [block, allOneLine_append, allOneLine_cons, oneLine_append]
  refine ⟨⟨⟨?_, ?_, ?_, List.forall_mem_nil _⟩, ?_⟩, by decide, List.forall_mem_nil _⟩
  · exact ⟨⟨⟨by decide, method.modifiers.oneLine_leading⟩, texts.1⟩, oneLineDescriptor⟩
  · exact ⟨⟨blank.oneLine, by decide⟩, oneLine_toString _⟩
  · exact ⟨⟨blank.oneLine, by decide⟩, oneLine_toString _⟩
  · intro line member
    rcases List.mem_map.1 member with ⟨instr, isInstr, rfl⟩
    exact oneLine_append.2 ⟨blank.oneLine, MachineInstr.oneLine_text (oneLineCode instr isInstr)⟩

namespace ClassUnit

theorem KeepsLines.oneLine_superText {unit : ClassUnit} {options : Options}
    (keepsLines : unit.KeepsLines options) : OneLine (unit.superText options) := by
  have texts := keepsLines.texts
  simp only [ClassUnit.texts, allOneLine_cons, allOneLine_append] at texts
  unfold superText
  cases super : unit.super? with
  | none => exact keepsLines.defaultSuper
  | some name =>
    rw [super] at texts
    exact oneLine_slashed (texts.2.1.1 name List.mem_cons_self)

/-- The fields of a class have declarations, which are set off from what follows. -/
theorem fieldLines_eq_ok {unit : ClassUnit} {fields : List String} (declared : unit.fieldLines = .ok fields) :
    ∃ declarations, unit.fields.map Field.assembly = declarations.map .ok ∧ fields = setOff declarations := by
  simp only [fieldLines, bind_eq_ok_iff, pure_eq_ok_iff, mapM_mapError_eq_ok_iff] at declared
  rcases declared with ⟨declarations, each, rfl⟩
  exact ⟨declarations, each, rfl⟩

theorem exists_field_of_declaration {unit : ClassUnit} {declarations : List String}
    (declared : unit.fields.map Field.assembly = declarations.map .ok) {line : String}
    (member : line ∈ declarations) : ∃ field ∈ unit.fields, field.assembly = .ok line := by
  have inMap : .ok line ∈ unit.fields.map Field.assembly := declared ▸ List.mem_map_of_mem member
  exact List.mem_map.1 inMap

section Lines

variable {unit : ClassUnit} {options : Options} {fields declarations : List String}
  {blocks : List (List String)}

theorem exists_method_of_block
    (generated : unit.generated.map (fun method => method.assembly unit.name options) = blocks.map .ok)
    {block : List String} (member : block ∈ blocks) :
    ∃ method ∈ unit.generated, method.assembly unit.name options = .ok block := by
  have inMap : .ok block ∈ unit.generated.map (fun method => method.assembly unit.name options) :=
    generated ▸ List.mem_map_of_mem member
  exact List.mem_map.1 inMap

/-- In front of the methods, the field lines are the declarations. -/
theorem filter_field_leadingLines (declared : unit.fields.map Field.assembly = declarations.map .ok) :
    (unit.leadingLines options (setOff declarations)).filter isFieldLine = declarations := by
  have allFields : declarations.filter isFieldLine = declarations := by
    rw [List.filter_eq_self]
    intro line member
    rcases exists_field_of_declaration declared member with ⟨field, -, assembled⟩
    exact field.isFieldLine_assembly assembled
  have classLine : isFieldLine (".class " ++ unit.access.leading ++ slashed unit.name) = false := by
    rw [String.append_assoc]
    exact (IsOrdinary.append (by decide) _).not_field
  have superLine : isFieldLine (".super " ++ unit.superText options) = false :=
    (IsOrdinary.append (by decide) _).not_field
  have remark : isFieldLine "; default constructor" = false := by decide
  have blank : isFieldLine "" = false := by decide
  rw [leadingLines, List.filter_append, List.filter_append, filter_setOff blank, allFields]
  simp [classLine, superLine, remark, blank]

/-- There is no start of a method in front of the methods. -/
theorem not_method_of_mem_leadingLines (declared : unit.fields.map Field.assembly = declarations.map .ok) :
    ∀ line ∈ unit.leadingLines options (setOff declarations), isMethodLine line = false := by
  have noDeclaration : ∀ line ∈ declarations, isMethodLine line = false := by
    intro line member
    rcases exists_field_of_declaration declared member with ⟨field, -, assembled⟩
    exact isMethodLine_eq_false (field.isFieldLine_assembly assembled)
  simp only [leadingLines, List.forall_mem_append, List.forall_mem_cons]
  refine ⟨⟨⟨?_, ?_, by decide, List.forall_mem_nil _⟩, forall_mem_setOff noDeclaration (by decide)⟩,
    by decide, List.forall_mem_nil _⟩
  · rw [String.append_assoc]
    exact (IsOrdinary.append (by decide) _).not_method
  · exact (IsOrdinary.append (by decide) _).not_method

/-- What is put together to the text of a class are lines. -/
theorem allOneLine_linesOf (keepsLines : unit.KeepsLines options)
    (declared : unit.fields.map Field.assembly = declarations.map .ok)
    (generated : unit.generated.map (fun method => method.assembly unit.name options) = blocks.map .ok) :
    AllOneLine (unit.linesOf options (setOff declarations) blocks) := by
  have texts := keepsLines.texts
  simp only [ClassUnit.texts, allOneLine_cons, allOneLine_append, allOneLine_flatMap] at texts
  have inDeclarations : AllOneLine declarations := by
    intro line member
    rcases exists_field_of_declaration declared member with ⟨field, isField, assembled⟩
    exact Field.gives_assembly (texts.2.1.2 field isField) line assembled
  have inFields : AllOneLine (setOff declarations) := forall_mem_setOff inDeclarations (by decide)
  have inBlocks : AllOneLine (blocks.map fun block => "" :: block).flatten := by
    intro line member
    rcases List.mem_flatten.1 member with ⟨_, isSetOff, inBlock⟩
    rcases List.mem_map.1 isSetOff with ⟨block, isBlock, rfl⟩
    rcases exists_method_of_block generated isBlock with ⟨method, isGenerated, assembled⟩
    have ofMethod := Method.gives_assembly (texts.2.2 method isGenerated) texts.1 keepsLines.indent block assembled
    exact (allOneLine_cons.2 ⟨by decide, ofMethod⟩) line inBlock
  have superText := keepsLines.oneLine_superText
  have indent := keepsLines.indent.oneLine
  simp only [linesOf, preamble, defaultConstructor, allOneLine_append, allOneLine_cons, oneLine_append]
  exact ⟨⟨⟨⟨⟨⟨by decide, unit.access.oneLine_leading⟩, oneLine_slashed texts.1⟩, ⟨by decide, superText⟩,
    by decide, List.forall_mem_nil _⟩, inFields⟩, by decide, by decide, ⟨indent, by decide⟩,
    ⟨⟨⟨indent, by decide⟩, superText⟩, by decide⟩, ⟨indent, by decide⟩, by decide, List.forall_mem_nil _⟩, inBlocks⟩

end Lines

/-! ### The text taken apart -/

/-- The text is that of a class with the given declarations and blocks, and is told line by line. -/
structure ReadsAs (unit : ClassUnit) (options : Options) (text : String) (declarations : List String)
    (blocks : List (List String)) : Prop where
  declared : unit.fields.map Field.assembly = declarations.map .ok
  generated : unit.generated.map (fun method => method.assembly unit.name options) = blocks.map .ok
  pieces : splitAtNewlines text =
    unit.leadingLines options (setOff declarations) ++
      ((unit.constructorBlock options :: blocks).map (· ++ [""])).flatten

/-- A class that keeps its lines is told by them, whatever blocks its methods have. -/
theorem exists_readsAs {unit : ClassUnit} {options : Options} {fields : List String}
    {blocks : List (List String)} (keepsLines : unit.KeepsLines options)
    (fieldsSucceed : unit.fieldLines = .ok fields)
    (generated : unit.generated.map (fun method => method.assembly unit.name options) = blocks.map .ok) :
    ∃ declarations,
      unit.ReadsAs options (unlines (unit.linesOf options fields blocks)) declarations blocks := by
  rcases fieldLines_eq_ok fieldsSucceed with ⟨declarations, declared, rfl⟩
  refine ⟨declarations, declared, generated, ?_⟩
  rw [splitAtNewlines_unlines (allOneLine_linesOf keepsLines declared generated), linesOf_append_blank]

namespace ReadsAs

variable {unit : ClassUnit} {options : Options} {text : String} {declarations : List String}
  {blocks : List (List String)}

theorem isBlock (reads : unit.ReadsAs options text declarations blocks) (blank : IsBlank options.indent) :
    ∀ block ∈ unit.constructorBlock options :: blocks, IsBlock block := by
  rw [List.forall_mem_cons]
  refine ⟨unit.isBlock_constructorBlock blank, fun block member => ?_⟩
  rcases exists_method_of_block reads.generated member with ⟨method, -, assembled⟩
  rcases Method.assembly_eq_ok_iff.1 assembled with ⟨descriptor, code, -, -, rfl⟩
  exact method.isBlock_block blank descriptor code

theorem isSection (reads : unit.ReadsAs options text declarations blocks) (blank : IsBlank options.indent) :
    ∀ lines ∈ (unit.constructorBlock options :: blocks).map (· ++ [""]), IsSection isMethodLine lines := by
  intro lines member
  rcases List.mem_map.1 member with ⟨block, isOne, rfl⟩
  exact (reads.isBlock blank block isOne).isSection

/-- The field lines of the text are the declarations. -/
theorem filter_field (reads : unit.ReadsAs options text declarations blocks) (blank : IsBlank options.indent) :
    (splitAtNewlines text).filter isFieldLine = declarations := by
  have noneInBlocks : ((unit.constructorBlock options :: blocks).map (· ++ [""])).flatten.filter isFieldLine =
      [] := by
    rw [List.filter_flatten, List.flatten_eq_nil_iff]
    intro kept member
    rcases List.mem_map.1 member with ⟨lines, isSetOff, rfl⟩
    rcases List.mem_map.1 isSetOff with ⟨block, isOne, rfl⟩
    exact (reads.isBlock blank block isOne).filter_field
  rw [reads.pieces, List.filter_append, noneInBlocks, List.append_nil, filter_field_leadingLines reads.declared]

/-- The sections of the text are the blocks, each with a blank line behind it. -/
theorem methodSections_eq (reads : unit.ReadsAs options text declarations blocks)
    (blank : IsBlank options.indent) :
    methodSections text = (unit.constructorBlock options :: blocks).map (· ++ [""]) := by
  rw [methodSections, reads.pieces]
  exact sectionsAt_flatten (not_method_of_mem_leadingLines reads.declared) (reads.isSection blank)

/-- The method lines of the text are the first lines of the sections. -/
theorem filter_method (reads : unit.ReadsAs options text declarations blocks) (blank : IsBlank options.indent) :
    (splitAtNewlines text).filter isMethodLine = (methodSections text).filterMap List.head? := by
  have noneBefore : (unit.leadingLines options (setOff declarations)).filter isMethodLine = [] := by
    rw [List.filter_eq_nil_iff]
    intro line member
    simp [not_method_of_mem_leadingLines reads.declared line member]
  rw [reads.methodSections_eq blank, reads.pieces, List.filter_append, noneBefore, List.nil_append,
    filter_flatten_sections (reads.isSection blank)]

end ReadsAs

end ClassUnit

/-- The lines are the section of a method: its header, its two limits, a line for each of its
machine instructions, its end, and the blank line behind it. -/
def Method.HasSection (method : Method) (className : String) (options : Options) (lines : List String) :
    Prop :=
  ∃ header code, method.ShownBy className header ∧ method.code className = .ok code ∧
    lines =
      [header,
        options.indent ++ ".limit stack " ++ toString (options.limits.ofCode method code).1,
        options.indent ++ ".limit locals " ++ toString (options.limits.ofCode method code).2] ++
      code.map (fun instr => options.indent ++ instr.text) ++
      [".end method", ""]

/-- The block of a method, with a blank line behind it, is its section. -/
theorem Method.hasSection_of_assembly {method : Method} {className : String} {options : Options}
    {block : List String} (assembled : method.assembly className options = .ok block) :
    method.HasSection className options (block ++ [""]) := by
  rcases assembly_eq_ok_iff.1 assembled with ⟨descriptor, code, described, generated, rfl⟩
  exact ⟨_, code, ⟨descriptor, described, rfl⟩, generated,
    by rw [Method.block, List.append_assoc]; rfl⟩

/-- Members that all have their part of a text have these parts in their order. -/
theorem forall₂_of_map_eq_ok {Member Part ε : Type} {emit : Member → Except ε Part}
    {members : List Member} {parts : List Part} (emitted : members.map emit = parts.map .ok) :
    List.Forall₂ (fun member part => emit member = .ok part) members parts := by
  rwa [← List.forall₂_eq_eq_eq, List.forall₂_map_left_iff, List.forall₂_map_right_iff] at emitted

/-- The first lines of blocks show their methods. -/
theorem heads_show_methods {className : String} {options : Options} {methods : List Method}
    {blocks : List (List String)}
    (assembled : List.Forall₂ (fun method block => method.assembly className options = .ok block)
      methods blocks) :
    List.Forall₂ (fun method line => method.ShownBy className line) methods
      ((blocks.map (· ++ [""])).filterMap List.head?) := by
  induction assembled with
  | nil => exact .nil
  | cons first _ inductionHypothesis =>
    rcases Method.hasSection_of_assembly first with ⟨header, code, shows, -, section_eq⟩
    rw [List.map_cons, section_eq]
    exact .cons shows inductionHypothesis

namespace ClassUnit

/-- The members of a class are found again between the newlines of its text: its fields, and the
default constructor and the generated methods, each up to its end. -/
structure SplitsBack (unit : ClassUnit) (options : Options) (text : String) : Prop where
  /-- The field lines show the fields, in their order. -/
  fields : List.Forall₂ Field.ShownBy unit.fields ((splitAtNewlines text).filter isFieldLine)
  /-- The method lines open the default constructor and show the generated methods, in their order. -/
  headers : ∃ headers, (splitAtNewlines text).filter isMethodLine = ".method public <init>()V" :: headers ∧
    List.Forall₂ (fun method line => method.ShownBy unit.name line) unit.generated headers
  /-- From each method line to the next one, one line ends a method. -/
  terminators : ∀ lines ∈ methodSections text, lines.count ".end method" = 1
  /-- What a generated method is in full, up to its end and the blank line behind it. -/
  sections : ∃ sections, methodSections text = (unit.constructorBlock options ++ [""]) :: sections ∧
    sections.length = unit.generated.length ∧
    ∀ (index : Nat) (method : Method) lines, unit.generated[index]? = some method →
      sections[index]? = some lines →
      method.HasSection unit.name options lines
  /-- Constructors do not make a difference. -/
  noConstructor : ({ unit with methods := unit.generated } : ClassUnit).assembly options = .ok text
  /-- In another class of that name, a method that is the only one to be generated has the same section. -/
  alone : ∀ (other : ClassUnit) (index : Nat) (method : Method) lines, unit.generated[index]? = some method →
    (methodSections text)[index + 1]? = some lines →
    other.name = unit.name → other.generated = [method] → other.KeepsLines options →
    (∃ fields, other.fieldLines = .ok fields) →
    ∃ otherText, other.assembly options = .ok otherText ∧
      methodSections otherText = [other.constructorBlock options ++ [""], lines]

/-- Constructors are no part of the text. -/
theorem assembly_generated (unit : ClassUnit) (options : Options) :
    ({ unit with methods := unit.generated } : ClassUnit).assembly options = unit.assembly options := by
  have same : ({ unit with methods := unit.generated } : ClassUnit).generated = unit.generated := by
    simp only [generated, List.filter_filter, Bool.and_self]
  simp only [assembly, assemblyLines, same]
  rfl

theorem ReadsAs.assembly_of_index {unit : ClassUnit} {options : Options} {text : String}
    {declarations : List String} {blocks : List (List String)}
    (reads : unit.ReadsAs options text declarations blocks) {index : Nat} {method : Method}
    {lines : List String} (isGenerated : unit.generated[index]? = some method)
    (isSetOff : (blocks.map (· ++ [""]))[index]? = some lines) :
    ∃ block, method.assembly unit.name options = .ok block ∧ lines = block ++ [""] := by
  rw [List.getElem?_map, Option.map_eq_some_iff] at isSetOff
  rcases isSetOff with ⟨block, isBlock, rfl⟩
  have sameIndex := congrArg (·[index]?) reads.generated
  simp only [List.getElem?_map, isGenerated, isBlock, Option.map_some, Option.some.injEq] at sameIndex
  exact ⟨block, sameIndex, rfl⟩

/-- A class is found again in its text, member by member, unless a name reaches over a line. -/
theorem assembly_splits_back {unit : ClassUnit} {options : Options} {text : String}
    (keepsLines : unit.KeepsLines options) (succeeds : unit.assembly options = .ok text) :
    unit.SplitsBack options text := by
  rcases assembly_eq_ok_iff.1 succeeds with ⟨fields, blocks, fieldsSucceed, generated, rfl⟩
  rcases exists_readsAs keepsLines fieldsSucceed generated with ⟨declarations, reads⟩
  have blank := keepsLines.indent
  have sections := reads.methodSections_eq blank
  rw [List.map_cons] at sections
  have sameLength : blocks.length = unit.generated.length := by
    have lengths := congrArg List.length reads.generated
    rw [List.length_map, List.length_map] at lengths
    exact lengths.symm
  have heads := heads_show_methods (forall₂_of_map_eq_ok reads.generated)
  refine ⟨?_, ⟨_, ?_, heads⟩, ?_, ⟨_, sections, ?_, ?_⟩, ?_, ?_⟩
  · rw [reads.filter_field blank]
    exact (forall₂_of_map_eq_ok reads.declared).imp fun _ _ => Field.shownBy_of_assembly
  · rw [reads.filter_method blank, sections]
    rfl
  · intro lines member
    rw [reads.methodSections_eq blank] at member
    rcases List.mem_map.1 member with ⟨block, isOne, rfl⟩
    exact (reads.isBlock blank block isOne).count_end
  · rw [List.length_map, sameLength]
  · intro index method lines isGenerated isSetOff
    rcases reads.assembly_of_index isGenerated isSetOff with ⟨block, assembled, rfl⟩
    exact Method.hasSection_of_assembly assembled
  · rw [assembly_generated, succeeds]
  · intro other index method lines isGenerated isSetOff sameName onlyMethod otherKeeps ⟨fields, declared⟩
    -- The block depends on nothing of the class but its name.
    rw [sections, List.getElem?_cons_succ] at isSetOff
    rcases reads.assembly_of_index isGenerated isSetOff with ⟨block, assembled, rfl⟩
    have otherGenerated : other.generated.map (fun method => method.assembly other.name options) =
        [block].map .ok := by
      rw [onlyMethod, sameName, List.map_singleton, assembled, List.map_singleton]
    rcases exists_readsAs otherKeeps declared otherGenerated with ⟨otherDeclarations, otherReads⟩
    exact ⟨_, assembly_eq_ok_iff.2 ⟨fields, [block], declared, otherGenerated, rfl⟩,
      otherReads.methodSections_eq blank⟩

end ClassUnit

/-- A class with a constructor among its methods. One field and one method are called as
directives are. -/
def counterUnit : ClassUnit where
  name := "Counter"
  access := .publicAccess
  fields := [
    { name := "count", ty := .int, modifiers := { access := .privateAccess } },
    { name := ".method", ty := .classRef "Counter" }]
  methods := [
    { name := "plus"
      params := [⟨"count", .int⟩]
      result := .int
      instrs := [.ret .int (some (.variable "count" .int))] },
    { name := "Counter", params := [], result := .void, isConstructor := true },
    { name := ".end method", params := [], result := .void }]

/-- The text of that class. -/
def counterText : String := unlines [
  ".class public Counter", ".super java/lang/Object", "",
  ".field private count I", ".field .method LCounter;", "",
  "; default constructor", ".method public <init>()V",
  "    aload_0", "    invokespecial java/lang/Object/<init>()V", "    return", ".end method",
  "",
  ".method plus(I)I", "    .limit stack 99", "    .limit locals 99",
  "    iload_1", "    ireturn", ".end method",
  "",
  ".method .end method()V", "    .limit stack 99", "    .limit locals 99", "    return", ".end method"]

theorem ClassUnit.assembly_splits_back_of_counter :
    counterUnit.KeepsLines {} ∧ counterUnit.assembly {} = .ok counterText ∧
      counterUnit.SplitsBack {} counterText := by
  have keepsLines : counterUnit.KeepsLines {} := ⟨by decide, by decide, by decide⟩
  have succeeds : counterUnit.assembly {} = .ok counterText := rfl
  exact ⟨keepsLines, succeeds, ClassUnit.assembly_splits_back keepsLines succeeds⟩

end Stackwright
