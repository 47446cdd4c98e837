import Stackwright.Lowering.Text
import Stackwright.Proofs.Code.Reading
import Stackwright.Proofs.Lowering.Derivation

/-!
Contract: the text of lowered code as a text that can be read back.

Owns:
- symbols and trees whose names are told from the text around them;
- lowering such trees gives instructions of which the same holds;
- the text of lowered code is read back as the code, so no two pieces of code have one text.

Names are asked for what is written down and for nothing else: a call target that is an import is
written as the import and not by the name that stood in the tree. Temporaries are identifiers
themselves.
-/

namespace Stackwright

/-- Imports are paths, and the results of methods are well named. -/
structure Symbols.WellNamed (symbols : Symbols) : Prop where
  imports : ∀ path ∈ symbols.imports, IsPath path.toList
  results : ∀ signature ∈ symbols.signatures, signature.result.WellNamed

mutual

/-- Variables and methods are identifiers, and types are well named. -/
def Node.WellNamed (symbols : Symbols) : Node → Prop
  | .int _ | .bool _ | .receiver => True
  | .varRef name ty => (Operand.variable name ty).WellNamed
  | .binary _ left right ty => left.WellNamed symbols ∧ right.WellNamed symbols ∧ ty.WellNamed
  | .call target method args =>
    (target.staticTarget? symbols = none → target.WellNamed symbols) ∧ IsIdentifier method.toList ∧
      Node.AllWellNamed symbols args
  | .assign name ty value => (Operand.variable name ty).WellNamed ∧ value.WellNamed symbols
  | .ret value ty => value.WellNamed symbols ∧ ty.WellNamed
  | .retBare ty => ty.WellNamed
  | .block children => Node.AllWellNamed symbols children

def Node.AllWellNamed (symbols : Symbols) : List Node → Prop
  | [] => True
  | node :: rest => node.WellNamed symbols ∧ Node.AllWellNamed symbols rest

end

/-- Instructions that a well-named body is lowered to. -/
def IsWellNamedCode (instrs : List Instr) : Prop :=
  ∃ symbols body before after, symbols.WellNamed ∧ Node.AllWellNamed symbols body ∧
    (Node.lowerBody symbols body).run before = .ok instrs after

/-! ### Names of lowered code -/

theorem isIdentifier_tempName (index : Nat) : IsIdentifier (tempName index).toList := by
  have chars : (tempName index).toList = "tmp".toList ++ (toString index).toList := String.toList_append
  have digits : (toString index).toList.all isNameChar = true := by
    rw [List.all_eq_true]
    exact fun char member => isNameChar_of_isDigit ((isNumeral_repr index).2 char member)
  rw [chars]
  refine ⟨List.cons_ne_nil _ _, ?_, rfl⟩
  rw [List.all_append, digits]
  rfl

theorem Operand.wellNamed_int (value : Int32) : (Operand.int value).WellNamed :=
  ⟨literalKind_int value.toInt, nofun⟩

theorem Operand.wellNamed_bool (value : Bool) : (Operand.bool value).WellNamed :=
  ⟨literalKind_bool value, nofun⟩

section Derivations

variable {symbols : Symbols}

theorem Symbols.WellNamed.resultOf (wellNamed : symbols.WellNamed) (method : String) :
    (symbols.resultOf method).WellNamed := by
  rw [Symbols.resultOf, Symbols.result?, Symbols.signature?]
  cases found : symbols.signatures.find? fun signature => signature.name = method with
  | none => exact nofun
  | some signature => exact wellNamed.results signature (List.mem_of_find?_eq_some found)

theorem Symbols.WellNamed.resolveImport? (wellNamed : symbols.WellNamed) {name path : String}
    (resolves : symbols.resolveImport? name = some path) : IsPath path.toList :=
  wellNamed.imports path (List.mem_of_find?_eq_some resolves)

/-- What is well named about the result of lowering a tree. -/
structure Lowered.WellNamed (lowered : Lowered) : Prop where
  value : ∀ operand, lowered.value? = some operand → operand.WellNamed
  instrs : ∀ instr ∈ lowered.instrs, instr.WellNamed

theorem Lowered.WellNamed.of_computed {before : List Instr} {source : Instr} {temps : Temps} {ty : Ty}
    (wellNamedBefore : ∀ instr ∈ before, instr.WellNamed) (isSource : source.IsSource)
    (tyNamed : ty.WellNamed) : (Lowered.computed temps.draw.1 ty before source).WellNamed where
  value operand isValue := by
    cases isValue
    exact ⟨isIdentifier_tempName _, tyNamed⟩
  instrs := by
    show ∀ instr ∈ before ++ [_], instr.WellNamed
    rw [List.forall_mem_append, List.forall_mem_singleton]
    exact ⟨wellNamedBefore, ⟨isIdentifier_tempName _, tyNamed⟩, isSource⟩

theorem Lowered.WellNamed.of_value {operand : Operand} (wellNamed : operand.WellNamed) :
    (Lowered.ofValue operand).WellNamed where
  value other isValue := by
    cases isValue
    exact wellNamed
  instrs := nofun

theorem Lowered.WellNamed.of_instrs {instrs : List Instr} (wellNamed : ∀ instr ∈ instrs, instr.WellNamed) :
    (Lowered.ofInstrs instrs).WellNamed where
  value := nofun
  instrs := wellNamed

mutual

/-- A well-named tree is lowered to well-named instructions, and its value is well named, too. -/
theorem Lowers.wellNamed (wellNamed : symbols.WellNamed) {before after : Temps} {node : Node}
    {lowered : Lowered} :
    Lowers symbols before node lowered after → node.WellNamed symbols → lowered.WellNamed
  | .int _ value, _ => .of_value (Operand.wellNamed_int value)
  | .bool _ value, _ => .of_value (Operand.wellNamed_bool value)
  | .varRef _ _ _, named => .of_value named
  | .receiver _, _ => .of_value trivial
  | .binary _ _ lowersLeft lowersRight, ⟨leftNamed, rightNamed, tyNamed⟩ => by
    have left := lowersLeft.wellNamed wellNamed leftNamed
    have right := lowersRight.wellNamed wellNamed rightNamed
    apply Lowered.WellNamed.of_computed
    · exact List.forall_mem_append.2 ⟨left.instrs, right.instrs⟩
    · exact ⟨left.value _ rfl, right.value _ rfl, tyNamed⟩
    · exact tyNamed
  | .callVoid lowersTarget lowersArgs _, ⟨targetNamed, methodNamed, argsNamed⟩ => by
    have target := lowersTarget.wellNamed wellNamed targetNamed
    have args := lowersArgs.wellNamed wellNamed argsNamed
    apply Lowered.WellNamed.of_instrs
    rw [List.forall_mem_append, List.forall_mem_append, List.forall_mem_singleton]
    exact ⟨⟨target.2, args.2⟩, target.1, ⟨_, rfl, methodNamed⟩, args.1, wellNamed.resultOf _⟩
  | .callValue lowersTarget lowersArgs _, ⟨targetNamed, methodNamed, argsNamed⟩ => by
    have target := lowersTarget.wellNamed wellNamed targetNamed
    have args := lowersArgs.wellNamed wellNamed argsNamed
    apply Lowered.WellNamed.of_computed
    · exact List.forall_mem_append.2 ⟨target.2, args.2⟩
    · exact ⟨target.1, ⟨_, rfl, methodNamed⟩, args.1, wellNamed.resultOf _⟩
    · exact wellNamed.resultOf _
  | .assign _ _ lowersValue, ⟨targetNamed, valueNamed⟩ => by
    have value := lowersValue.wellNamed wellNamed valueNamed
    apply Lowered.WellNamed.of_instrs
    rw [List.forall_mem_append, List.forall_mem_singleton]
    exact ⟨value.instrs, targetNamed, value.value _ rfl⟩
  | .retVoid lowersValue, ⟨valueNamed, tyNamed⟩ => by
    apply Lowered.WellNamed.of_instrs
    rw [List.forall_mem_append, List.forall_mem_singleton]
    exact ⟨(lowersValue.wellNamed wellNamed valueNamed).instrs, tyNamed⟩
  | .retValue notVoid lowersValue, ⟨valueNamed, tyNamed⟩ => by
    have value := lowersValue.wellNamed wellNamed valueNamed
    apply Lowered.WellNamed.of_instrs
    rw [List.forall_mem_append, List.forall_mem_singleton]
    exact ⟨value.instrs, notVoid, tyNamed, value.value _ rfl⟩
  | .retBare _ _, tyNamed => .of_instrs (List.forall_mem_singleton.2 tyNamed)
  | .block lowersChildren, childrenNamed => .of_instrs (lowersChildren.wellNamed wellNamed childrenNamed)

theorem LowersTarget.wellNamed (wellNamed : symbols.WellNamed) {before after : Temps} {target : Node}
    {loweredTarget : LoweredTarget} :
    LowersTarget symbols before target loweredTarget after →
      (target.staticTarget? symbols = none → target.WellNamed symbols) →
        Call.NamesTarget loweredTarget.kind loweredTarget.operand ∧
          ∀ instr ∈ loweredTarget.instrs, instr.WellNamed
  | .imported names, _ => by
    refine ⟨.imported ?_, nofun⟩
    cases target with
    | varRef name ty => exact wellNamed.resolveImport? names
    | int | bool | receiver | binary | call | assign | ret | retBare | block => cases names
  | .object namesNone lowers, targetNamed => by
    have object := lowers.wellNamed wellNamed (targetNamed namesNone)
    exact ⟨.object (object.value _ rfl), object.instrs⟩

theorem LowersArgs.wellNamed (wellNamed : symbols.WellNamed) {before after : Temps} {args : List Node}
    {loweredArgs : LoweredArgs} :
    LowersArgs symbols before args loweredArgs after → Node.AllWellNamed symbols args →
      (∀ operand ∈ loweredArgs.operands, operand.WellNamed) ∧
        ∀ instr ∈ loweredArgs.instrs, instr.WellNamed
  | .nil _, _ => ⟨nofun, nofun⟩
  | .cons lowersArg lowersRest, ⟨argNamed, restNamed⟩ => by
    have arg := lowersArg.wellNamed wellNamed argNamed
    have rest := lowersRest.wellNamed wellNamed restNamed
    exact ⟨List.forall_mem_cons.2 ⟨arg.value _ rfl, rest.1⟩,
      List.forall_mem_append.2 ⟨arg.instrs, rest.2⟩⟩

theorem LowersAll.wellNamed (wellNamed : symbols.WellNamed) {before after : Temps}
    {statements : List Node} {instrs : List Instr} :
    LowersAll symbols before statements instrs after → Node.AllWellNamed symbols statements →
      ∀ instr ∈ instrs, instr.WellNamed
  | .nil _, _ => nofun
  | .cons lowersStatement lowersRest, ⟨statementNamed, restNamed⟩ => by
    have statement := lowersStatement.wellNamed wellNamed statementNamed
    exact List.forall_mem_append.2 ⟨statement.instrs, lowersRest.wellNamed wellNamed restNamed⟩

end

end Derivations

/-! ### Lowered code is read back -/

theorem IsWellNamedCode.wellNamed {instrs : List Instr} (isCode : IsWellNamedCode instrs) :
    ∀ instr ∈ instrs, instr.WellNamed := by
  obtain ⟨symbols, body, before, after, symbolsNamed, bodyNamed, finished⟩ := isCode
  exact (lowerBody_eq_ok_iff.1 finished).wellNamed symbolsNamed bodyNamed

/-- Lowered code is read back from its text. -/
theorem readInstrs?_computationText {instrs : List Instr} {text : String} (isCode : IsWellNamedCode instrs)
    (written : (Lowered.ofInstrs instrs).computationText = .ok text) : readInstrs? text = some instrs := by
  simp only [Lowered.computationText, Lowered.ofInstrs, bind_eq_ok_iff, pure_eq_ok_iff] at written
  obtain ⟨texts, textsWritten, rfl⟩ := written
  exact readInstrs?_unlines isCode.wellNamed textsWritten

/-- No two pieces of lowered code have one text. -/
theorem lowered_text_unambiguous {first second : List Instr} {text : String}
    (firstIsCode : IsWellNamedCode first) (secondIsCode : IsWellNamedCode second)
    (firstWritten : (Lowered.ofInstrs first).computationText = .ok text)
    (secondWritten : (Lowered.ofInstrs second).computationText = .ok text) :
    first = second ∧ readInstrs? text = some first := by
  have readFirst := readInstrs?_computationText firstIsCode firstWritten
  have readSecond := readInstrs?_computationText secondIsCode secondWritten
  exact ⟨Option.some.inj (readFirst.symm.trans readSecond), readFirst⟩

/-- The symbols of a class that reads lines from an import. -/
def readerSymbols : Symbols where
  className := "Reader"
  imports := ["util.IO"]
  signatures := [⟨"read", [.string, .int], .array (.classRef "util.Line")⟩]

/-- A body that returns what it has read from the import. -/
def readerBody (console : String) : List Node :=
  [.ret (.call (.varRef console .string) "read" [.varRef "source" .string, .int (-1)])
    (.array (.classRef "util.Line"))]

def readerCode : List Instr :=
  [.assign (.variable "tmp0" (.array (.classRef "util.Line"))) (.call
      { kind := .static, target := .variable "util.IO" (.classRef "util.IO"), method? := some "read",
        args := [.variable "source" .string, .literal "-1" .int],
        result := .array (.classRef "util.Line") }),
    .ret (.array (.classRef "util.Line")) (some (.variable "tmp0" (.array (.classRef "util.Line"))))]

def readerText : String :=
  "tmp0.array.util.Line :=.array.util.Line " ++
    "invokestatic(util.IO, \"read\", source.String, -1.i32).array.util.Line;\n" ++
    "ret.array.util.Line tmp0.array.util.Line;\n"

/-- The import is written by its path, whether the tree has its path or its last segment, and blocks
leave no trace: the code is the same. -/
theorem lowered_text_unambiguous_of_reader :
    (Lowered.ofInstrs readerCode).computationText = .ok readerText ∧
      readInstrs? readerText = some readerCode := by
  have symbolsNamed : readerSymbols.WellNamed := ⟨by decide, by decide⟩
  have bodyNamed (console : String) (resolves : (Node.varRef console .string).staticTarget? readerSymbols ≠ none) :
      Node.AllWellNamed readerSymbols (readerBody console) :=
    ⟨⟨⟨fun unresolved => absurd unresolved resolves, by decide, ⟨by decide, by decide⟩, trivial, trivial⟩,
      by decide⟩, trivial⟩
  have firstIsCode : IsWellNamedCode readerCode :=
    ⟨readerSymbols, readerBody "IO", {}, _, symbolsNamed, bodyNamed "IO" (by decide), rfl⟩
  have secondIsCode : IsWellNamedCode readerCode :=
    ⟨readerSymbols, [.block (readerBody "util.IO")], {}, _, symbolsNamed,
      ⟨bodyNamed "util.IO" (by decide), trivial⟩, rfl⟩
  have written : (Lowered.ofInstrs readerCode).computationText = .ok readerText := by rfl
  exact ⟨written, (lowered_text_unambiguous firstIsCode secondIsCode written written).2⟩

/-- A class may not be named like a type of another kind: its operands would be written alike. -/
example : (Operand.variable "x" (.classRef "i32")).text = (Operand.variable "x" .int).text := rfl

end Stackwright
