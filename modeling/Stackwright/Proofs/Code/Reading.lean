import Stackwright.Code.Text
import Stackwright.Proofs.Machine.Verifier
import Stackwright.Proofs.Ty.Suffix

/-!
Contract: the text of instructions as a text that can be read back.

Owns:
- operands, calls and statements whose names are told from the text around them;
- the reader of operands, calls and statements, by their words;
- a statement is read back from the words of its text, and a sequence of statements from its lines.

The words of a text do not tell which marks stood between them. They need not: how many words there
are, and whether the first one is that of a call, decides the form of a statement.
-/

namespace Stackwright

/-! ### Well-formed names -/

/-- The operand is written as a number, an identifier or the receiver. -/
def Operand.WellNamed : Operand → Prop
  | .literal text ty => literalKind? text = some .int ∧ ty.WellNamed
  | .variable name ty => IsIdentifier name.toList ∧ ty.WellNamed
  | .receiver => True

/-- A call is addressed to an object, or to a class that is written as the path of an import. -/
inductive Call.NamesTarget : CallKind → Operand → Prop where
  | object {target : Operand} (wellNamed : target.WellNamed) : Call.NamesTarget .virtual target
  | imported {path : String} (isPath : IsPath path.toList) :
      Call.NamesTarget .static (.variable path (.classRef path))

/-- A method is called by an identifier, and all else about the call is well named, too. -/
structure Call.WellNamed (call : Call) : Prop where
  target : Call.NamesTarget call.kind call.target
  method : ∃ name, call.method? = some name ∧ IsIdentifier name.toList
  args : ∀ arg ∈ call.args, arg.WellNamed
  result : call.result.WellNamed

namespace Instr

/-- An instruction that may be assigned, and whose names are well formed. -/
def IsSource : Instr → Prop
  | .single operand => operand.WellNamed
  | .binary _ left right ty => left.WellNamed ∧ right.WellNamed ∧ ty.WellNamed
  | .call invocation => invocation.WellNamed
  | .assign _ _ | .ret _ _ | .putField _ _ | .getField _ => False

/-- A statement of one of the forms that trees are lowered to, and whose names are well formed. -/
def WellNamed : Instr → Prop
  | .assign (.variable name ty) source =>
    (Operand.variable name ty).WellNamed ∧ source.IsSource
  | .call invocation => invocation.WellNamed
  | .ret ty none => ty.WellNamed
  | .ret ty (some value) => ty ≠ .void ∧ ty.WellNamed ∧ value.WellNamed
  | .assign (.literal _ _) _ | .assign .receiver _ | .single _ | .binary _ _ _ _ | .putField _ _
  | .getField _ => False

end Instr

/-! ### The reader -/

/-- Whether a character may stand in an integer constant. -/
def isNumberChar (char : Char) : Bool :=
  char.isDigit || char == '-'

/-- Whether a word begins as numbers do. -/
def startsNumber (word : List Char) : Bool :=
  word.head?.any isNumberChar

/-- Reads an operand. The receiver is the only one without a suffix. -/
def readOperand? (word : List Char) : Option Operand :=
  if word = "this".toList then
    some .receiver
  else
    (readTyped? word).map fun (name, ty) =>
      if startsNumber name then .literal (String.ofList name) ty
      else .variable (String.ofList name) ty

def operators : List Operator :=
  [.add, .sub, .mul, .div, .less, .and]

def readOperator? (word : List Char) : Option Operator :=
  operators.find? fun operator => operator.text.toList = word

/-- The kinds of call that trees are lowered to. -/
def readKind? (word : List Char) : Option CallKind :=
  [CallKind.virtual, .static].find? fun kind => kind.text.toList = word

/-- Reads the target of a call: the path of an import stands there without a suffix. -/
def readTarget? (kind : CallKind) (word : List Char) : Option Operand :=
  if kind = .static then
    some (.variable (String.ofList word) (.classRef (String.ofList word)))
  else
    readOperand? word

/-- Reads the words of a call: kind, target, method, arguments and, at the end, the result. -/
def readCall? : List (List Char) → Option Call
  | kindWord :: targetWord :: method :: next :: others => do
    let kind ← readKind? kindWord
    let target ← readTarget? kind targetWord
    let args ← (next :: others).dropLast.mapM readOperand?
    let (_, result) ← readTyped? (← (next :: others).getLast?)
    return { kind, target, method? := some (String.ofList method), args, result }
  | _ => none

/-- Reads the words of what is assigned. -/
def readSource? : List (List Char) → Option Instr
  | [word] => (readOperand? word).map .single
  | [left, sign, right] => do
    let (symbol, ty) ← readTyped? sign
    return .binary (← readOperator? symbol) (← readOperand? left) (← readOperand? right) ty
  | source => (readCall? source).map .call

/-- Reads the words of a statement. -/
def readInstr? : List (List Char) → Option Instr
  | [] => none
  | [ret] => (readTyped? ret).map fun (_, ty) => .ret ty none
  | [ret, value] => do
    let (_, ty) ← readTyped? ret
    return .ret ty (some (← readOperand? value))
  | first :: second :: rest =>
    match readKind? first with
    | some _ => (readCall? (first :: second :: rest)).map .call
    | none => do return .assign (← readOperand? first) (← readSource? rest)

/-- Reads a sequence of statements, each of them ended by a newline. -/
def readInstrs? (text : String) : Option (List Instr) :=
  (splitAtNewlines text).dropLast.mapM fun line => readInstr? (words line.toList)

/-! ### Operands -/

theorem number_of_literalKind? {text : String} (isInt : literalKind? text = some .int) :
    startsNumber text.toList = true ∧ ∀ char ∈ text.toList, isNumberChar char = true := by
  have isNumber : IsNumeral text.toList ∨ text.toList.head? = some '-' ∧ IsNumeral text.toList.tail := by
    apply Decidable.byContradiction
    intro noNumber
    rw [literalKind?, if_neg noNumber] at isInt
    split at isInt <;> cases isInt
  have ofDigits {digits : List Char} (isNumeral : IsNumeral digits) :
      ∀ char ∈ digits, isNumberChar char = true := by
    intro char member
    rw [isNumberChar, isNumeral.2 char member, Bool.true_or]
  cases chars : text.toList with
  | nil =>
    rw [chars] at isNumber
    obtain isNumeral | ⟨isSigned, -⟩ := isNumber
    · exact absurd rfl isNumeral.1
    · cases isSigned
  | cons first rest =>
    rw [chars] at isNumber
    have all : ∀ char ∈ first :: rest, isNumberChar char = true := by
      obtain isNumeral | ⟨isSigned, isNumeral⟩ := isNumber
      · exact ofDigits isNumeral
      · have isSign : first = '-' := Option.some.inj isSigned
        exact List.forall_mem_cons.2 ⟨isSign ▸ rfl, ofDigits isNumeral⟩
    exact ⟨all first List.mem_cons_self, all⟩

theorem IsIdentifier.startsNumber_eq {name : List Char} (isIdentifier : IsIdentifier name) :
    startsNumber name = false := by
  have noDigit := isIdentifier.noDigit
  rw [startsNumber]
  cases first : name.head? with
  | none => rfl
  | some char =>
    rw [first, Option.any_some] at noDigit
    rw [Option.any_some, isNumberChar, noDigit, Bool.false_or, beq_eq_false_iff_ne]
    intro isSign
    subst isSign
    cases isIdentifier.isNameChar_of_mem (List.mem_of_mem_head? first)

theorem isMark_of_numberChar {char : Char} (ofNumber : isNumberChar char = true) : isMark char = false := by
  rw [isNumberChar, Bool.or_eq_true, beq_iff_eq] at ofNumber
  obtain isDigit | isSign := ofNumber
  · exact isMark_of_isNameChar (isNameChar_of_isDigit isDigit)
  · rw [isSign]
    decide

namespace Operand

variable {operand : Operand} {text : String}

/-- The receiver is written bare, and any other operand as a word without dots before the suffix of
its type. The word tells a constant from a variable. -/
theorem exists_of_text (wellNamed : operand.WellNamed) (written : operand.text = .ok text) :
    operand = .receiver ∧ text = "this" ∨
      ∃ name ty suffix, text = name ++ suffix ∧ ty.suffix = .ok suffix ∧ ty.WellNamed ∧
        IsWord name.toList ∧ '.' ∉ name.toList ∧
        operand = if startsNumber name.toList then .literal name ty else .variable name ty := by
  cases operand with
  | literal number ty =>
    simp only [Operand.text, bind_eq_ok_iff, pure_eq_ok_iff] at written
    obtain ⟨suffix, suffixWritten, rfl⟩ := written
    obtain ⟨starts, ofNumber⟩ := number_of_literalKind? wellNamed.1
    have nonempty : number.toList ≠ [] := by
      intro isEmpty
      rw [isEmpty] at starts
      cases starts
    have isWord : IsWord number.toList := ⟨nonempty, fun char member => isMark_of_numberChar (ofNumber char member)⟩
    have noDot : '.' ∉ number.toList := by
      intro member
      cases ofNumber '.' member
    exact .inr ⟨number, ty, suffix, rfl, suffixWritten, wellNamed.2, isWord, noDot, (if_pos starts).symm⟩
  | «variable» name ty =>
    simp only [Operand.text, bind_eq_ok_iff, pure_eq_ok_iff] at written
    obtain ⟨suffix, suffixWritten, rfl⟩ := written
    obtain ⟨isIdentifier, tyNamed⟩ := wellNamed
    refine .inr ⟨name, ty, suffix, rfl, suffixWritten, tyNamed, isIdentifier.isWord, isIdentifier.noDot, ?_⟩
    rw [isIdentifier.startsNumber_eq, if_neg Bool.false_ne_true]
  | receiver =>
    cases written
    exact .inl ⟨rfl, rfl⟩

theorem isWord_text (wellNamed : operand.WellNamed) (written : operand.text = .ok text) :
    IsWord text.toList := by
  obtain ⟨-, rfl⟩ | ⟨name, ty, suffix, rfl, suffixWritten, tyNamed, isWord, -⟩ := exists_of_text wellNamed written
  · decide
  · exact isWord_append_suffix isWord suffixWritten tyNamed

theorem isLine_text (wellNamed : operand.WellNamed) (written : operand.text = .ok text) :
    IsLine text [text.toList] :=
  .of_word (isWord_text wellNamed written)

/-- An operand is read back from its text. -/
theorem readOperand?_text (wellNamed : operand.WellNamed) (written : operand.text = .ok text) :
    readOperand? text.toList = some operand := by
  obtain ⟨rfl, rfl⟩ | ⟨name, ty, suffix, rfl, suffixWritten, tyNamed, -, noDot, rfl⟩ :=
    exists_of_text wellNamed written
  · rfl
  · rw [String.toList_append]
    have notReceiver : name.toList ++ suffix.toList ≠ "this".toList := by
      intro same
      have isDot : '.' ∈ "this".toList := same ▸ List.mem_append_right _ (dot_mem_suffix suffixWritten tyNamed)
      revert isDot
      decide
    rw [readOperand?, if_neg notReceiver, readTyped?_append noDot suffixWritten tyNamed, Option.map_some]
    simp only [String.ofList_toList]

end Operand

/-! ### Calls -/

theorem CallKind.isWord_text (kind : CallKind) : IsWord kind.text.toList := by
  cases kind <;> decide

theorem CallKind.dot_not_mem_text (kind : CallKind) : '.' ∉ kind.text.toList := by
  cases kind <;> decide

theorem exists_of_readKind? {word : List Char} {kind : CallKind} (read : readKind? word = some kind) :
    kind.text.toList = word := by
  have found := List.find?_some read
  exact of_decide_eq_true found

theorem Call.NamesTarget.readKind?_text {kind : CallKind} {target : Operand}
    (named : Call.NamesTarget kind target) : readKind? kind.text.toList = some kind := by
  cases named <;> decide

/-- The target of a call is read back from its text and the kind of the call. -/
theorem reads_target {call : Call} {text : String} (named : Call.NamesTarget call.kind call.target)
    (written : call.targetText = .ok text) :
    IsWord text.toList ∧ readTarget? call.kind text.toList = some call.target := by
  obtain ⟨kind, target, method?, args, result⟩ := call
  cases named with
  | object wellNamed =>
    have sameText : target.text = .ok text := written
    exact ⟨target.isWord_text wellNamed sameText, Operand.readOperand?_text wellNamed sameText⟩
  | imported isPath =>
    cases written
    refine ⟨isPath.isWord, ?_⟩
    show some (Operand.variable (String.ofList text.toList) (.classRef (String.ofList text.toList))) = _
    rw [String.ofList_toList]

/-- Arguments are read back from the words that they add to a line. -/
theorem reads_args {args : List Operand} {texts : List String} (wellNamed : ∀ arg ∈ args, arg.WellNamed)
    (written : args.mapM (fun arg => do return ", " ++ (← arg.text)) = .ok texts) {before : String}
    {parts : List (List Char)} (line : IsLine before parts) :
    ∃ argWords, IsLine (before ++ String.join texts) (parts ++ argWords) ∧
      argWords.mapM readOperand? = some args := by
  induction args generalizing texts before parts with
  | nil =>
    cases written
    refine ⟨[], ?_, rfl⟩
    rw [List.append_nil]
    show IsLine (before ++ "") parts
    rwa [String.append_empty]
  | cons arg rest inductionHypothesis =>
    rw [List.forall_mem_cons] at wellNamed
    simp only [List.mapM_cons, bind_eq_ok_iff, pure_eq_ok_iff] at written
    obtain ⟨_, ⟨argText, argWritten, rfl⟩, others, othersWritten, rfl⟩ := written
    have extended := line.append_gap ", " (by decide) (Operand.isLine_text wellNamed.1 argWritten)
    obtain ⟨restWords, restLine, readRest⟩ := inductionHypothesis wellNamed.2 othersWritten extended
    refine ⟨argText.toList :: restWords, ?_, ?_⟩
    · rw [String.join_cons, ← String.append_assoc, ← String.append_assoc]
      rwa [List.append_assoc, List.singleton_append] at restLine
    · rw [List.mapM_cons, Operand.readOperand?_text wellNamed.1 argWritten, readRest]
      rfl

theorem readCall?_append (kindWord targetWord method resultWord : List Char) (argWords : List (List Char)) :
    readCall? (kindWord :: targetWord :: method :: (argWords ++ [resultWord])) = do
      let kind ← readKind? kindWord
      let target ← readTarget? kind targetWord
      let args ← argWords.mapM readOperand?
      let (_, result) ← readTyped? resultWord
      return { kind, target, method? := some (String.ofList method), args, result } := by
  cases argWords with
  | nil => rfl
  | cons argWord others =>
    rw [List.cons_append, readCall?, ← List.cons_append, List.dropLast_concat, List.getLast?_concat]
    rfl

/-- A call is read back from the words of its text. -/
theorem Call.reads_text {call : Call} {text : String} (wellNamed : call.WellNamed)
    (written : call.text = .ok text) :
    ∃ parts, IsLine text parts ∧ readCall? parts = some call := by
  obtain ⟨name, isMethod, isIdentifier⟩ := wellNamed.method
  simp only [Call.text, isMethod, bind_eq_ok_iff, pure_eq_ok_iff] at written
  obtain ⟨targetText, targetWritten, argTexts, argsWritten, resultText, resultWritten, rfl⟩ := written
  obtain ⟨isTargetWord, readTarget⟩ := reads_target wellNamed.target targetWritten
  have opened := (IsLine.of_word call.kind.isWord_text).append_gap "(" (by decide) (.of_word isTargetWord)
  have called := (opened.append_gap ", \"" (by decide) (.of_word isIdentifier.isWord)).append_end "\""
    (by decide)
  obtain ⟨argWords, argsLine, readArgs⟩ := reads_args wellNamed.args argsWritten called
  have closed := argsLine.append_gap ")" (by decide) (.of_word (isWord_suffix resultWritten wellNamed.result))
  have readResult : readTyped? resultText.toList = some ([], call.result) :=
    readTyped?_append List.not_mem_nil resultWritten wellNamed.result
  refine ⟨call.kind.text.toList :: targetText.toList :: name.toList :: (argWords ++ [resultText.toList]), ?_, ?_⟩
  · rw [List.singleton_append, String.join_cons, ← String.append_assoc, ← String.append_assoc,
      ← String.append_assoc]
    exact closed
  · simp only [readCall?_append, wellNamed.target.readKind?_text, readTarget, readArgs, readResult,
      Option.bind_eq_bind, Option.bind_some, String.ofList_toList, ← isMethod]
    rfl

/-! ### Statements -/

/-- What has the words of a call is a call, and nothing else that may be assigned. -/
theorem readSource?_of_readCall? {parts : List (List Char)} {call : Call}
    (read : readCall? parts = some call) : readSource? parts = some (.call call) := by
  unfold readSource?
  split
  · cases read
  · cases read
  · rw [read, Option.map_some]

theorem exists_of_readCall? {parts : List (List Char)} {call : Call} (read : readCall? parts = some call) :
    ∃ kindWord targetWord method next others,
      parts = kindWord :: targetWord :: method :: next :: others ∧ readKind? kindWord = some call.kind := by
  unfold readCall? at read
  split at read
  · rename_i kindWord targetWord method next others
    simp only [Option.bind_eq_bind, Option.bind_eq_some_iff] at read
    obtain ⟨kind, isKind, target, isTarget, args, areArgs, resultWord, isLast, typed, isResult, same⟩ := read
    cases same
    exact ⟨kindWord, targetWord, method, next, others, rfl, isKind⟩
  · cases read

theorem readInstr?_of_readCall? {parts : List (List Char)} {call : Call}
    (read : readCall? parts = some call) : readInstr? parts = some (.call call) := by
  obtain ⟨kindWord, targetWord, method, next, others, rfl, isKind⟩ := exists_of_readCall? read
  rw [readInstr?, isKind, read]
  · rfl
  · exact List.cons_ne_nil method (next :: others)

theorem Operator.reads_text (operator : Operator) :
    IsWord operator.text.toList ∧ '.' ∉ operator.text.toList ∧
      readOperator? operator.text.toList = some operator := by
  cases operator <;> decide

namespace Instr

variable {text : String}

/-- What is assigned is read back from the words of its text. -/
theorem reads_inlineText {source : Instr} (isSource : source.IsSource)
    (written : source.inlineText = .ok text) :
    ∃ parts, IsLine text parts ∧ readSource? parts = some source := by
  cases source with
  | single operand =>
    have read := operand.readOperand?_text isSource written
    refine ⟨[text.toList], operand.isLine_text isSource written, ?_⟩
    rw [readSource?, read, Option.map_some]
  | binary operator left right ty =>
    obtain ⟨leftNamed, rightNamed, tyNamed⟩ := isSource
    simp only [inlineText, bind_eq_ok_iff, pure_eq_ok_iff] at written
    obtain ⟨leftText, leftWritten, suffix, suffixWritten, rightText, rightWritten, rfl⟩ := written
    obtain ⟨isWord, noDot, readOperator⟩ := operator.reads_text
    have isSign := isWord_append_suffix isWord suffixWritten tyNamed
    have opened := (left.isLine_text leftNamed leftWritten).append_gap " " (by decide) (.of_word isSign)
    have line := opened.append_gap " " (by decide) (right.isLine_text rightNamed rightWritten)
    refine ⟨[leftText.toList, (operator.text ++ suffix).toList, rightText.toList], ?_, ?_⟩
    · have regrouped : leftText ++ " " ++ operator.text ++ suffix =
          leftText ++ " " ++ (operator.text ++ suffix) := String.append_assoc
      rw [regrouped]
      exact line
    · rw [readSource?, String.toList_append, readTyped?_append noDot suffixWritten tyNamed,
        left.readOperand?_text leftNamed leftWritten, right.readOperand?_text rightNamed rightWritten]
      show (do return Instr.binary (← readOperator? operator.text.toList) left right ty) = _
      rw [readOperator]
      rfl
  | call invocation =>
    obtain ⟨parts, line, read⟩ := invocation.reads_text isSource written
    exact ⟨parts, line, readSource?_of_readCall? read⟩
  | assign | ret | putField | getField => exact isSource.elim

/-- Every word that ends in a suffix has a dot, and no kind of call has one. -/
theorem readKind?_append {name : List Char} {ty : Ty} {suffix : String} (written : ty.suffix = .ok suffix)
    (wellNamed : ty.WellNamed) : readKind? (name ++ suffix.toList) = none := by
  cases read : readKind? (name ++ suffix.toList) with
  | none => rfl
  | some kind =>
    have noDot := kind.dot_not_mem_text
    rw [exists_of_readKind? read] at noDot
    exact absurd (List.mem_append_right name (dot_mem_suffix written wellNamed)) noDot

/-- An assignment is read back from its variable, its sign and what is assigned. -/
theorem reads_assign {name : String} {ty : Ty} {source : Instr}
    (targetNamed : (Operand.variable name ty).WellNamed) (isSource : source.IsSource)
    (written : (assign (.variable name ty) source).inlineText = .ok text) :
    ∃ parts, IsLine text parts ∧ readInstr? parts = some (.assign (.variable name ty) source) := by
  simp only [inlineText, bind_eq_ok_iff, pure_eq_ok_iff] at written
  obtain ⟨targetText, targetWritten, suffix, suffixWritten, sourceText, sourceWritten, rfl⟩ := written
  obtain ⟨parts, line, read⟩ := reads_inlineText isSource sourceWritten
  have isColon : IsWord ":=".toList := by decide
  have isSign := isWord_append_suffix isColon suffixWritten targetNamed.2
  have opened := (Operand.isLine_text targetNamed targetWritten).append_gap " " (by decide) (.of_word isSign)
  refine ⟨targetText.toList :: (":=" ++ suffix).toList :: parts, ?_, ?_⟩
  · have regrouped : targetText ++ " :=" ++ suffix = targetText ++ " " ++ (":=" ++ suffix) := by
      have spaced : " :=" = " " ++ ":=" := by decide
      simp only [spaced, String.append_assoc]
    rw [regrouped]
    exact opened.append_gap " " (by decide) line
  · have noKind : readKind? targetText.toList = none := by
      simp only [Operand.text, bind_eq_ok_iff, pure_eq_ok_iff] at targetWritten
      obtain ⟨_, targetSuffixWritten, rfl⟩ := targetWritten
      rw [String.toList_append]
      exact readKind?_append targetSuffixWritten targetNamed.2
    rw [readInstr?, noKind, Operand.readOperand?_text targetNamed targetWritten, read]
    · rfl
    · intro isEmpty
      subst isEmpty
      cases read

/-- A return is read back from its own word and, if it has a value, that of the value. -/
theorem reads_ret {ty : Ty} {value? : Option Operand} (wellNamed : (ret ty value?).WellNamed)
    (written : (ret ty value?).inlineText = .ok text) :
    ∃ parts, IsLine text parts ∧ readInstr? parts = some (.ret ty value?) := by
  have isWord : IsWord "ret".toList := by decide
  have reads_word {suffix : String} (suffixWritten : ty.suffix = .ok suffix) (tyNamed : ty.WellNamed) :
      readTyped? ("ret" ++ suffix).toList = some ("ret".toList, ty) := by
    rw [String.toList_append]
    exact readTyped?_append (by decide) suffixWritten tyNamed
  cases value? with
  | none =>
    simp only [inlineText, bind_eq_ok_iff, pure_eq_ok_iff] at written
    obtain ⟨suffix, suffixWritten, rfl⟩ := written
    refine ⟨_, .of_word (isWord_append_suffix isWord suffixWritten wellNamed), ?_⟩
    rw [readInstr?, reads_word suffixWritten wellNamed, Option.map_some]
  | some value =>
    obtain ⟨notVoid, tyNamed, valueNamed⟩ := wellNamed
    simp only [inlineText, if_neg notVoid, bind_eq_ok_iff, pure_eq_ok_iff] at written
    obtain ⟨suffix, suffixWritten, valueText, valueWritten, rfl⟩ := written
    have opened := IsLine.of_word (isWord_append_suffix isWord suffixWritten tyNamed)
    refine ⟨_, opened.append_gap " " (by decide) (value.isLine_text valueNamed valueWritten), ?_⟩
    rw [List.singleton_append, readInstr?, reads_word suffixWritten tyNamed,
      value.readOperand?_text valueNamed valueWritten]
    rfl

/-- A statement is read back from the words of its text. -/
theorem reads_text {instr : Instr} (wellNamed : instr.WellNamed) (written : instr.text = .ok text) :
    ∃ parts, IsLine text parts ∧ readInstr? parts = some instr := by
  simp only [Instr.text, bind_eq_ok_iff, pure_eq_ok_iff] at written
  obtain ⟨inner, innerWritten, rfl⟩ := written
  suffices reads : ∃ parts, IsLine inner parts ∧ readInstr? parts = some instr by
    obtain ⟨parts, line, read⟩ := reads
    exact ⟨parts, line.append_end ";" (by decide), read⟩
  cases instr with
  | assign target source =>
    cases target with
    | «variable» name ty => exact reads_assign wellNamed.1 wellNamed.2 innerWritten
    | literal | receiver => exact wellNamed.elim
  | call invocation =>
    obtain ⟨parts, line, read⟩ := invocation.reads_text wellNamed innerWritten
    exact ⟨parts, line, readInstr?_of_readCall? read⟩
  | ret ty value? => exact reads_ret wellNamed innerWritten
  | single | binary | putField | getField => exact wellNamed.elim

end Instr

/-- Statements are read back from their texts, each on a line of its own. -/
theorem readInstrs?_unlines {instrs : List Instr} {texts : List String}
    (wellNamed : ∀ instr ∈ instrs, instr.WellNamed) (written : instrs.mapM Instr.text = .ok texts) :
    readInstrs? (unlines texts) = some instrs := by
  rw [mapM_eq_ok_iff] at written
  have reads : (∀ text ∈ texts, OneLine text) ∧
      texts.mapM (fun line => readInstr? (words line.toList)) = some instrs := by
    induction instrs generalizing texts with
    | nil =>
      rw [List.map_nil, eq_comm, List.map_eq_nil_iff] at written
      subst written
      exact ⟨nofun, rfl⟩
    | cons instr rest inductionHypothesis =>
      rw [List.forall_mem_cons] at wellNamed
      cases texts with
      | nil => cases written
      | cons text others =>
        rw [List.map_cons, List.map_cons, List.cons.injEq] at written
        obtain ⟨othersLines, readOthers⟩ := inductionHypothesis wellNamed.2 written.2
        obtain ⟨parts, line, read⟩ := Instr.reads_text wellNamed.1 written.1
        refine ⟨List.forall_mem_cons.2 ⟨line.oneLine, othersLines⟩, ?_⟩
        rw [List.mapM_cons, line.words_eq, read, readOthers]
        rfl
  rw [readInstrs?, splitAtNewlines_unlines reads.1, List.dropLast_concat]
  exact reads.2

end Stackwright
