import Mathlib.Data.List.Forall2
import Mathlib.Data.List.TakeWhile
import Stackwright.Json.Printer
import Stackwright.Json.Token

/-!
Contract: the tokens of printed JSON.

Owns:
- the tokens of a value, in the order in which it is printed;
- values whose numbers are numbers;
- texts that the scanner takes apart into given tokens, and how they are put together;
- the printed text of a value is taken apart into its tokens.

A word outside strings ends only where something else begins. So most pieces of a text leave a word
open behind them, and only punctuation and closing quotation marks leave nothing.
-/

namespace Stackwright.Json

/-! ### The tokens of a value -/

mutual

def tokens : Json → List Token
  | .null => [.word .null]
  | .bool value => [.word (.bool value)]
  | .number literal => [.word (.number literal)]
  | .string text => [.text text]
  | .array items => .beginArray :: [.comma].intercalate (itemTokens items) ++ [.endArray]
  | .object members => .beginObject :: [.comma].intercalate (memberTokens members) ++ [.endObject]

def itemTokens : List Json → List (List Token)
  | [] => []
  | item :: rest => item.tokens :: itemTokens rest

def memberTokens : List (String × Json) → List (List Token)
  | [] => []
  | (key, value) :: rest => (.text key :: .colon :: value.tokens) :: memberTokens rest

end

mutual

/-- Every number in the value is written as one. -/
def IsProper : Json → Prop
  | .number literal => IsNumber literal.toList
  | .array items => AllProper items
  | .object members => AllMembersProper members
  | .null | .bool _ | .string _ => True

def AllProper : List Json → Prop
  | [] => True
  | item :: rest => item.IsProper ∧ AllProper rest

def AllMembersProper : List (String × Json) → Prop
  | [] => True
  | (_, value) :: rest => value.IsProper ∧ AllMembersProper rest

end

/-! ### Scanning in pieces -/

/-- The scanner after the given tokens, where nothing is open. -/
def Scanner.after (found : List Token) : Scanner :=
  { tokens := found.reverse }

/-- Nothing is open but a word, and with its end the given tokens have been found. -/
def Scanner.StandsAfter (scanner : Scanner) (found : List Token) : Prop :=
  ∃ word, scanner.state = .outside word ∧ scanner.endWord word = some (.after found)

/-- The text adds the tokens to what has been found, once a word that is open behind it has ended. -/
def Scans (chars : List Char) (tokens : List Token) : Prop :=
  ∀ found, ∃ scanner, chars.foldlM Scanner.step (.after found) = some scanner ∧
    scanner.StandsAfter (found ++ tokens)

/-- The text adds the tokens to what has been found, and leaves nothing open. -/
def ScansClosed (chars : List Char) (tokens : List Token) : Prop :=
  ∀ found, chars.foldlM Scanner.step (.after found) = some (.after (found ++ tokens))

section Pieces

variable {first second : List Char} {firstTokens secondTokens : List Token}

theorem ScansClosed.nil : ScansClosed [] [] := by
  intro found
  rw [List.append_nil]
  rfl

theorem ScansClosed.scans (closed : ScansClosed first firstTokens) : Scans first firstTokens :=
  fun found => ⟨_, closed found, [], rfl, rfl⟩

theorem ScansClosed.append (closed : ScansClosed first firstTokens) (scans : Scans second secondTokens) :
    Scans (first ++ second) (firstTokens ++ secondTokens) := by
  intro found
  rw [List.foldlM_append, closed found, ← List.append_assoc]
  exact scans (found ++ firstTokens)

end Pieces

/-! ### Punctuation -/

theorem Scanner.after_concat (found : List Token) (token : Token) :
    Scanner.after (found ++ [token]) = ⟨.outside [], token :: found.reverse⟩ := by
  rw [Scanner.after, List.reverse_concat]

theorem Scanner.step_mark {scanner : Scanner} {found : List Token} {mark : Char} {token : Token}
    (stands : scanner.StandsAfter found) (isMark : punctuation? mark = some token) :
    scanner.step mark = some (.after (found ++ [token])) := by
  obtain ⟨word, isOutside, ended⟩ := stands
  have notBlank : ¬IsBlank mark := by
    intro isBlank
    obtain rfl | rfl | rfl | rfl := isBlank <;> cases isMark
  have notQuote : mark ≠ '\x22' := by
    intro isQuote
    subst isQuote
    cases isMark
  simp only [Scanner.step, isOutside, if_neg notBlank, if_neg notQuote, isMark, ended,
    Scanner.after_concat]
  rfl

/-- Punctuation ends an open word, and leaves nothing open itself. -/
theorem Scans.punctuate {chars : List Char} {tokens : List Token} {token : Token}
    (scans : Scans chars tokens) (mark : Char) (isMark : punctuation? mark = some token) :
    ScansClosed (chars ++ [mark]) (tokens ++ [token]) := by
  intro found
  obtain ⟨scanner, scanned, stands⟩ := scans found
  rw [List.foldlM_append, scanned, Option.bind_eq_bind, Option.bind_some, List.foldlM_cons,
    Scanner.step_mark stands isMark, List.append_assoc]
  rfl

/-- Texts with commas between them are scanned one after the other. -/
theorem Scans.intercalate {texts : List (List Char)} {tokenLists : List (List Token)}
    (each : List.Forall₂ Scans texts tokenLists) :
    Scans ([','].intercalate texts) ([.comma].intercalate tokenLists) := by
  induction each with
  | nil => exact ScansClosed.nil.scans
  | @cons text tokens texts tokenLists scans rest inductionHypothesis =>
    cases rest with
    | nil =>
      rw [List.intercalate_singleton, List.intercalate_singleton]
      exact scans
    | cons scansNext others =>
      rw [List.intercalate_cons_cons, List.intercalate_cons_cons]
      exact (scans.punctuate ',' rfl).append inductionHypothesis

/-! ### Words -/

/-- The characters that end a word or begin something else. -/
def separators : List Char :=
  [' ', '\t', '\n', '\r', '\x22', '\x7b', '\x7d', '[', ']', ':', ',']

/-- No character of the text is a separator. -/
def Unbroken (chars : List Char) : Prop :=
  ∀ char ∈ chars, char ∉ separators

instance (chars : List Char) : Decidable (Unbroken chars) :=
  List.decidableBAll _ chars

theorem Scanner.step_letter {char : Char} (isLetter : char ∉ separators) (word : List Char)
    (found : List Token) :
    Scanner.step ⟨.outside word, found⟩ char = some ⟨.outside (char :: word), found⟩ := by
  simp only [separators, List.mem_cons, List.not_mem_nil, or_false, not_or] at isLetter
  have notBlank : ¬IsBlank char := by simp [IsBlank, isLetter]
  have notQuote : char ≠ '\x22' := by simp [isLetter]
  have noMark : punctuation? char = none := by simp [punctuation?, isLetter]
  simp only [Scanner.step, if_neg notBlank, if_neg notQuote, noMark]

theorem foldlM_step_letters {chars : List Char} (unbroken : Unbroken chars) (word : List Char)
    (found : List Token) :
    chars.foldlM Scanner.step ⟨.outside word, found⟩ = some ⟨.outside (chars.reverse ++ word), found⟩ := by
  induction chars generalizing word with
  | nil => rfl
  | cons char rest inductionHypothesis =>
    obtain ⟨isLetter, unbrokenRest⟩ := List.forall_mem_cons.1 unbroken
    rw [List.foldlM_cons, Scanner.step_letter isLetter, Option.bind_eq_bind, Option.bind_some,
      inductionHypothesis unbrokenRest, List.reverse_cons, List.append_assoc]
    rfl

theorem Scans.of_word {chars : List Char} {value : Json} (unbroken : Unbroken chars)
    (denotes : wordValue? chars = some value) : Scans chars [.word value] := by
  intro found
  refine ⟨_, foldlM_step_letters unbroken [] found.reverse, chars.reverse, ?_, ?_⟩
  · rw [List.append_nil]
  · have nonempty : chars.reverse ≠ [] := by
      intro isEmpty
      rw [List.reverse_eq_nil_iff] at isEmpty
      subst isEmpty
      cases denotes
    rw [Scanner.endWord, if_neg nonempty, List.reverse_reverse, denotes, Scanner.after_concat]
    rfl

/-! ### Numbers -/

/-- The characters that numbers are made of. -/
def IsNumberChar (char : Char) : Prop :=
  char.isDigit = true ∨ char ∈ ['-', '+', '.', 'e', 'E']

instance (char : Char) : Decidable (IsNumberChar char) :=
  inferInstanceAs (Decidable (_ ∨ _))

theorem IsNumberChar.isLetter {char : Char} (isNumberChar : IsNumberChar char) : char ∉ separators := by
  have noNumber : separators.all (fun separator => decide ¬IsNumberChar separator) = true := by decide
  exact fun member => of_decide_eq_true (List.all_eq_true.1 noNumber char member) isNumberChar

/-- A part of a number was taken off the front of a text. -/
def Leaves (chars rest : List Char) : Prop :=
  ∀ char ∈ chars, IsNumberChar char ∨ char ∈ rest

theorem Leaves.refl (chars : List Char) : Leaves chars chars :=
  fun _ => .inr

theorem Leaves.trans {chars middle rest : List Char} (leaves : Leaves chars middle)
    (leavesRest : Leaves middle rest) : Leaves chars rest :=
  fun char member => (leaves char member).elim .inl (leavesRest char)

theorem leaves_cons {char : Char} (isNumberChar : IsNumberChar char) (rest : List Char) :
    Leaves (char :: rest) rest :=
  List.forall_mem_cons.2 ⟨.inl isNumberChar, Leaves.refl rest⟩

theorem leaves_afterMinus (chars : List Char) : Leaves chars (afterMinus chars) := by
  unfold afterMinus
  split
  · exact leaves_cons (by decide) _
  · exact .refl _

theorem leaves_afterSign (chars : List Char) : Leaves chars (afterSign chars) := by
  unfold afterSign
  split
  · exact leaves_cons (by decide) _
  · exact leaves_cons (by decide) _
  · exact .refl _

theorem leaves_dropWhile_isDigit (chars : List Char) : Leaves chars (chars.dropWhile Char.isDigit) := by
  intro char member
  rw [← List.takeWhile_append_dropWhile (p := Char.isDigit) (l := chars), List.mem_append] at member
  exact member.imp_left fun isTaken => .inl (List.mem_takeWhile_imp isTaken)

theorem leaves_of_afterDigits? {chars rest : List Char} (isRest : afterDigits? chars = some rest) :
    Leaves chars rest := by
  unfold afterDigits? at isRest
  split at isRest
  · cases isRest
  · cases isRest
    exact leaves_dropWhile_isDigit chars

theorem leaves_of_afterFraction? {chars rest : List Char} (isRest : afterFraction? chars = some rest) :
    Leaves chars rest := by
  unfold afterFraction? at isRest
  split at isRest
  · exact (leaves_cons (by decide) _).trans (leaves_of_afterDigits? isRest)
  · cases isRest
    exact .refl _

theorem leaves_of_afterExponent? {chars rest : List Char} (isRest : afterExponent? chars = some rest) :
    Leaves chars rest := by
  unfold afterExponent? at isRest
  split at isRest
  · exact (leaves_cons (by decide) _).trans ((leaves_afterSign _).trans (leaves_of_afterDigits? isRest))
  · exact (leaves_cons (by decide) _).trans ((leaves_afterSign _).trans (leaves_of_afterDigits? isRest))
  · cases isRest
    exact .refl _

theorem IsNumber.chars {chars : List Char} (isNumber : IsNumber chars) : ∀ char ∈ chars, IsNumberChar char := by
  obtain ⟨rest, isRest, isEnd⟩ := Option.bind_eq_some_iff.1 isNumber.2
  have leaves : Leaves chars [] :=
    (leaves_afterMinus chars).trans ((leaves_dropWhile_isDigit _).trans
      ((leaves_of_afterFraction? isRest).trans (leaves_of_afterExponent? isEnd)))
  intro char member
  exact (leaves char member).resolve_right List.not_mem_nil

theorem IsNumber.wordValue? {chars : List Char} (isNumber : IsNumber chars) :
    wordValue? chars = some (.number (String.ofList chars)) := by
  have isOther : ∀ word ∈ ["null", "true", "false"], chars ≠ word.toList := by
    have noNumber : ∀ word ∈ ["null", "true", "false"], ¬IsNumber word.toList := by decide
    intro word member same
    exact noNumber word member (same ▸ isNumber)
  rw [Json.wordValue?, if_neg (isOther "null" (by decide)), if_neg (isOther "true" (by decide)),
    if_neg (isOther "false" (by decide)), if_pos isNumber]

/-! ### Strings -/

theorem hexValue?_hexDigit : ∀ value < 16, hexValue? (hexDigit value) = some value := by
  decide

theorem escapeValue?_of_controlLetter? {char letter : Char} (isLetter : controlLetter? char = some letter) :
    letter ≠ 'u' ∧ escapeValue? letter = some char := by
  unfold controlLetter? at isLetter
  split_ifs at isLetter with isControl isControl isControl isControl isControl <;> cases isLetter <;>
    subst isControl <;> decide

/-- A control character that has a letter is read back from the letter. -/
theorem foldlM_step_letter {char letter : Char} (isLetter : controlLetter? char = some letter) (text : List Char)
    (found : List Token) :
    ['\\', letter].foldlM Scanner.step ⟨.inside text, found⟩ = some ⟨.inside (char :: text), found⟩ := by
  obtain ⟨notUnit, isValue⟩ := escapeValue?_of_controlLetter? isLetter
  have begun : Scanner.step ⟨.inside text, found⟩ '\\' = some ⟨.escape text, found⟩ := rfl
  rw [List.foldlM_cons, begun, Option.bind_eq_bind, Option.bind_some, List.foldlM_cons]
  simp only [Scanner.step, if_neg notUnit, isValue]
  rfl

/-- Any other one is read back from its code. The code is too low for half a surrogate pair. -/
theorem foldlM_step_code {char : Char} (isControl : char.toNat < 32) (text : List Char) (found : List Token) :
    ['\\', 'u', '0', '0', hexDigit (char.toNat / 16), hexDigit (char.toNat % 16)].foldlM Scanner.step
      ⟨.inside text, found⟩ = some ⟨.inside (char :: text), found⟩ := by
  have begun : ['\\', 'u', '0', '0'].foldlM Scanner.step ⟨.inside text, found⟩ =
      some ⟨.codeUnit text none [0, 0], found⟩ := rfl
  have high := hexValue?_hexDigit (char.toNat / 16) (by omega)
  have low := hexValue?_hexDigit (char.toNat % 16) (by omega)
  have unit : ((0 * 16 + 0) * 16 + char.toNat / 16) * 16 + char.toNat % 16 = char.toNat := by omega
  have noSurrogate : ¬(0xD800 ≤ char.toNat ∧ char.toNat < 0xDC00) := by omega
  have noOther : ¬(0xDC00 ≤ char.toNat ∧ char.toNat < 0xE000) := by omega
  show (['\\', 'u', '0', '0'] ++ [_, _]).foldlM Scanner.step _ = _
  rw [List.foldlM_append, begun, Option.bind_eq_bind, Option.bind_some, List.foldlM_cons]
  simp only [Scanner.step, high, Option.bind_eq_bind, Option.bind_some, List.foldlM_cons, low, unit,
    Scanner.endUnit, if_neg noSurrogate, if_neg noOther, Char.ofNat_toNat]
  rfl

/-- What stands for a character in quotes is scanned as the character. -/
theorem foldlM_step_escaped (char : Char) (text : List Char) (found : List Token) :
    (escaped char).foldlM Scanner.step ⟨.inside text, found⟩ = some ⟨.inside (char :: text), found⟩ := by
  unfold escaped
  split
  · rename_i isEscaped
    obtain rfl | rfl := isEscaped <;> rfl
  · rename_i notEscaped
    rw [not_or] at notEscaped
    split
    · rename_i isControl
      split
      · rename_i letter isLetter
        exact foldlM_step_letter isLetter text found
      · exact foldlM_step_code isControl text found
    · rename_i notControl
      rw [List.foldlM_cons, Scanner.step]
      simp only [if_neg notEscaped.1, if_neg notEscaped.2, if_neg notControl]
      rfl

theorem foldlM_step_flatMap_escaped (chars text : List Char) (found : List Token) :
    (chars.flatMap escaped).foldlM Scanner.step ⟨.inside text, found⟩ =
      some ⟨.inside (chars.reverse ++ text), found⟩ := by
  induction chars generalizing text with
  | nil => rfl
  | cons char rest inductionHypothesis =>
    rw [List.flatMap_cons, List.foldlM_append, foldlM_step_escaped, Option.bind_eq_bind, Option.bind_some,
      inductionHypothesis, List.reverse_cons, List.append_assoc]
    rfl

theorem ScansClosed.quoted (text : String) : ScansClosed (quoted text).toList [.text text] := by
  intro found
  have opened : Scanner.step (.after found) '\x22' = some ⟨.inside [], found.reverse⟩ := rfl
  rw [Json.quoted, String.toList_ofList, List.cons_append, List.foldlM_cons, opened, Option.bind_eq_bind,
    Option.bind_some, List.foldlM_append, foldlM_step_flatMap_escaped, Option.bind_eq_bind, Option.bind_some,
    Scanner.after_concat, List.append_nil]
  show some _ = _
  rw [List.reverse_reverse, String.ofList_toList]

/-! ### Values -/

mutual

/-- The printed text of a value is taken apart into the tokens of the value. -/
theorem scans_render : ∀ json : Json, json.IsProper → Scans json.render.toList json.tokens
  | .null, _ => .of_word (by decide) rfl
  | .bool false, _ => .of_word (by decide) rfl
  | .bool true, _ => .of_word (by decide) rfl
  | .number literal, isNumber => by
    have scans := Scans.of_word (fun char member => (IsNumber.chars isNumber char member).isLetter)
      (IsNumber.wordValue? isNumber)
    rwa [String.ofList_toList] at scans
  | .string text, _ => (ScansClosed.quoted text).scans
  | .array items, proper => by
    have each := Scans.intercalate (scans_renderItems items proper)
    have opened : ScansClosed ['['] [.beginArray] := ScansClosed.nil.scans.punctuate '[' rfl
    have closed := (opened.append each).punctuate ']' rfl
    rw [render, String.toList_append, String.toList_append, String.toList_intercalate, tokens]
    exact closed.scans
  | .object members, proper => by
    have each := Scans.intercalate (scans_renderMembers members proper)
    have opened : ScansClosed ['\x7b'] [.beginObject] := ScansClosed.nil.scans.punctuate '\x7b' rfl
    have closed := (opened.append each).punctuate '\x7d' rfl
    rw [render, String.toList_append, String.toList_append, String.toList_intercalate, tokens]
    exact closed.scans

theorem scans_renderItems : ∀ items : List Json, AllProper items →
    List.Forall₂ Scans ((renderItems items).map String.toList) (itemTokens items)
  | [], _ => .nil
  | item :: rest, proper => .cons (scans_render item proper.1) (scans_renderItems rest proper.2)

theorem scans_renderMembers : ∀ members : List (String × Json), AllMembersProper members →
    List.Forall₂ Scans ((renderMembers members).map String.toList) (memberTokens members)
  | [], _ => .nil
  | (key, value) :: rest, proper => by
    have keyed := (ScansClosed.quoted key).scans.punctuate ':' rfl
    refine .cons ?_ (scans_renderMembers rest proper.2)
    rw [String.toList_append, String.toList_append]
    exact keyed.append (scans_render value proper.1)

end

end Stackwright.Json
