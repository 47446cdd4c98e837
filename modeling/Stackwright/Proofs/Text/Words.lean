import Stackwright.Proofs.Text.Lines

/-!
Contract: texts as sequences of words.

Owns:
- the marks between words, and the words of a text;
- identifiers, and paths of identifiers with dots between them;
- what a word is made of: no identifier, number or path contains a mark.

Marks are only told from what is no mark, and not from each other. So texts are put back together
from their words only where the words alone say which marks stand between them.
-/

namespace Stackwright

/-! ### Words -/

/-- The characters that stand between words: blanks and punctuation, dots left out. -/
def marks : List Char :=
  [' ', '\n', ',', ';', '(', ')', '\x22']

def isMark (char : Char) : Bool :=
  char ∈ marks

/-- The words of a text, in order. -/
def words (text : List Char) : List (List Char) :=
  (text.splitOnP isMark).filter fun word => !word.isEmpty

/-- No character of the text is a mark. -/
def Unmarked (text : List Char) : Prop :=
  ∀ char ∈ text, isMark char = false

instance (text : List Char) : Decidable (Unmarked text) :=
  List.decidableBAll _ text

theorem unmarked_append {first second : List Char} :
    Unmarked (first ++ second) ↔ Unmarked first ∧ Unmarked second :=
  List.forall_mem_append

/-- Something between two marks. -/
structure IsWord (text : List Char) : Prop where
  nonempty : text ≠ []
  unmarked : Unmarked text

theorem words_append_mark {mark : Char} (isMark_mark : isMark mark = true) (before after : List Char) :
    words (before ++ mark :: after) = words before ++ words after := by
  rw [words, List.splitOnP_append_cons before after isMark_mark, List.filter_append, words, words]

theorem words_mark_cons {mark : Char} (isMark_mark : isMark mark = true) (rest : List Char) :
    words (mark :: rest) = words rest :=
  words_append_mark isMark_mark [] rest

namespace IsWord

variable {text : List Char}

theorem words_eq (isWord : IsWord text) : words text = [text] := by
  have isEmpty_eq : text.isEmpty = false := List.isEmpty_eq_false_iff.2 isWord.nonempty
  rw [words, List.splitOnP_eq_singleton isWord.unmarked, List.filter_cons_of_pos (by rw [isEmpty_eq]; rfl),
    List.filter_nil]

theorem append (isWord : IsWord text) {rest : List Char} (unmarked : Unmarked rest) :
    IsWord (text ++ rest) where
  nonempty := List.append_ne_nil_of_left_ne_nil isWord.nonempty rest
  unmarked := unmarked_append.2 ⟨isWord.unmarked, unmarked⟩

end IsWord

instance (text : List Char) : Decidable (IsWord text) :=
  decidable_of_iff (text ≠ [] ∧ Unmarked text)
    ⟨fun ⟨nonempty, unmarked⟩ => ⟨nonempty, unmarked⟩, fun isWord => ⟨isWord.nonempty, isWord.unmarked⟩⟩

/-! ### Lines of words -/

/-- What may stand between two words of a line: marks, and no newline among them. -/
structure IsGap (text : String) : Prop where
  nonempty : text.toList ≠ []
  marked : text.toList.all isMark = true
  oneLine : OneLine text

instance (text : String) : Decidable (IsGap text) :=
  decidable_of_iff (text.toList ≠ [] ∧ text.toList.all isMark = true ∧ OneLine text)
    ⟨fun ⟨nonempty, marked, oneLine⟩ => ⟨nonempty, marked, oneLine⟩,
      fun isGap => ⟨isGap.nonempty, isGap.marked, isGap.oneLine⟩⟩

/-- The text is one line, and these are its words. -/
structure IsLine (text : String) (parts : List (List Char)) : Prop where
  oneLine : OneLine text
  words_eq : words text.toList = parts

theorem words_marks_append {gap : List Char} (marked : ∀ char ∈ gap, isMark char = true)
    (rest : List Char) : words (gap ++ rest) = words rest := by
  induction gap with
  | nil => rfl
  | cons mark gap inductionHypothesis =>
    rw [List.forall_mem_cons] at marked
    rw [List.cons_append, words_mark_cons marked.1, inductionHypothesis marked.2]

namespace IsLine

theorem empty : IsLine "" [] :=
  ⟨by decide, rfl⟩

theorem of_word {text : String} (isWord : IsWord text.toList) : IsLine text [text.toList] where
  oneLine := by
    intro member
    have unmarked := isWord.unmarked '\n' member
    revert unmarked
    decide
  words_eq := isWord.words_eq

variable {first second : String} {firstParts secondParts : List (List Char)}

theorem append_gap (firstLine : IsLine first firstParts) (gap : String) (isGap : IsGap gap)
    (secondLine : IsLine second secondParts) : IsLine (first ++ gap ++ second) (firstParts ++ secondParts) where
  oneLine := oneLine_append.2 ⟨oneLine_append.2 ⟨firstLine.oneLine, isGap.oneLine⟩, secondLine.oneLine⟩
  words_eq := by
    obtain ⟨mark, others, chars⟩ := List.exists_cons_of_ne_nil isGap.nonempty
    have marked := List.all_eq_true.1 isGap.marked
    rw [chars, List.forall_mem_cons] at marked
    rw [String.toList_append, String.toList_append, chars, List.append_assoc, List.cons_append,
      words_append_mark marked.1, words_marks_append marked.2, firstLine.words_eq, secondLine.words_eq]

theorem append_end (line : IsLine first firstParts) (gap : String) (isGap : IsGap gap) :
    IsLine (first ++ gap) firstParts := by
  have closed := line.append_gap gap isGap empty
  rwa [String.append_empty, List.append_nil] at closed

end IsLine

/-! ### Identifiers -/

/-- Whether a character may stand in an identifier. -/
def isNameChar (char : Char) : Bool :=
  char.isAlphanum || char == '_' || char == '$'

theorem isNameChar_of_isDigit {char : Char} (isDigit : char.isDigit = true) : isNameChar char = true := by
  rw [isNameChar, Char.isAlphanum, isDigit, Bool.or_true, Bool.true_or, Bool.true_or]

theorem isMark_of_isNameChar {char : Char} (isName : isNameChar char = true) : isMark char = false := by
  have noMark : marks.all (fun mark => !isNameChar mark) = true := by decide
  apply decide_eq_false
  intro member
  have notName := List.all_eq_true.1 noMark char member
  rw [isName] at notName
  cases notName

/-- Letters, digits, underscores and dollar signs, with no digit in front. -/
structure IsIdentifier (name : List Char) : Prop where
  nonempty : name ≠ []
  chars : name.all isNameChar = true
  noDigit : name.head?.any Char.isDigit = false

instance (name : List Char) : Decidable (IsIdentifier name) :=
  decidable_of_iff (name ≠ [] ∧ name.all isNameChar = true ∧ name.head?.any Char.isDigit = false)
    ⟨fun ⟨nonempty, chars, noDigit⟩ => ⟨nonempty, chars, noDigit⟩,
      fun isIdentifier => ⟨isIdentifier.nonempty, isIdentifier.chars, isIdentifier.noDigit⟩⟩

namespace IsIdentifier

variable {name : List Char}

theorem isNameChar_of_mem (isIdentifier : IsIdentifier name) {char : Char} (member : char ∈ name) :
    isNameChar char = true :=
  List.all_eq_true.1 isIdentifier.chars char member

theorem isWord (isIdentifier : IsIdentifier name) : IsWord name where
  nonempty := isIdentifier.nonempty
  unmarked _ member := isMark_of_isNameChar (isIdentifier.isNameChar_of_mem member)

theorem noDot (isIdentifier : IsIdentifier name) : '.' ∉ name := by
  intro member
  cases isIdentifier.isNameChar_of_mem member

end IsIdentifier

/-! ### Paths -/

/-- What stands between the dots of a text. -/
def segments (text : List Char) : List (List Char) :=
  text.splitOn '.'

theorem segments_append {segment : List Char} (noDot : '.' ∉ segment) (rest : List Char) :
    segments (segment ++ '.' :: rest) = segment :: segments rest :=
  List.splitOn_append_cons_self_of_not_mem noDot rest

/-- Identifiers with dots between them. -/
def IsPath (text : List Char) : Prop :=
  ∀ segment ∈ segments text, IsIdentifier segment

instance (text : List Char) : Decidable (IsPath text) :=
  inferInstanceAs (Decidable (∀ segment ∈ segments text, IsIdentifier segment))

/-- Between the dots of a text are its other characters. -/
theorem eq_dot_or_mem_segments {text : List Char} {char : Char} (member : char ∈ text) :
    char = '.' ∨ ∃ segment ∈ segments text, char ∈ segment := by
  have mem_pieces : ∀ pieces : List (List Char), char ∈ ['.'].intercalate pieces →
      char = '.' ∨ ∃ piece ∈ pieces, char ∈ piece := by
    intro pieces joined
    induction pieces with
    | nil => exact absurd joined List.not_mem_nil
    | cons piece rest inductionHypothesis =>
      cases rest with
      | nil =>
        rw [List.intercalate_singleton] at joined
        exact .inr ⟨piece, List.mem_cons_self, joined⟩
      | cons next others =>
        rw [List.intercalate_cons_cons, List.mem_append, List.mem_append, List.mem_singleton] at joined
        obtain (here | isDot) | later := joined
        · exact .inr ⟨piece, List.mem_cons_self, here⟩
        · exact .inl isDot
        · exact (inductionHypothesis later).imp_right fun ⟨other, isPiece, inPiece⟩ =>
            ⟨other, List.mem_cons_of_mem piece isPiece, inPiece⟩
  apply mem_pieces
  rwa [segments, List.intercalate_splitOn]

theorem IsPath.isWord {text : List Char} (isPath : IsPath text) : IsWord text where
  nonempty := by
    intro isEmpty
    subst isEmpty
    exact (isPath [] List.mem_cons_self).nonempty rfl
  unmarked := by
    intro char member
    obtain isDot | ⟨segment, isSegment, inSegment⟩ := eq_dot_or_mem_segments member
    · subst isDot
      decide
    · exact (isPath segment isSegment).isWord.unmarked char inSegment

end Stackwright
