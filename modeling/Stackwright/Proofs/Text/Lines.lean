import Stackwright.Text.Lines

/-!
Contract: texts taken apart again.

Owns:
- texts without a newline, and texts put together from such;
- the pieces between the newlines of a text: if it was put together from lines, they are these
  lines, and an empty piece after the last newline;
- lines that start in a given way;
- lines cut into sections, each of which starts with a line of a certain kind.
-/

namespace Stackwright

/-! ### Lines -/

def OneLine (text : String) : Prop :=
  '\n' ∉ text.toList

instance (text : String) : Decidable (OneLine text) :=
  inferInstanceAs (Decidable ('\n' ∉ text.toList))

@[simp] theorem oneLine_append {first second : String} :
    OneLine (first ++ second) ↔ OneLine first ∧ OneLine second := by
  rw [OneLine, String.toList_append, List.mem_append, not_or]
  exact Iff.rfl

theorem oneLine_join {parts : List String} (each : ∀ part ∈ parts, OneLine part) :
    OneLine (String.join parts) := by
  rw [OneLine, String.toList_join, List.mem_flatMap]
  rintro ⟨part, isPart, member⟩
  exact each part isPart member

theorem oneLine_toString (number : Nat) : OneLine (toString number) := by
  intro member
  have isDigit := Nat.isDigit_of_mem_toDigits (by omega) (by omega) (Nat.toList_repr ▸ member)
  revert isDigit
  decide

/-- The pieces of a text between its newlines, one more than there are newlines. -/
def splitAtNewlines (text : String) : List String :=
  (newlinePieces text.toList).map String.ofList

theorem newlinePieces_append_newline {piece : List Char} (oneLine : '\n' ∉ piece) (rest : List Char) :
    newlinePieces (piece ++ '\n' :: rest) = piece :: newlinePieces rest := by
  induction piece with
  | nil => rfl
  | cons char piece inductionHypothesis =>
    rw [List.mem_cons, not_or] at oneLine
    have pieces := inductionHypothesis oneLine.2
    rw [newlinePieces] at pieces
    rw [List.cons_append, newlinePieces, List.foldr_cons, pieces, if_neg (Ne.symm oneLine.1)]

/-- Lines are found again between the newlines that end them. -/
theorem splitAtNewlines_unlines {lines : List String} (each : ∀ line ∈ lines, OneLine line) :
    splitAtNewlines (unlines lines) = lines ++ [""] := by
  induction lines with
  | nil => rfl
  | cons line rest inductionHypothesis =>
    rw [List.forall_mem_cons] at each
    have chars : (unlines (line :: rest)).toList = line.toList ++ '\n' :: (unlines rest).toList := by
      simp [unlines]
    have pieces := inductionHypothesis each.2
    rw [splitAtNewlines] at pieces
    rw [splitAtNewlines, chars, newlinePieces_append_newline each.1, List.map_cons, pieces,
      String.ofList_toList, List.cons_append]

/-- The line starts with the given text. -/
def Opens (start line : String) : Prop :=
  start.toList <+: line.toList

instance (start line : String) : Decidable (Opens start line) :=
  inferInstanceAs (Decidable (start.toList <+: line.toList))

theorem opens_append (start rest : String) : Opens start (start ++ rest) := by
  rw [Opens, String.toList_append]
  exact List.prefix_append _ _

/-- Neither of two texts starts with the other one. -/
def Apart (first second : String) : Prop :=
  ¬Opens first second ∧ ¬Opens second first

instance (first second : String) : Decidable (Apart first second) :=
  inferInstanceAs (Decidable (¬Opens first second ∧ ¬Opens second first))

/-- A line cannot start with each of two texts that are apart. -/
theorem Apart.not_opens {start other line : String} (apart : Apart start other) (opensOther : Opens other line) :
    ¬Opens start line := by
  intro opens
  rcases List.prefix_or_prefix_of_prefix opens opensOther with startFirst | otherFirst
  · exact apart.1 startFirst
  · exact apart.2 otherFirst

/-- A line does not start with a text that has another first character. -/
theorem not_opens_of_head {start line : String} {first : Char}
    (starts : start.toList.head? = some first) (differs : line.toList.head? ≠ some first) :
    ¬Opens start line := by
  rintro ⟨rest, whole⟩
  rw [← whole, List.head?_append, starts] at differs
  exact differs rfl

/-! ### Sections -/

/-- The lines cut up before each line of a certain kind. What comes before the first of these is
left out. -/
def sectionsAt (starts : String → Bool) : List String → List (List String)
  | [] => []
  | line :: rest =>
    if starts line then (line :: rest.takeWhile (!starts ·)) :: sectionsAt starts rest
    else sectionsAt starts rest

/-- Lines that start with one of a certain kind, and have no other one. -/
def IsSection (starts : String → Bool) (lines : List String) : Prop :=
  ∃ first rest, lines = first :: rest ∧ starts first = true ∧ ∀ line ∈ rest, starts line = false

section Sections

variable {starts : String → Bool}

theorem sectionsAt_append_of_none {before : List String} (none : ∀ line ∈ before, starts line = false)
    (rest : List String) : sectionsAt starts (before ++ rest) = sectionsAt starts rest := by
  induction before with
  | nil => rfl
  | cons line before inductionHypothesis =>
    rw [List.forall_mem_cons] at none
    rw [List.cons_append, sectionsAt, none.1, inductionHypothesis none.2]
    rfl

theorem takeWhile_flatten {sections : List (List String)} (each : ∀ lines ∈ sections, IsSection starts lines) :
    sections.flatten.takeWhile (!starts ·) = [] := by
  cases sections with
  | nil => rfl
  | cons lines rest =>
    rcases each lines List.mem_cons_self with ⟨first, others, rfl, isFirst, -⟩
    rw [List.flatten_cons, List.cons_append, List.takeWhile_cons, isFirst]
    rfl

/-- Sections are found again when lines are cut up that were put together from them. -/
theorem sectionsAt_flatten {before : List String} {sections : List (List String)}
    (none : ∀ line ∈ before, starts line = false) (each : ∀ lines ∈ sections, IsSection starts lines) :
    sectionsAt starts (before ++ sections.flatten) = sections := by
  rw [sectionsAt_append_of_none none]
  induction sections with
  | nil => rfl
  | cons lines rest inductionHypothesis =>
    rw [List.forall_mem_cons] at each
    rcases each.1 with ⟨first, others, rfl, isFirst, noOthers⟩
    have passes : ∀ line ∈ others, (!starts line) = true := by
      intro line member
      rw [noOthers line member]
      rfl
    rw [List.flatten_cons, List.cons_append, sectionsAt, isFirst, if_pos rfl,
      List.takeWhile_append_of_pos passes, takeWhile_flatten each.2, List.append_nil,
      sectionsAt_append_of_none noOthers, inductionHypothesis each.2]

/-- The lines of the kind are the first lines of the sections. -/
theorem filter_flatten_sections {sections : List (List String)}
    (each : ∀ lines ∈ sections, IsSection starts lines) :
    sections.flatten.filter starts = sections.filterMap List.head? := by
  induction sections with
  | nil => rfl
  | cons lines rest inductionHypothesis =>
    rw [List.forall_mem_cons] at each
    rcases each.1 with ⟨first, others, rfl, isFirst, noOthers⟩
    have noneOfOthers : others.filter starts = [] := by
      rw [List.filter_eq_nil_iff]
      intro line member
      rw [noOthers line member]
      exact Bool.false_ne_true
    rw [List.flatten_cons, List.filter_append, List.filter_cons_of_pos isFirst, noneOfOthers,
      inductionHypothesis each.2]
    rfl

end Sections

end Stackwright
