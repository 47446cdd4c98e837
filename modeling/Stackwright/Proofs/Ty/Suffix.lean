import Stackwright.Proofs.Text.Words
import Stackwright.Proofs.Ty.Reading
import Stackwright.Ty.Suffix

/-!
Contract: suffixes as texts that can be read back.

Owns:
- the class names that are told from the suffixes of other types;
- the reader of suffixes, and of words that end in one;
- what was written before a suffix is read back, and so is the type of the suffix.

Dots stand inside class names and between the layers of an array alike. What tells them apart is
the first segment: a class whose name starts with a word of its own is no array.
-/

namespace Stackwright

/-- The suffixes of the types that name no class, and the word that stands for an array. -/
def suffixWords : List String :=
  ["i32", "bool", "V", "String", "this", "array"]

/-- A path that does not begin like the suffix of another type. -/
def IsClassPath (name : String) : Prop :=
  IsPath name.toList ∧ ∀ word ∈ suffixWords, (segments name.toList).head? ≠ some word.toList

instance (name : String) : Decidable (IsClassPath name) :=
  inferInstanceAs (Decidable (_ ∧ _))

/-- All classes of the type have names that are told from other suffixes. -/
def Ty.WellNamed (ty : Ty) : Prop :=
  ∀ name ∈ ty.classNames, IsClassPath name

instance (ty : Ty) : Decidable ty.WellNamed :=
  inferInstanceAs (Decidable (∀ name ∈ ty.classNames, IsClassPath name))

/-! ### The reader -/

/-- The types whose suffix is one word. -/
def suffixBases : List (List Char × Ty) :=
  [("i32".toList, .int), ("bool".toList, .boolean), ("V".toList, .void), ("String".toList, .string),
    ("this".toList, .receiver)]

/-- Reads a type from the segments of its suffix. -/
def readSuffix? : List (List Char) → Option Ty
  | [] => none
  | segment :: rest =>
    if segment = "array".toList then (readSuffix? rest).map .array
    else match suffixBases.lookup segment with
      | some base => if rest = [] then some base else none
      | none => some (.classRef (String.ofList (['.'].intercalate (segment :: rest))))

/-- Reads a word that ends in a suffix: what stands before the suffix, and its type. -/
def readTyped? (word : List Char) : Option (List Char × Ty) :=
  match segments word with
  | [] => none
  | head :: suffix => (readSuffix? suffix).map (head, ·)

/-! ### Reading back -/

/-- The segments of a class name are read as the class. -/
theorem readSuffix?_segments {name : String} (isClassPath : IsClassPath name) :
    readSuffix? (segments name.toList) = some (.classRef name) := by
  have joined : ['.'].intercalate (segments name.toList) = name.toList := List.intercalate_splitOn '.'
  have noWord := isClassPath.2
  cases pieces : segments name.toList with
  | nil => exact absurd pieces (List.splitOnP_ne_nil _ _)
  | cons segment rest =>
    rw [pieces] at joined noWord
    have notWord : ∀ word ∈ suffixWords, segment ≠ word.toList := by
      intro word member same
      exact noWord word member (congrArg some same)
    have notBase : suffixBases.lookup segment = none := by
      rw [List.lookup_eq_none_iff]
      have ofBases : ∀ entry ∈ suffixBases, ∃ word ∈ suffixWords, entry.1 = word.toList := by decide
      intro entry member
      obtain ⟨word, isWord, same⟩ := ofBases entry member
      rw [same]
      exact bne_iff_ne.2 (notWord word isWord)
    rw [readSuffix?, if_neg (notWord "array" (by decide)), notBase, joined, String.ofList_toList]

/-- A suffix is a dot and a text from whose segments the type is read back. -/
theorem Ty.exists_body_of_suffix {ty : Ty} {suffix : String} (written : ty.suffix = .ok suffix)
    (wellNamed : ty.WellNamed) :
    ∃ body, suffix.toList = '.' :: body ∧ Unmarked body ∧ readSuffix? (segments body) = some ty := by
  induction ty generalizing suffix with
  | int | boolean | void | string | receiver =>
    cases written
    exact ⟨_, rfl, by decide, by decide⟩
  | classRef name =>
    cases written
    have isClassPath := wellNamed name List.mem_cons_self
    refine ⟨name.toList, ?_, isClassPath.1.isWord.unmarked, readSuffix?_segments isClassPath⟩
    rw [String.toList_append]
    rfl
  | array element inductionHypothesis =>
    have notVoid : element ≠ .void := by
      intro isVoid
      subst isVoid
      cases written
    have notReceiver : element ≠ .receiver := by
      intro isReceiver
      subst isReceiver
      cases written
    rw [suffix_array notVoid notReceiver] at written
    cases elementWritten : element.suffix with
    | error fault =>
      rw [elementWritten] at written
      cases written
    | ok elementSuffix =>
      rw [elementWritten] at written
      cases written
      obtain ⟨body, chars, unmarked, read⟩ := inductionHypothesis elementWritten wellNamed
      refine ⟨"array".toList ++ '.' :: body, ?_, ?_, ?_⟩
      · rw [String.toList_append, chars]
        rfl
      · rw [unmarked_append]
        exact ⟨by decide, List.forall_mem_cons.2 ⟨rfl, unmarked⟩⟩
      · rw [segments_append (by decide), readSuffix?, if_pos rfl, read]
        rfl

section Suffix

variable {ty : Ty} {suffix : String}

theorem unmarked_suffix (written : ty.suffix = .ok suffix) (wellNamed : ty.WellNamed) :
    Unmarked suffix.toList := by
  obtain ⟨body, chars, unmarked, -⟩ := Ty.exists_body_of_suffix written wellNamed
  rw [chars]
  exact List.forall_mem_cons.2 ⟨rfl, unmarked⟩

theorem isWord_suffix (written : ty.suffix = .ok suffix) (wellNamed : ty.WellNamed) :
    IsWord suffix.toList where
  nonempty := by
    obtain ⟨body, chars, -⟩ := Ty.exists_body_of_suffix written wellNamed
    rw [chars]
    exact List.cons_ne_nil '.' body
  unmarked := unmarked_suffix written wellNamed

/-- A word that is followed by a suffix goes on. -/
theorem isWord_append_suffix {head : String} (isWord : IsWord head.toList) (written : ty.suffix = .ok suffix)
    (wellNamed : ty.WellNamed) : IsWord (head ++ suffix).toList := by
  rw [String.toList_append]
  exact isWord.append (unmarked_suffix written wellNamed)

theorem dot_mem_suffix (written : ty.suffix = .ok suffix) (wellNamed : ty.WellNamed) :
    '.' ∈ suffix.toList := by
  obtain ⟨body, chars, -⟩ := Ty.exists_body_of_suffix written wellNamed
  rw [chars]
  exact List.mem_cons_self

/-- A suffix is read back, and so is what stands before it up to the first dot. -/
theorem readTyped?_append {head : List Char} (noDot : '.' ∉ head) (written : ty.suffix = .ok suffix)
    (wellNamed : ty.WellNamed) : readTyped? (head ++ suffix.toList) = some (head, ty) := by
  obtain ⟨body, chars, -, read⟩ := Ty.exists_body_of_suffix written wellNamed
  rw [readTyped?, chars, segments_append noDot]
  show (readSuffix? (segments body)).map (head, ·) = some (head, ty)
  rw [read, Option.map_some]

end Suffix

example : readTyped? "tmp0.array.util.List".toList = some ("tmp0".toList, .array (.classRef "util.List")) := by
  decide

end Stackwright
