import Stackwright.Proofs.Fault
import Stackwright.Ty.Descriptor

/-!
Contract: descriptors as texts that can be read back.

Owns:
- the reader of descriptors, by their grammar alone;
- the normal form of a type: what its descriptor says of it;
- the descriptor of a signature is read back as the normal forms of its types, in order and
  to the end of the text.

A class is named by any text up to the next semicolon, so only a class name that contains a
semicolon is not read back.
-/

namespace Stackwright

/-! ### The reader -/

/-- Reads a class name up to the semicolon that ends it. -/
def readName? (text : List Char) : Option (String × List Char) :=
  match text.dropWhile (· ≠ ';') with
  | [] => none
  | _ :: rest => some (String.ofList (text.takeWhile (· ≠ ';')), rest)

/-- Reads one type from the front of a text. -/
def readTy? : List Char → Option (Ty × List Char)
  | 'I' :: rest => some (.int, rest)
  | 'Z' :: rest => some (.boolean, rest)
  | 'L' :: rest => (readName? rest).map fun (name, rest) => (.classRef name, rest)
  | '[' :: rest => (readTy? rest).map fun (element, rest) => (.array element, rest)
  | _ => none

theorem length_of_readName? {text rest : List Char} {name : String}
    (read : readName? text = some (name, rest)) : rest.length < text.length := by
  unfold readName? at read
  have bound := (List.dropWhile_sublist (l := text) (· ≠ ';')).length_le
  split at read
  · cases read
  · rename_i found
    cases read
    rw [found] at bound
    exact bound

/-- Reading uses up some of the text. -/
theorem length_of_readTy? {text rest : List Char} {ty : Ty} (read : readTy? text = some (ty, rest)) :
    rest.length < text.length := by
  fun_induction readTy? text generalizing ty rest with
  | case1 => cases read; simp
  | case2 => cases read; simp
  | case3 others =>
    rw [Option.map_eq_some_iff] at read
    rcases read with ⟨⟨name, after⟩, readName, same⟩
    cases same
    exact Nat.lt_succ_of_lt (length_of_readName? readName)
  | case4 others inductionHypothesis =>
    rw [Option.map_eq_some_iff] at read
    rcases read with ⟨⟨element, after⟩, readElement, same⟩
    cases same
    exact Nat.lt_succ_of_lt (inductionHypothesis readElement)
  | case5 => cases read

/-- Reads types up to the parenthesis that ends them. -/
def readInputs? (text : List Char) : Option (List Ty × List Char) :=
  match text with
  | ')' :: rest => some ([], rest)
  | text =>
    match _read : readTy? text with
    | none => none
    | some (ty, rest) => (readInputs? rest).map fun (tys, rest) => (ty :: tys, rest)
termination_by text.length
decreasing_by exact length_of_readTy? _read

/-- Reads a result, which may be nothing, and with which the text ends. -/
def readResult? : List Char → Option Ty
  | ['V'] => some .void
  | text =>
    match readTy? text with
    | some (ty, []) => some ty
    | _ => none

/-- Reads the types of a signature. -/
def readSignature? : List Char → Option (List Ty × Ty)
  | '(' :: text => do
    let (inputs, rest) ← readInputs? text
    return (inputs, ← readResult? rest)
  | _ => none

/-! ### What a descriptor says of a type -/

namespace Ty

/-- The type as its descriptor gives it: the string type is a class, and class names are in
internal form. -/
def normal : Ty → Ty
  | .string => .classRef stringClass
  | .classRef name => .classRef (slashed name)
  | .array element => .array element.normal
  | .int => .int
  | .boolean => .boolean
  | .void => .void
  | .receiver => .receiver

@[simp] theorem normal_eq_void_iff {ty : Ty} : ty.normal = .void ↔ ty = .void := by
  cases ty <;> simp [normal]

/-- The classes that a type names. -/
def classNames : Ty → List String
  | .classRef name => [name]
  | .array element => element.classNames
  | .int | .boolean | .void | .string | .receiver => []

/-- No class name of the type contains the character that ends class names. -/
def Plain (ty : Ty) : Prop :=
  ∀ name ∈ ty.classNames, ';' ∉ name.toList

instance (ty : Ty) : Decidable ty.Plain :=
  inferInstanceAs (Decidable (∀ name ∈ ty.classNames, ';' ∉ name.toList))

theorem Plain.resolve {enclosing : String} {ty : Ty} (plain : ty.Plain)
    (plainEnclosing : ';' ∉ enclosing.toList) : (ty.resolve enclosing).Plain := by
  induction ty with
  | receiver => simpa [Ty.resolve, Plain, classNames] using plainEnclosing
  | array element inductionHypothesis => exact inductionHypothesis plain
  | int | boolean | void | string | classRef => exact plain

end Ty

/-! ### Reading back -/

theorem readName?_append {name : String} (plain : ';' ∉ name.toList) (rest : List Char) :
    readName? (name.toList ++ ';' :: rest) = some (name, rest) := by
  have before : ∀ char ∈ name.toList, decide (char ≠ ';') = true := by
    intro char member
    exact decide_eq_true fun same => plain (same ▸ member)
  unfold readName?
  rw [List.dropWhile_append_of_pos before, List.takeWhile_append_of_pos before]
  simp

theorem plain_slashed {name : String} (plain : ';' ∉ name.toList) : ';' ∉ (slashed name).toList := by
  rw [slashed, String.toList_ofList, List.mem_map]
  rintro ⟨char, member, same⟩
  split at same
  · cases same
  · exact plain (same ▸ member)

/-- The descriptor of a type other than `void` is read back, whatever follows. -/
theorem readTy?_descriptor {ty : Ty} {site : Site} {text : String}
    (encoded : ty.descriptor site = .ok text) (notVoid : ty ≠ .void) (plain : ty.Plain)
    (rest : List Char) : readTy? (text.toList ++ rest) = some (ty.normal, rest) := by
  induction ty generalizing site text with
  | int | boolean =>
    cases encoded
    rfl
  | void => exact absurd rfl notVoid
  | string =>
    cases encoded
    have named : readName? (stringClass.toList ++ ';' :: rest) = some (stringClass, rest) :=
      readName?_append (by decide) rest
    simp [readTy?, named, Ty.normal]
  | array element inductionHypothesis =>
    rw [Ty.descriptor, bind_eq_ok_iff] at encoded
    rcases encoded with ⟨elementText, elementEncoded, encoded⟩
    cases encoded
    have elementNotVoid : element ≠ .void := by
      rintro rfl
      cases elementEncoded
    have readElement := inductionHypothesis elementEncoded elementNotVoid plain
    simp [readTy?, readElement, Ty.normal]
  | classRef name =>
    cases encoded
    have namePlain : ';' ∉ name.toList := plain name List.mem_cons_self
    have named := readName?_append (plain_slashed namePlain) rest
    simp [readTy?, named, Ty.normal]
  | receiver => cases encoded

/-- What starts with a type does not start with the end of the inputs. -/
theorem readInputs?_of_readTy? {text rest : List Char} {ty : Ty}
    (read : readTy? text = some (ty, rest)) :
    readInputs? text = (readInputs? rest).map fun (tys, rest) => (ty :: tys, rest) := by
  have notEnd : ∀ others, text ≠ ')' :: others := by
    rintro others rfl
    cases read
  rw [readInputs?]
  split
  · rename_i unread
    cases unread.symm.trans read
  · rename_i other after reread
    cases reread.symm.trans read
    rfl
  · exact notEnd

/-- The descriptors of inputs are read back up to the parenthesis. -/
theorem readInputs?_descriptors {inputSite : Site} {inputs : List Ty} {texts : List String}
    (isInput : inputSite ≠ .result)
    (encoded : inputs.mapM (fun input => input.descriptor inputSite) = .ok texts)
    (plain : ∀ input ∈ inputs, input.Plain) (rest : List Char) :
    readInputs? ((String.join texts).toList ++ ')' :: rest) = some (inputs.map Ty.normal, rest) := by
  induction inputs generalizing texts with
  | nil =>
    cases encoded
    simp [readInputs?]
  | cons input others inductionHypothesis =>
    simp only [List.mapM_cons, bind_eq_ok_iff, pure_eq_ok_iff] at encoded
    rcases encoded with ⟨text, inputEncoded, otherTexts, othersEncoded, rfl⟩
    rw [List.forall_mem_cons] at plain
    have notVoid : input ≠ .void := by
      rintro rfl
      cases inputSite with
      | result => exact isInput rfl
      | field | parameter | operand | argument | arrayElement => cases inputEncoded
    rw [String.join_cons, String.toList_append, List.append_assoc,
      readInputs?_of_readTy? (readTy?_descriptor inputEncoded notVoid plain.1 _),
      inductionHypothesis othersEncoded plain.2]
    rfl

theorem readResult?_of_readTy? {text : List Char} {ty : Ty} (read : readTy? text = some (ty, [])) :
    readResult? text = some ty := by
  unfold readResult?
  split
  · cases read
  · rw [read]

theorem readResult?_descriptor {result : Ty} {text : String}
    (encoded : result.descriptor .result = .ok text) (plain : result.Plain) :
    readResult? text.toList = some result.normal := by
  by_cases void : result = .void
  · subst void
    cases encoded
    rfl
  · have read := readTy?_descriptor encoded void plain []
    rw [List.append_nil] at read
    exact readResult?_of_readTy? read

/-- The descriptor of a signature is read back as the normal forms of its types. -/
theorem readSignature?_signatureDescriptor {inputSite : Site} {inputs : List Ty} {result : Ty}
    {text : String} (isInput : inputSite ≠ .result)
    (encoded : signatureDescriptor inputSite inputs result = .ok text)
    (plain : ∀ input ∈ inputs, input.Plain) (plainResult : result.Plain) :
    readSignature? text.toList = some (inputs.map Ty.normal, result.normal) := by
  simp only [signatureDescriptor, bind_eq_ok_iff, pure_eq_ok_iff] at encoded
  rcases encoded with ⟨texts, inputsEncoded, resultText, resultEncoded, rfl⟩
  have opened : ("(" ++ String.join texts ++ ")" ++ resultText).toList =
      '(' :: ((String.join texts).toList ++ ')' :: resultText.toList) := by simp
  rw [opened, readSignature?, readInputs?_descriptors isInput inputsEncoded plain]
  simp [readResult?_descriptor resultEncoded plainResult]

example :
    readSignature? "(I[Lutil/List;)V".toList = some ([.int, .array (.classRef "util/List")], .void) := by
  cbv

end Stackwright
