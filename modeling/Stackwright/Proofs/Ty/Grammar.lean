import Mathlib.Data.List.Forall2
import Stackwright.Proofs.Ty.Reading

/-!
Contract: the grammar of descriptors, and that nothing in it can be read in two ways.

Owns:
- which texts spell a type, the inputs and the result of a signature, and a signature;
- the reader of descriptors accepts exactly what the grammar derives;
- a text spells at most one signature, and a signature has at most one text;
- a call site and a declaration have the same descriptor exactly if their types have the same
  normal forms.

Inputs follow each other without a separator. What tells them apart is that no text of a type
continues to the text of another, however types are nested and classes are named.
-/

namespace Stackwright

/-! ### The grammar -/

/-- A text spells a type that values have. -/
inductive SpellsTy : List Char → Ty → Prop where
  | int : SpellsTy ['I'] .int
  | boolean : SpellsTy ['Z'] .boolean
  | classRef {name : String} (plain : ';' ∉ name.toList) :
      SpellsTy ('L' :: (name.toList ++ [';'])) (.classRef name)
  | array {text : List Char} {element : Ty} (spells : SpellsTy text element) :
      SpellsTy ('[' :: text) (.array element)

/-- A text spells several types, one after the other. -/
inductive SpellsInputs : List Char → List Ty → Prop where
  | nil : SpellsInputs [] []
  | cons {text rest : List Char} {ty : Ty} {tys : List Ty} (spells : SpellsTy text ty)
      (spellsRest : SpellsInputs rest tys) : SpellsInputs (text ++ rest) (ty :: tys)

/-- A text spells what a method returns, which may be nothing. -/
inductive SpellsResult : List Char → Ty → Prop where
  | void : SpellsResult ['V'] .void
  | value {text : List Char} {ty : Ty} (spells : SpellsTy text ty) : SpellsResult text ty

/-- A text spells a signature. -/
inductive SpellsSignature : List Char → List Ty → Ty → Prop where
  | intro {inputs output : List Char} {tys : List Ty} {result : Ty}
      (spellsInputs : SpellsInputs inputs tys) (spellsResult : SpellsResult output result) :
      SpellsSignature ('(' :: (inputs ++ ')' :: output)) tys result

/-! ### The reader accepts what the grammar derives -/

theorem readName?_eq_some_iff {text rest : List Char} {name : String} :
    readName? text = some (name, rest) ↔ ';' ∉ name.toList ∧ text = name.toList ++ ';' :: rest := by
  constructor
  · intro read
    have split := List.takeWhile_append_dropWhile (p := (· ≠ ';')) (l := text)
    have stops := List.head?_dropWhile_not (· ≠ ';') text
    unfold readName? at read
    split at read
    · cases read
    · next last others found =>
      cases read
      simp only [found, List.head?_cons, decide_eq_false_iff_not, not_not] at stops
      rw [found, stops] at split
      rw [String.toList_ofList, split]
      refine ⟨?_, rfl⟩
      intro inside
      have notEnd := List.all_eq_true.1 List.all_takeWhile _ inside
      simp at notEnd
  · rintro ⟨plain, rfl⟩
    exact readName?_append plain rest

theorem readTy?_eq_some_iff {text rest : List Char} {ty : Ty} :
    readTy? text = some (ty, rest) ↔ ∃ front, SpellsTy front ty ∧ text = front ++ rest := by
  constructor
  · intro read
    fun_induction readTy? text generalizing ty rest with
    | case1 =>
      cases read
      exact ⟨['I'], .int, rfl⟩
    | case2 =>
      cases read
      exact ⟨['Z'], .boolean, rfl⟩
    | case3 others =>
      rcases Option.map_eq_some_iff.1 read with ⟨⟨name, after⟩, readName, same⟩
      cases same
      rcases readName?_eq_some_iff.1 readName with ⟨plain, rfl⟩
      exact ⟨_, .classRef plain, by simp⟩
    | case4 others inductionHypothesis =>
      rcases Option.map_eq_some_iff.1 read with ⟨⟨element, after⟩, readElement, same⟩
      cases same
      rcases inductionHypothesis readElement with ⟨front, spells, rfl⟩
      exact ⟨'[' :: front, .array spells, rfl⟩
    | case5 => cases read
  · rintro ⟨front, spells, rfl⟩
    induction spells with
    | int | boolean => rfl
    | classRef plain => simp [readTy?, readName?_append plain]
    | array spells inductionHypothesis => simp [readTy?, inductionHypothesis]

theorem readInputs?_eq_some_iff {text rest : List Char} {tys : List Ty} :
    readInputs? text = some (tys, rest) ↔ ∃ front, SpellsInputs front tys ∧ text = front ++ ')' :: rest := by
  constructor
  · intro read
    fun_induction readInputs? text generalizing tys rest with
    | case1 others =>
      cases read
      exact ⟨[], .nil, rfl⟩
    | case2 => cases read
    | case3 text notEnd ty after readFirst inductionHypothesis =>
      rcases Option.map_eq_some_iff.1 read with ⟨⟨others, end?⟩, readRest, same⟩
      cases same
      rcases inductionHypothesis readRest with ⟨restFront, spellsRest, rfl⟩
      rcases readTy?_eq_some_iff.1 readFirst with ⟨front, spells, rfl⟩
      exact ⟨front ++ restFront, .cons spells spellsRest, by simp⟩
  · rintro ⟨front, spells, rfl⟩
    induction spells with
    | nil => simp [readInputs?]
    | @cons text restText ty tys spells spellsRest inductionHypothesis =>
      have readFirst := readTy?_eq_some_iff.2 ⟨text, spells, List.append_assoc text restText (')' :: rest)⟩
      rw [readInputs?_of_readTy? readFirst, inductionHypothesis]
      rfl

theorem readResult?_eq_some_iff {text : List Char} {ty : Ty} :
    readResult? text = some ty ↔ SpellsResult text ty := by
  constructor
  · intro read
    unfold readResult? at read
    split at read
    · cases read
      exact .void
    · split at read
      · next readWhole =>
        cases read
        rcases readTy?_eq_some_iff.1 readWhole with ⟨front, spells, rfl⟩
        rw [List.append_nil]
        exact .value spells
      · cases read
  · intro spells
    cases spells with
    | void => rfl
    | value spells =>
      exact readResult?_of_readTy? (readTy?_eq_some_iff.2 ⟨text, spells, (List.append_nil text).symm⟩)

/-- The reader finds a signature exactly where the grammar derives it. -/
theorem readSignature?_eq_some_iff {text : List Char} {tys : List Ty} {result : Ty} :
    readSignature? text = some (tys, result) ↔ SpellsSignature text tys result := by
  constructor
  · intro read
    unfold readSignature? at read
    split at read
    · next others =>
      simp only [Option.bind_eq_bind, Option.bind_eq_some_iff, Option.pure_def, Option.some.injEq] at read
      rcases read with ⟨⟨inputs, rest⟩, readInputs, output, readResult, same⟩
      cases same
      rcases readInputs?_eq_some_iff.1 readInputs with ⟨front, spellsInputs, rfl⟩
      exact .intro spellsInputs (readResult?_eq_some_iff.1 readResult)
    · cases read
  · rintro ⟨spellsInputs, spellsResult⟩
    rw [readSignature?, readInputs?_eq_some_iff.2 ⟨_, spellsInputs, rfl⟩]
    simp [readResult?_eq_some_iff.2 spellsResult]

/-! ### One text, one signature -/

/-- A text spells at most one signature. -/
theorem SpellsSignature.unique {text : List Char} {tys otherTys : List Ty} {result otherResult : Ty}
    (spells : SpellsSignature text tys result) (otherwise : SpellsSignature text otherTys otherResult) :
    tys = otherTys ∧ result = otherResult := by
  have sameReading := (readSignature?_eq_some_iff.2 spells).symm.trans (readSignature?_eq_some_iff.2 otherwise)
  cases sameReading
  exact ⟨rfl, rfl⟩

theorem SpellsTy.text_unique {text other : List Char} {ty : Ty} (spells : SpellsTy text ty)
    (otherwise : SpellsTy other ty) : text = other := by
  induction spells generalizing other with
  | int | boolean | classRef =>
    cases otherwise
    rfl
  | array spells inductionHypothesis =>
    cases otherwise with
    | array otherSpells => rw [inductionHypothesis otherSpells]

theorem SpellsInputs.text_unique {text other : List Char} {tys : List Ty} (spells : SpellsInputs text tys)
    (otherwise : SpellsInputs other tys) : text = other := by
  induction spells generalizing other with
  | nil =>
    cases otherwise
    rfl
  | cons spells spellsRest inductionHypothesis =>
    cases otherwise with
    | cons otherSpells otherRest =>
      rw [spells.text_unique otherSpells, inductionHypothesis otherRest]

theorem SpellsResult.text_unique {text other : List Char} {ty : Ty} (spells : SpellsResult text ty)
    (otherwise : SpellsResult other ty) : text = other := by
  cases spells with
  | void =>
    cases otherwise with
    | void => rfl
    | value impossible => cases impossible
  | value spells =>
    cases otherwise with
    | void => cases spells
    | value otherSpells => exact spells.text_unique otherSpells

/-- A signature is spelled in one way. -/
theorem SpellsSignature.text_unique {text other : List Char} {tys : List Ty} {result : Ty}
    (spells : SpellsSignature text tys result) (otherwise : SpellsSignature other tys result) :
    text = other := by
  rcases spells with ⟨spellsInputs, spellsResult⟩
  rcases otherwise with ⟨otherInputs, otherResult⟩
  rw [spellsInputs.text_unique otherInputs, spellsResult.text_unique otherResult]

/-! ### Descriptors -/

/-- The descriptor of a signature spells the normal forms of its types, and nothing else. -/
theorem spellsSignature_signatureDescriptor_iff {inputSite : Site} {inputs : List Ty} {result : Ty}
    {text : String} (isInput : inputSite ≠ .result)
    (encoded : signatureDescriptor inputSite inputs result = .ok text)
    (plain : ∀ input ∈ inputs, input.Plain) (plainResult : result.Plain) {tys : List Ty} {output : Ty} :
    SpellsSignature text.toList tys output ↔ tys = inputs.map Ty.normal ∧ output = result.normal := by
  have spells := readSignature?_eq_some_iff.1
    (readSignature?_signatureDescriptor isInput encoded plain plainResult)
  constructor
  · intro otherwise
    exact otherwise.unique spells
  · rintro ⟨rfl, rfl⟩
    exact spells

/-- A call site links to a declaration exactly if their types match one by one, up to normal form.
The descriptors of both are read in one way only, by which they give all their types back. -/
theorem methodDescriptor_eq_callDescriptor_iff {params args : List Ty} {declaredResult calledResult : Ty}
    {declared called : String}
    (plainParams : ∀ param ∈ params, param.Plain) (plainDeclared : declaredResult.Plain)
    (plainArgs : ∀ arg ∈ args, arg.Plain) (plainCalled : calledResult.Plain)
    (declares : methodDescriptor params declaredResult = .ok declared)
    (calls : callDescriptor args calledResult = .ok called) :
    (declared = called ↔
      List.Forall₂ (fun param arg => param.normal = arg.normal) params args ∧
        declaredResult.normal = calledResult.normal) ∧
    (∀ tys output, SpellsSignature declared.toList tys output ↔
      tys = params.map Ty.normal ∧ output = declaredResult.normal) ∧
    (∀ tys output, SpellsSignature called.toList tys output ↔
      tys = args.map Ty.normal ∧ output = calledResult.normal) := by
  have declaredIff (tys : List Ty) (output : Ty) : SpellsSignature declared.toList tys output ↔
      tys = params.map Ty.normal ∧ output = declaredResult.normal :=
    spellsSignature_signatureDescriptor_iff (by decide) declares plainParams plainDeclared
  have calledIff (tys : List Ty) (output : Ty) : SpellsSignature called.toList tys output ↔
      tys = args.map Ty.normal ∧ output = calledResult.normal :=
    spellsSignature_signatureDescriptor_iff (by decide) calls plainArgs plainCalled
  have pairwise : List.Forall₂ (fun param arg => param.normal = arg.normal) params args ↔
      params.map Ty.normal = args.map Ty.normal := by
    rw [← List.forall₂_eq_eq_eq, List.forall₂_map_left_iff, List.forall₂_map_right_iff]
  refine ⟨?_, declaredIff, calledIff⟩
  have spells := (declaredIff _ _).2 ⟨rfl, rfl⟩
  rw [pairwise]
  constructor
  · rintro rfl
    exact (calledIff _ _).1 spells
  · intro sameNormals
    exact String.toList_injective (spells.text_unique ((calledIff _ _).2 sameNormals))

/-- The parameters of a search, as they are declared. -/
def searchParams : List Ty :=
  [.array (.classRef "util.List"), .string, .int]

/-- Arguments of it, whose types are written in another way. -/
def searchArgs : List Ty :=
  [.array (.classRef "util/List"), .classRef "java.lang.String", .int]

/-- The descriptor of both. -/
def searchDescriptor : String :=
  "([Lutil/List;Ljava/lang/String;I)Z"

theorem methodDescriptor_eq_callDescriptor_iff_of_search :
    (∀ param ∈ searchParams, param.Plain) ∧ (∀ arg ∈ searchArgs, arg.Plain) ∧
    methodDescriptor searchParams .boolean = .ok searchDescriptor ∧
    callDescriptor searchArgs .boolean = .ok searchDescriptor ∧
    (List.Forall₂ (fun param arg => param.normal = arg.normal) searchParams searchArgs ∧
      Ty.boolean.normal = Ty.boolean.normal) ∧
    (∀ tys output, SpellsSignature searchDescriptor.toList tys output ↔
      tys = searchParams.map Ty.normal ∧ output = Ty.boolean.normal) := by
  have plainParams : ∀ param ∈ searchParams, param.Plain := by decide
  have plainArgs : ∀ arg ∈ searchArgs, arg.Plain := by decide
  have declares : methodDescriptor searchParams .boolean = .ok searchDescriptor := rfl
  have calls : callDescriptor searchArgs .boolean = .ok searchDescriptor := rfl
  have linked := methodDescriptor_eq_callDescriptor_iff plainParams (by decide) plainArgs (by decide)
    declares calls
  exact ⟨plainParams, plainArgs, declares, calls, linked.1.1 rfl, linked.2.1⟩

end Stackwright
