import Stackwright.Proofs.Generation.Derivation

/-!
Contract: what the machine reads in a descriptor.

Owns:
- the grammar of descriptors, with the kinds of the values that they describe;
- every descriptor that a call is given is read as the kinds of its argument and result
  types.

Which texts are class names is left to the machine. One that takes every text for a name
reads all descriptors.
-/

namespace Stackwright

variable {isName : List Char → Prop}

/-- A text describes the type of a value of some kind. Truth values and the short
integers are of the integer kind. -/
inductive DescribesType (isName : List Char → Prop) : List Char → Kind → Prop where
  | int {letter : Char} (isInt : letter ∈ ['I', 'Z', 'B', 'C', 'S']) :
      DescribesType isName [letter] .int
  | classRef {name : List Char} (named : isName name) :
      DescribesType isName ('L' :: (name ++ [';'])) .reference
  | array {component : List Char} {kind : Kind} (describes : DescribesType isName component kind) :
      DescribesType isName ('[' :: component) .reference

/-- A text describes several types, one after the other. -/
inductive DescribesTypes (isName : List Char → Prop) : List Char → List Kind → Prop where
  | nil : DescribesTypes isName [] []
  | cons {first rest : List Char} {kind : Kind} {kinds : List Kind}
      (describesFirst : DescribesType isName first kind)
      (describesRest : DescribesTypes isName rest kinds) :
      DescribesTypes isName (first ++ rest) (kind :: kinds)

/-- A text describes a method: the kinds of its arguments, and of its result if it has
one. -/
inductive DescribesMethod (isName : List Char → Prop) :
    List Char → List Kind → Option Kind → Prop where
  | void {inputs : List Char} {args : List Kind} (describesArgs : DescribesTypes isName inputs args) :
      DescribesMethod isName ('(' :: (inputs ++ [')', 'V'])) args none
  | value {inputs output : List Char} {args : List Kind} {result : Kind}
      (describesArgs : DescribesTypes isName inputs args)
      (describesResult : DescribesType isName output result) :
      DescribesMethod isName ('(' :: (inputs ++ ')' :: output)) args (some result)

/-- The classes in a type have names that the machine takes for such. -/
def Ty.NamesClasses (isName : List Char → Prop) : Ty → Prop
  | .string => isName stringClass.toList
  | .classRef name => isName (slashed name).toList
  | .array element => element.NamesClasses isName
  | .int | .boolean | .void | .receiver => True

/-- A descriptor describes its type, unless that is `void`. -/
theorem Ty.describes_of_descriptor {ty : Ty} {site : Site} {text : String}
    (encoded : ty.descriptor site = .ok text) (notVoid : ty ≠ .void)
    (named : ty.NamesClasses isName) :
    ∃ kind, ty.kind? = some kind ∧ DescribesType isName text.toList kind := by
  induction ty generalizing site text with
  | int =>
    cases encoded
    exact ⟨.int, rfl, .int (by decide)⟩
  | boolean =>
    cases encoded
    exact ⟨.int, rfl, .int (by decide)⟩
  | void => exact absurd rfl notVoid
  | string =>
    cases encoded
    refine ⟨.reference, rfl, ?_⟩
    rw [String.toList_append, String.toList_append]
    exact .classRef named
  | array element inductionHypothesis =>
    rw [descriptor, bind_eq_ok_iff] at encoded
    rcases encoded with ⟨elementText, elementEncoded, encoded⟩
    cases encoded
    have elementNotVoid : element ≠ .void := by
      rintro rfl
      cases elementEncoded
    rcases inductionHypothesis elementEncoded elementNotVoid named with ⟨kind, -, describes⟩
    refine ⟨.reference, rfl, ?_⟩
    rw [String.toList_append]
    exact .array describes
  | classRef name =>
    cases encoded
    refine ⟨.reference, rfl, ?_⟩
    rw [String.toList_append, String.toList_append]
    exact .classRef named
  | receiver => cases encoded

theorem describes_of_mapM_descriptor {args : List Ty} {texts : List String}
    (encoded : args.mapM (fun arg => arg.descriptor .argument) = .ok texts)
    (named : ∀ arg ∈ args, arg.NamesClasses isName) :
    ∃ kinds, args.map Ty.kind? = kinds.map some ∧
      DescribesTypes isName (String.join texts).toList kinds := by
  induction args generalizing texts with
  | nil =>
    cases encoded
    exact ⟨[], rfl, .nil⟩
  | cons arg rest inductionHypothesis =>
    simp only [List.mapM_cons, bind_eq_ok_iff, pure_eq_ok_iff] at encoded
    rcases encoded with ⟨text, argEncoded, restTexts, restEncoded, rfl⟩
    have notVoid : arg ≠ .void := by
      rintro rfl
      cases argEncoded
    rcases Ty.describes_of_descriptor argEncoded notVoid (named arg List.mem_cons_self) with
      ⟨kind, hasKind, describes⟩
    rcases inductionHypothesis restEncoded
      (fun later member => named later (List.mem_cons_of_mem arg member)) with ⟨kinds, haveKinds, describesRest⟩
    refine ⟨kind :: kinds, ?_, ?_⟩
    · rw [List.map_cons, List.map_cons, hasKind, haveKinds]
    · rw [String.join_cons, String.toList_append]
      exact .cons describes describesRest

/-- The descriptor of a call describes a method with the kinds of its types. -/
theorem describes_of_callDescriptor {args : List Ty} {result : Ty} {text : String}
    (encoded : callDescriptor args result = .ok text)
    (named : ∀ arg ∈ args, arg.NamesClasses isName) (namedResult : result.NamesClasses isName) :
    ∃ kinds, args.map Ty.kind? = kinds.map some ∧
      DescribesMethod isName text.toList kinds result.kind? := by
  simp only [callDescriptor, signatureDescriptor, bind_eq_ok_iff, pure_eq_ok_iff] at encoded
  rcases encoded with ⟨texts, argsEncoded, resultText, resultEncoded, rfl⟩
  rcases describes_of_mapM_descriptor argsEncoded named with ⟨kinds, haveKinds, describesArgs⟩
  refine ⟨kinds, haveKinds, ?_⟩
  have texted : ("(" ++ String.join texts ++ ")" ++ resultText).toList =
      '(' :: ((String.join texts).toList ++ ')' :: resultText.toList) := by simp
  rw [texted]
  by_cases void : result = .void
  · subst void
    cases resultEncoded
    exact .void describesArgs
  · rcases Ty.describes_of_descriptor resultEncoded void namedResult with ⟨kind, hasKind, describes⟩
    rw [hasKind]
    exact .value describesArgs describes

end Stackwright
