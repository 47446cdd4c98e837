import Stackwright.Proofs.Ty.Encoding
import Stackwright.Ty.Suffix

/-!
Contract: the three encodings of a type, by its array layers and the base below them.

Owns:
- a type as a number of array layers over a base that is no array;
- descriptors: when they exist, what they say, and which fault is reported instead;
- internal names and suffixes in the same way;
- where suffixes and descriptors of resolved types disagree: arrays over the receiver type.

Each encoding goes down the layers on its own, and they differ in what they ask of the
base: a descriptor asks at the site of an element as soon as there is a layer, while a
suffix looks at the base from the innermost layer.
-/

namespace Stackwright

/-- A word several times over. -/
def repeated (word : String) (count : Nat) : String :=
  String.join (List.replicate count word)

theorem repeated_succ (word : String) (count : Nat) :
    repeated word (count + 1) = word ++ repeated word count := by
  rw [repeated, List.replicate_succ, String.join_cons, repeated]

@[simp] theorem empty_repeated_append (word rest : String) : repeated word 0 ++ rest = rest :=
  String.empty_append

namespace Ty

/-! ### Layers and bases -/

/-- The number of array layers of a type. -/
def depth : Ty → Nat
  | .array element => element.depth + 1
  | .int | .boolean | .void | .string | .classRef _ | .receiver => 0

/-- A number of array layers over a type. -/
def layered (base : Ty) : (layers : Nat) → Ty
  | 0 => base
  | layers + 1 => .array (base.layered layers)

/-- Every type is layered over its innermost element. -/
theorem layered_innermost (ty : Ty) : ty.innermost.layered ty.depth = ty := by
  induction ty with
  | array element inductionHypothesis => exact congrArg Ty.array inductionHypothesis
  | int | boolean | void | string | classRef | receiver => rfl

theorem innermost_ne_array (ty element : Ty) : ty.innermost ≠ .array element := by
  induction ty with
  | array inner inductionHypothesis => exact inductionHypothesis
  | int | boolean | void | string | classRef | receiver => exact nofun

/-- A type without layers is its own base. -/
theorem innermost_of_depth {ty : Ty} (noLayers : ty.depth = 0) : ty.innermost = ty := by
  cases ty with
  | array element => cases noLayers
  | int | boolean | void | string | classRef | receiver => rfl

theorem eq_void_iff {ty : Ty} : ty = .void ↔ ty.innermost = .void ∧ ty.depth = 0 := by
  constructor
  · rintro rfl
    exact ⟨rfl, rfl⟩
  · rintro ⟨base, noLayers⟩
    rw [← innermost_of_depth noLayers]
    exact base

/-! ### Descriptors -/

/-- The letter or class of a base in descriptors. -/
def baseCode? : Ty → Option String
  | .int => some "I"
  | .boolean => some "Z"
  | .void => some "V"
  | .string => some "Ljava/lang/String;"
  | .classRef name => some ("L" ++ slashed name ++ ";")
  | .array _ | .receiver => none

/-- A descriptor is a bracket for each layer, followed by the code of the base. -/
theorem gives_descriptor_of_layers (ty : Ty) (site : Site) :
    Gives (fun text => ∃ code, ty.innermost.baseCode? = some code ∧ text = repeated "[" ty.depth ++ code)
      (ty.descriptor site) := by
  induction ty generalizing site with
  | array element inductionHypothesis =>
    refine Gives.map (inductionHypothesis .arrayElement) ?_
    rintro _ ⟨code, ofBase, rfl⟩
    refine ⟨code, ofBase, ?_⟩
    rw [depth, repeated_succ, String.append_assoc]
  | void =>
    cases site with
    | result => exact .ok ⟨"V", rfl, rfl⟩
    | field | parameter | operand | argument | arrayElement => exact .error _
  | int | boolean | string | classRef =>
    apply Gives.ok
    exact ⟨_, rfl, (empty_repeated_append _ _).symm⟩
  | receiver => exact .error _

/-- What has no descriptor is the base: at the site itself, or at that of an element if there
is a layer. -/
theorem failsOnly_descriptor (ty : Ty) (site : Site) :
    FailsOnly (· = .ofTy ty.innermost (if ty.depth = 0 then site else .arrayElement))
      (ty.descriptor site) := by
  induction ty generalizing site with
  | array element inductionHypothesis =>
    have ofElement := inductionHypothesis .arrayElement
    rw [ite_self] at ofElement
    exact ofElement.map
  | void =>
    cases site with
    | result => exact .ok _
    | field | parameter | operand | argument | arrayElement => exact .error rfl
  | int | boolean | string | classRef => exact .ok _
  | receiver => exact .error rfl

/-- The condition on a type to be written down, by its layers and its base. -/
theorem encodes_iff {ty : Ty} {site : Site} :
    ty.Encodes site ↔
      ty.innermost ≠ .receiver ∧ (ty.innermost = .void → ty.depth = 0 ∧ site = .result) := by
  rw [Encodes, eq_void_iff]
  grind

/-! ### Internal names -/

/-- Members are addressed by the class of a base, without the letter and the semicolon of its
descriptor, and by the descriptor of an array type. -/
theorem gives_internalName_of_layers (ty : Ty) (site : Site) :
    Gives (fun name => ty.descriptor site = .ok (if ty.depth = 0 then "L" ++ name ++ ";" else name))
      (ty.internalName site) := by
  cases ty with
  | array element =>
    intro name named
    exact named
  | string | classRef => exact .ok rfl
  | int | boolean | void | receiver => exact .error _

/-- A type owns its name if it is the string type, a class, or an array type with a descriptor. -/
theorem settles_internalName (ty : Ty) (site : Site) :
    Settles (· = .ofTy ty.innermost (if ty.depth = 0 then site else .arrayElement))
      (ty.internalName site)
      (ty.depth = 0 ∧ (ty.innermost = .string ∨ ∃ name, ty.innermost = .classRef name) ∨
        0 < ty.depth ∧ ∃ text, ty.descriptor site = .ok text) := by
  cases ty with
  | array element =>
    have fails := failsOnly_descriptor (.array element) site
    rw [internalName]
    cases described : (Ty.array element).descriptor site with
    | ok text => exact .inr ⟨Nat.succ_pos _, text, rfl⟩
    | error fault =>
      refine ⟨?_, fails fault described⟩
      rintro (⟨noLayers, -⟩ | ⟨-, text, succeeds⟩)
      · cases noLayers
      · cases succeeds
  | string => exact .inl ⟨rfl, .inl rfl⟩
  | classRef name => exact .inl ⟨rfl, .inr ⟨name, rfl⟩⟩
  | int | boolean | void | receiver =>
    refine ⟨?_, rfl⟩
    simp [depth, innermost]

/-! ### Suffixes -/

/-- The suffix of a base. -/
def baseSuffix? : Ty → Option String
  | .int => some ".i32"
  | .boolean => some ".bool"
  | .void => some ".V"
  | .string => some ".String"
  | .classRef name => some ("." ++ name)
  | .receiver => some ".this"
  | .array _ => none

/-- A suffix is a mark for each layer, followed by the suffix of the base. -/
theorem gives_suffix_of_layers (ty : Ty) :
    Gives (fun text => ∃ suffix, ty.innermost.baseSuffix? = some suffix ∧
      text = repeated ".array" ty.depth ++ suffix) ty.suffix := by
  induction ty with
  | array element inductionHypothesis =>
    by_cases isVoid : element = .void
    · subst isVoid
      exact .error _
    by_cases isReceiver : element = .receiver
    · subst isReceiver
      exact .error _
    rw [suffix_array isVoid isReceiver]
    refine Gives.map inductionHypothesis ?_
    rintro _ ⟨suffix, ofBase, rfl⟩
    refine ⟨suffix, ofBase, ?_⟩
    rw [depth, repeated_succ, String.append_assoc]
  | int | boolean | void | string | classRef | receiver =>
    apply Gives.ok
    exact ⟨_, rfl, (empty_repeated_append _ _).symm⟩

/-- Only arrays over `void` or the receiver type have no suffix, and the fault names the
innermost array type. -/
theorem settles_suffix (ty : Ty) :
    Settles (· = .ofTy (.array ty.innermost) .arrayElement) ty.suffix
      ¬(0 < ty.depth ∧ (ty.innermost = .void ∨ ty.innermost = .receiver)) := by
  induction ty with
  | array element inductionHypothesis =>
    by_cases isVoid : element = .void
    · subst isVoid
      exact ⟨fun proper => proper ⟨Nat.one_pos, .inl rfl⟩, rfl⟩
    by_cases isReceiver : element = .receiver
    · subst isReceiver
      exact ⟨fun proper => proper ⟨Nat.one_pos, .inr rfl⟩, rfl⟩
    rw [suffix_array isVoid isReceiver]
    apply inductionHypothesis.map.congr
    -- without a layer the element is its own base, and neither of the two that were ruled out
    have layered_of_base (base : Ty) (differs : element ≠ base) (ofBase : element.innermost = base) :
        0 < element.depth := by
      apply Nat.pos_of_ne_zero
      intro noLayers
      rw [innermost_of_depth noLayers] at ofBase
      exact differs ofBase
    have forVoid := layered_of_base .void isVoid
    have forReceiver := layered_of_base .receiver isReceiver
    simp only [depth, innermost, Nat.succ_pos, true_and]
    grind
  | int | boolean | void | string | classRef | receiver =>
    show ¬(0 < 0 ∧ _)
    simp

/-! ### The encodings together -/

/-- The encodings of a type follow from its array layers and its base alone. -/
structure EncodedByLayers (ty : Ty) (site : Site) (enclosing : String) : Prop where
  base_ne_array : ∀ element, ty.innermost ≠ .array element
  layers : ty.innermost.layered ty.depth = ty
  descriptor_ok_iff : (∃ text, ty.descriptor site = .ok text) ↔
    ty.innermost ≠ .receiver ∧ (ty.innermost = .void → ty.depth = 0 ∧ site = .result)
  descriptor_text : ∀ text, ty.descriptor site = .ok text →
    ∃ code, ty.innermost.baseCode? = some code ∧ text = repeated "[" ty.depth ++ code
  descriptor_fault : ∀ fault, ty.descriptor site = .error fault →
    fault = { typeText := ty.innermost.text, site := if ty.depth = 0 then site else .arrayElement }
  internalName_ok_iff : (∃ name, ty.internalName site = .ok name) ↔
    ty.depth = 0 ∧ (ty.innermost = .string ∨ ∃ name, ty.innermost = .classRef name) ∨
      0 < ty.depth ∧ ∃ text, ty.descriptor site = .ok text
  internalName_text : ∀ name, ty.internalName site = .ok name →
    ty.descriptor site = .ok (if ty.depth = 0 then "L" ++ name ++ ";" else name)
  internalName_fault : ∀ fault, ty.internalName site = .error fault →
    fault = { typeText := ty.innermost.text, site := if ty.depth = 0 then site else .arrayElement }
  suffix_error_iff : (∃ fault, ty.suffix = .error fault) ↔
    0 < ty.depth ∧ (ty.innermost = .void ∨ ty.innermost = .receiver)
  suffix_text : ∀ text, ty.suffix = .ok text →
    ∃ suffix, ty.innermost.baseSuffix? = some suffix ∧ text = repeated ".array" ty.depth ++ suffix
  suffix_fault : ∀ fault, ty.suffix = .error fault →
    fault = { typeText := ty.innermost.text ++ "[]", site := .arrayElement }
  descriptor_of_suffix : ∀ text, ty.suffix = .ok text →
    ∃ code, (ty.resolve enclosing).descriptor .result = .ok code
  descriptor_only_iff :
    (∃ code, (ty.resolve enclosing).descriptor .result = .ok code) ∧
        (∃ fault, ty.suffix = .error fault) ↔
      0 < ty.depth ∧ ty.innermost = .receiver

theorem encoded_by_layers (ty : Ty) (site : Site) (enclosing : String) :
    ty.EncodedByLayers site enclosing where
  base_ne_array := ty.innermost_ne_array
  layers := ty.layered_innermost
  descriptor_ok_iff := (ty.settles_descriptor site).ok_iff.trans encodes_iff
  descriptor_text := ty.gives_descriptor_of_layers site
  descriptor_fault := ty.failsOnly_descriptor site
  internalName_ok_iff := (ty.settles_internalName site).ok_iff
  internalName_text := ty.gives_internalName_of_layers site
  internalName_fault _ := (ty.settles_internalName site).form_of_error
  suffix_error_iff := ty.settles_suffix.error_iff.trans Decidable.not_not
  suffix_text := ty.gives_suffix_of_layers
  suffix_fault _ := ty.settles_suffix.form_of_error
  descriptor_of_suffix text written := by
    have notRefused := ty.settles_suffix.accepted_of_ok written
    rw [(settles_descriptor_resolve enclosing ty .result).ok_iff, eq_void_iff]
    grind
  descriptor_only_iff := by
    rw [(settles_descriptor_resolve enclosing ty .result).ok_iff, eq_void_iff,
      ty.settles_suffix.error_iff]
    grind

end Ty

end Stackwright
