import Stackwright.Proofs.Fault
import Stackwright.Ty.Descriptor

/-!
Contract: which types have encodings, before and after the receiver type is resolved.

Owns:
- the innermost element of an array type;
- exactly which types have descriptors, and which own members;
- what resolution changes: the failures on the receiver type, and nothing else;
- exactly which signatures and calls have descriptors.
-/

namespace Stackwright

namespace Ty

/-- The element of an array type that is no array itself; any other type is its own. -/
def innermost : Ty → Ty
  | .array element => element.innermost
  | .int => .int
  | .boolean => .boolean
  | .void => .void
  | .string => .string
  | .classRef name => .classRef name
  | .receiver => .receiver

/-- An array type without values to put into its arrays. -/
def IsVoidArray (ty : Ty) : Prop :=
  ty.innermost = .void ∧ ty ≠ .void

instance (ty : Ty) : Decidable ty.IsVoidArray :=
  inferInstanceAs (Decidable (ty.innermost = .void ∧ ty ≠ .void))

/-- Members can be reached through values of the type: it is the string type, a class,
or an array type with a proper innermost element. -/
def OwnsMembers : Ty → Prop
  | .string | .classRef _ => True
  | .array element => element.innermost ≠ .void
  | .int | .boolean | .void | .receiver => False

instance : (ty : Ty) → Decidable ty.OwnsMembers
  | .string | .classRef _ => .isTrue trivial
  | .array element => inferInstanceAs (Decidable (element.innermost ≠ .void))
  | .int | .boolean | .void | .receiver => .isFalse id

theorem innermost_resolve_eq_void_iff (enclosing : String) (ty : Ty) :
    (ty.resolve enclosing).innermost = .void ↔ ty.innermost = .void := by
  induction ty with
  | array element inductionHypothesis => simpa [resolve, innermost] using inductionHypothesis
  | int | boolean | void | string | classRef | receiver => simp [resolve, innermost]

/-- The type can be written down at the site: it comes down neither to the receiver type nor to
`void`, but for `void` itself as a result. -/
def Encodes (ty : Ty) (site : Site) : Prop :=
  ty.innermost ≠ .receiver ∧ (ty.innermost ≠ .void ∨ ty = .void ∧ site = .result)

instance (ty : Ty) (site : Site) : Decidable (ty.Encodes site) :=
  inferInstanceAs (Decidable (_ ∧ _))

/-- Exactly the types that can be written down have a descriptor. -/
theorem settles_descriptor (ty : Ty) (site : Site) :
    Settles (fun _ => True) (ty.descriptor site) (ty.Encodes site) := by
  induction ty generalizing site with
  | array element inductionHypothesis =>
    apply (inductionHypothesis .arrayElement).map.congr
    simp [Encodes, innermost]
  | void =>
    cases site with
    | result => exact ⟨nofun, .inr ⟨rfl, rfl⟩⟩
    | field | parameter | operand | argument | arrayElement =>
      exact (Settles.error trivial).congr (by simp [Encodes, innermost])
  | receiver => exact (Settles.error trivial).congr (by simp [Encodes, innermost])
  | int | boolean | string | classRef => exact ⟨nofun, .inl nofun⟩

/-- A resolved type has a descriptor unless it comes down to `void`; `void` itself has
one as a result. -/
theorem settles_descriptor_resolve (enclosing : String) (ty : Ty) (site : Site) :
    Settles (fun _ => True) ((ty.resolve enclosing).descriptor site)
      (ty.innermost ≠ .void ∨ ty = .void ∧ site = .result) := by
  induction ty generalizing site with
  | array element inductionHypothesis =>
    apply (inductionHypothesis .arrayElement).map.congr
    simp [innermost]
  | void =>
    cases site with
    | result => exact Or.inr ⟨rfl, rfl⟩
    | field | parameter | operand | argument | arrayElement =>
      exact (Settles.error trivial).congr (by simp [innermost])
  | int | boolean | string | classRef | receiver => exact Or.inl nofun

theorem encodes_resolve_iff {enclosing : String} {ty : Ty} {site : Site} :
    (ty.resolve enclosing).Encodes site ↔ ty.innermost ≠ .void ∨ ty = .void ∧ site = .result :=
  ((ty.resolve enclosing).settles_descriptor site).ok_iff.symm.trans
    (settles_descriptor_resolve enclosing ty site).ok_iff

/-- A resolved type has an internal name exactly if it owns members. -/
theorem settles_internalName_resolve (enclosing : String) (ty : Ty) :
    Settles (fun _ => True) ((ty.resolve enclosing).internalName .operand)
      (ty.resolve enclosing).OwnsMembers := by
  cases ty with
  | array element =>
    apply (settles_descriptor_resolve enclosing (.array element) .operand).congr
    simp only [resolve, OwnsMembers, Ne, innermost_resolve_eq_void_iff, innermost]
    simp
  | string | classRef | receiver => exact trivial
  | int | boolean | void => exact .error trivial

end Ty

/-! ### What resolution changes -/

/-- The type without an encoding is the receiver type. -/
def EncodingFault.IsOfReceiver (fault : EncodingFault) : Prop :=
  ∃ site, fault = .ofTy .receiver site

/-- The fault of another type without a descriptor or an internal name is told apart by its
spelling. -/
theorem EncodingFault.not_isOfReceiver_ofTy {ty : Ty} {site : Site}
    (otherText : ty.text ≠ Ty.receiver.text) : ¬(EncodingFault.ofTy ty site).IsOfReceiver := by
  rintro ⟨receiverSite, sameFault⟩
  exact otherText (congrArg EncodingFault.typeText sameFault)

namespace Ty

/-- A type keeps its descriptor, or its failure, unless it fails on the receiver type. -/
theorem descriptor_resolve (enclosing : String) (ty : Ty) (site : Site) :
    KeepsUnless EncodingFault.IsOfReceiver (ty.descriptor site)
      ((ty.resolve enclosing).descriptor site) := by
  induction ty generalizing site with
  | array element inductionHypothesis => exact (inductionHypothesis .arrayElement).map
  | receiver => exact .inr ⟨.ofTy .receiver site, rfl, site, rfl⟩
  | int | boolean | void | string | classRef => exact .same _

/-- A resolved type does not fail on the receiver type. -/
theorem failsOnly_descriptor_resolve (enclosing : String) (ty : Ty) (site : Site) :
    FailsOnly (fun fault => ¬fault.IsOfReceiver) ((ty.resolve enclosing).descriptor site) := by
  induction ty generalizing site with
  | array element inductionHypothesis => exact (inductionHypothesis .arrayElement).map
  | void =>
    cases site with
    | result => exact .ok _
    | field | parameter | operand | argument | arrayElement =>
      exact .error (EncodingFault.not_isOfReceiver_ofTy (by decide))
  | int | boolean | string | classRef | receiver => exact .ok _

theorem failsOnly_internalName_resolve (enclosing : String) (ty : Ty) (site : Site) :
    FailsOnly (fun fault => ¬fault.IsOfReceiver) ((ty.resolve enclosing).internalName site) := by
  cases ty with
  | array element => exact failsOnly_descriptor_resolve enclosing (.array element) site
  | string | classRef | receiver => exact .ok _
  | int => exact .error (@EncodingFault.not_isOfReceiver_ofTy .int site (by decide))
  | boolean => exact .error (@EncodingFault.not_isOfReceiver_ofTy .boolean site (by decide))
  | void => exact .error (@EncodingFault.not_isOfReceiver_ofTy .void site (by decide))

end Ty

/-! ### Signatures -/

/-- A signature has a descriptor exactly if its inputs and its result have. -/
theorem settles_signatureDescriptor (inputSite : Site) (inputs : List Ty) (result : Ty) :
    Settles (fun _ => True) (signatureDescriptor inputSite inputs result)
      ((∀ input ∈ inputs, input.Encodes inputSite) ∧ result.Encodes .result) :=
  (Settles.mapM inputs fun input => input.settles_descriptor inputSite).bind fun _ _ =>
    (result.settles_descriptor .result).map

/-- A call has a descriptor exactly if its arguments and its result have. -/
theorem settles_callDescriptor_resolve (enclosing : String) (args : List Ty) (result : Ty) :
    Settles (fun _ => True)
      (callDescriptor (args.map (Ty.resolve enclosing)) (result.resolve enclosing))
      ((∀ arg ∈ args, arg.innermost ≠ .void) ∧ ¬result.IsVoidArray) := by
  have settlesArgs : Settles (fun _ => True)
      ((args.map (Ty.resolve enclosing)).mapM fun arg => arg.descriptor .argument)
      (∀ arg ∈ args, arg.innermost ≠ .void) := by
    rw [List.mapM_map]
    apply Settles.mapM
    intro arg
    exact (Ty.settles_descriptor_resolve enclosing arg .argument).congr (by simp)
  apply settlesArgs.bind
  intro encoded _
  apply (Ty.settles_descriptor_resolve enclosing result .result).map.congr
  by_cases void : result = .void
  · simp [void, Ty.IsVoidArray]
  · simp [void, Ty.IsVoidArray]

end Stackwright
