import Stackwright.Frame.Layout
import Stackwright.Proofs.Tree.Positions

/-!
Contract: trees that use values as values of the kinds that they have.

Owns:
- variables that are read where they are known: given from the start or assigned before;
- the kind of the value of a tree;
- bodies that keep to one kind for each variable name and use their values by kind.

Nothing is asked of a variable that is not read, and the types of one variable may differ
as long as their kinds agree.
-/

namespace Stackwright

/-- Every variable that is read is known by then, unless it denotes the receiver. A
variable is known from where it is assigned. -/
def ReadsKnown (known : List String) : List VariableAccess → Prop
  | [] => True
  | .read name ty :: rest => (ty = .receiver ∨ name ∈ known) ∧ ReadsKnown known rest
  | .write name _ :: rest => ReadsKnown (name :: known) rest

/-- Whether variables are known where they are read, access by access. -/
def decideReadsKnown (known : List String) : (accesses : List VariableAccess) →
    Decidable (ReadsKnown known accesses)
  | [] => .isTrue trivial
  | .read name ty :: rest =>
    have := decideReadsKnown known rest
    inferInstanceAs (Decidable ((ty = .receiver ∨ name ∈ known) ∧ ReadsKnown known rest))
  | .write name _ :: rest => decideReadsKnown (name :: known) rest

instance (known : List String) (accesses : List VariableAccess) : Decidable (ReadsKnown known accesses) :=
  decideReadsKnown known accesses

/-- The variables that are known after accesses. -/
def knownAfter (known : List String) : List VariableAccess → List String
  | [] => known
  | .read _ _ :: rest => knownAfter known rest
  | .write name _ :: rest => knownAfter (name :: known) rest

theorem knownAfter_append (known : List String) (first second : List VariableAccess) :
    knownAfter known (first ++ second) = knownAfter (knownAfter known first) second := by
  induction first generalizing known with
  | nil => rfl
  | cons access rest inductionHypothesis =>
    cases access with
    | read name ty => exact inductionHypothesis known
    | write name ty => exact inductionHypothesis (name :: known)

/-- Accesses in two parts find known variables part by part. -/
theorem readsKnown_append (known : List String) (first second : List VariableAccess) :
    ReadsKnown known (first ++ second) ↔
      ReadsKnown known first ∧ ReadsKnown (knownAfter known first) second := by
  induction first generalizing known with
  | nil => exact (iff_of_eq (true_and _)).symm
  | cons access rest inductionHypothesis =>
    cases access with
    | read name ty =>
      rw [List.cons_append, ReadsKnown, ReadsKnown, knownAfter, inductionHypothesis known, and_assoc]
    | write name ty => exact inductionHypothesis (name :: known)

namespace Node

/-- A variable is known where it is read. -/
def IsKnown (known : List String) : Node → Prop
  | .varRef name ty => ty = .receiver ∨ name ∈ known
  | _ => True

/-- To use a tree as an operand takes what is read in it, and the tree itself if it is a
variable. -/
theorem readsKnown_accessesAsOperand (symbols : Symbols) (known : List String) (node : Node) :
    ReadsKnown known (node.accessesAsOperand (node.accesses symbols)) ↔
      ReadsKnown known (node.accesses symbols) ∧ node.IsKnown known := by
  cases node with
  | varRef name ty => exact and_comm
  | int | bool | receiver | binary | call | assign | ret | retBare | block => exact (iff_of_eq (and_true _)).symm

/-- To read a variable makes nothing known. -/
theorem knownAfter_accessesAsOperand (symbols : Symbols) (known : List String) (node : Node) :
    knownAfter known (node.accessesAsOperand (node.accesses symbols)) =
      knownAfter known (node.accesses symbols) := by
  cases node <;> rfl

/-- The kind of the value of a tree, if it has a value. -/
def resultKind? (symbols : Symbols) (node : Node) : Option Kind :=
  (node.resultType? symbols).bind Ty.kind?

/-- A variable that is read has a type of the kind of its name. -/
def ReadsKind (kinds : String → Kind) : Node → Prop
  | .varRef name ty => ty.kind? = some (kinds name)
  | _ => True

instance (kinds : String → Kind) (node : Node) : Decidable (node.ReadsKind kinds) :=
  match node with
  | .varRef name ty => inferInstanceAs (Decidable (ty.kind? = some (kinds name)))
  | .int _ | .bool _ | .receiver | .binary _ _ _ _ | .call _ _ _ | .assign _ _ _ | .ret _ _ | .retBare _
  | .block _ => .isTrue trivial

/-- What is asked of a tree apart from the variables that it reads, in a method with a
result of a given type. -/
def FormKeepsKinds (symbols : Symbols) (kinds : String → Kind) (result : Ty) : Node → Prop
  | .binary _ left right ty =>
    ty.kind? = some .int ∧ left.resultKind? symbols = some .int ∧ right.resultKind? symbols = some .int
  | .call target _ _ =>
    target.staticTarget? symbols = none → target.resultKind? symbols = some .reference
  | .assign name ty value =>
    ty.kind? = some (kinds name) ∧ value.resultKind? symbols = some (kinds name)
  | .ret value ty =>
    if result = .void then ty = .void
    else ty.kind? = result.kind? ∧ value.resultKind? symbols = result.kind?
  | .retBare ty => result = .void ∧ ty = .void
  | .int _ | .bool _ | .varRef _ _ | .receiver | .block _ => True

instance (symbols : Symbols) (kinds : String → Kind) (result : Ty) (node : Node) :
    Decidable (node.FormKeepsKinds symbols kinds result) :=
  match node with
  | .binary _ left right ty => inferInstanceAs (Decidable (ty.kind? = some .int ∧
      left.resultKind? symbols = some .int ∧ right.resultKind? symbols = some .int))
  | .call target _ _ => inferInstanceAs (Decidable
      (target.staticTarget? symbols = none → target.resultKind? symbols = some .reference))
  | .assign name ty value => inferInstanceAs (Decidable
      (ty.kind? = some (kinds name) ∧ value.resultKind? symbols = some (kinds name)))
  | .ret value ty => inferInstanceAs (Decidable (if result = .void then ty = .void
      else ty.kind? = result.kind? ∧ value.resultKind? symbols = result.kind?))
  | .retBare ty => inferInstanceAs (Decidable (result = .void ∧ ty = .void))
  | .int _ | .bool _ | .varRef _ _ | .receiver | .block _ => .isTrue trivial

/-- A return is of the kind of the result of its method, and so is its value. -/
theorem FormKeepsKinds.ret_kind {symbols : Symbols} {kinds : String → Kind} {result ty : Ty} {value : Node}
    (keeps : (Node.ret value ty).FormKeepsKinds symbols kinds result) :
    ty.kind? = result.kind? ∧ (ty ≠ .void → value.resultKind? symbols = result.kind?) := by
  by_cases void : result = .void
  · rw [FormKeepsKinds, if_pos void] at keeps
    exact ⟨by rw [keeps, void], fun notVoid => absurd keeps notVoid⟩
  · rw [FormKeepsKinds, if_neg void] at keeps
    exact ⟨keeps.1, fun _ => keeps.2⟩

/-- A tree uses values by their kinds, the trees in it apart. -/
structure KeepsKinds (symbols : Symbols) (kinds : String → Kind) (result : Ty) (node : Node) : Prop where
  reads : ∀ operand ∈ node.operands symbols, operand.ReadsKind kinds
  form : node.FormKeepsKinds symbols kinds result

instance (symbols : Symbols) (kinds : String → Kind) (result : Ty) (node : Node) :
    Decidable (node.KeepsKinds symbols kinds result) :=
  decidable_of_iff ((∀ operand ∈ node.operands symbols, operand.ReadsKind kinds) ∧
      node.FormKeepsKinds symbols kinds result)
    ⟨fun both => ⟨both.1, both.2⟩, fun keeps => ⟨keeps.reads, keeps.form⟩⟩

end Node

/-- A body uses values by their kinds, with one kind for each variable name, and reads no
variable before it has a value. -/
structure KindCorrect (symbols : Symbols) (kinds : String → Kind) (params : List Variable) (result : Ty)
    (body : List Node) : Prop where
  paramKinds : ∀ param ∈ params, param.ty.kind? = some (kinds param.name)
  keepsKinds : ∀ part ∈ Node.partsOfList body, part.KeepsKinds symbols kinds result
  readsKnown : ReadsKnown (params.map Variable.name) (Node.accessesOfList symbols body)

instance (symbols : Symbols) (kinds : String → Kind) (params : List Variable) (result : Ty)
    (body : List Node) : Decidable (KindCorrect symbols kinds params result body) :=
  decidable_of_iff ((∀ param ∈ params, param.ty.kind? = some (kinds param.name)) ∧
      (∀ part ∈ Node.partsOfList body, part.KeepsKinds symbols kinds result) ∧
      ReadsKnown (params.map Variable.name) (Node.accessesOfList symbols body))
    ⟨fun all => ⟨all.1, all.2.1, all.2.2⟩,
      fun correct => ⟨correct.paramKinds, correct.keepsKinds, correct.readsKnown⟩⟩

end Stackwright
