import Stackwright.Proofs.Machine.Verifier

/-!
Contract: instructions that use values as values of the kinds that they have.

Owns:
- operands and instructions that fit what is known of the variables;
- what is known after an instruction;
- code each of whose instructions fits what is known before it.

Only the forms of instruction that trees are lowered to fit anything.
-/

namespace Stackwright

/-- An operand has the kind that its type promises. -/
def Operand.Fits (kinds : String → Option Kind) : Operand → Prop
  | .literal text ty => literalKind? text = ty.kind?
  | .variable name ty => ty = .receiver ∨ kinds name = ty.kind?
  | .receiver => True

/-- A call is made on a reference, with arguments that fit. The types that its descriptor
is made of are of a given form. -/
structure Call.Fits (formed : Ty → Prop) (kinds : String → Option Kind) (call : Call) : Prop where
  makesNoObject : (Instr.call call).MakesNoObject
  target : call.kind = .virtual → call.target.Fits kinds ∧ call.target.ty.kind? = some .reference
  args : ∀ arg ∈ call.args, arg.Fits kinds ∧ formed arg.ty
  result : formed call.result

namespace Instr

/-- An assigned value has a kind. -/
def Yields (formed : Ty → Prop) (kinds : String → Option Kind) (kind? : Option Kind) : Instr → Prop
  | .single operand => operand.Fits kinds ∧ operand.ty.kind? = kind?
  | .binary _ left right _ =>
    (left.Fits kinds ∧ left.ty.kind? = some .int) ∧ (right.Fits kinds ∧ right.ty.kind? = some .int) ∧
      kind? = some .int
  | .call invocation => invocation.Fits formed kinds ∧ invocation.result.kind? = kind?
  | .assign _ _ | .ret _ _ | .putField _ _ | .getField _ => False

/-- A statement fits what is known of the variables, inside a method with a result of the
given kind, if any. -/
def Fits (formed : Ty → Prop) (result? : Option Kind) (kinds : String → Option Kind) : Instr → Prop
  | .assign (.variable _ ty) source => source.Yields formed kinds ty.kind?
  | .ret ty value? =>
    ty.kind? = result? ∧ ∀ value, value? = some value → value.Fits kinds ∧ value.ty.kind? = result?
  | .call invocation => invocation.Fits formed kinds
  | .assign (.literal _ _) _ | .assign .receiver _ | .single _ | .binary _ _ _ _ | .putField _ _
  | .getField _ => False

/-- What is known of the variables after a statement. -/
def kindsAfter (kinds : String → Option Kind) : Instr → String → Option Kind
  | .assign (.variable name ty) _ => setLocal kinds name ty.kind?
  | _ => kinds

theorem kindsAfter_other (instr : Instr) {kinds : String → Option Kind} {name : String}
    (other : instr.assigned? ≠ some name) : instr.kindsAfter kinds name = kinds name := by
  cases instr with
  | assign target source =>
    cases target with
    | «variable» assigned ty =>
      have different : name ≠ assigned := fun same => other (by rw [same]; rfl)
      exact setLocal_other kinds ty.kind? different
    | literal | receiver => rfl
  | single | binary | ret | call | putField | getField => rfl

end Instr

/-- Each instruction of the code fits what is known before it. -/
inductive FitsAll (formed : Ty → Prop) (result? : Option Kind) :
    (String → Option Kind) → List Instr → (String → Option Kind) → Prop where
  | nil (kinds : String → Option Kind) : FitsAll formed result? kinds [] kinds
  | cons {kinds kindsLast : String → Option Kind} {instr : Instr} {rest : List Instr}
      (fits : instr.Fits formed result? kinds)
      (fitsRest : FitsAll formed result? (instr.kindsAfter kinds) rest kindsLast) :
      FitsAll formed result? kinds (instr :: rest) kindsLast

namespace FitsAll

variable {formed : Ty → Prop} {result? : Option Kind} {kinds kindsMiddle kindsLast : String → Option Kind}

theorem append {first second : List Instr} (fitsFirst : FitsAll formed result? kinds first kindsMiddle)
    (fitsSecond : FitsAll formed result? kindsMiddle second kindsLast) :
    FitsAll formed result? kinds (first ++ second) kindsLast := by
  induction fitsFirst with
  | nil kinds => exact fitsSecond
  | cons fits fitsRest inductionHypothesis => exact .cons fits (inductionHypothesis fitsSecond)

theorem snoc {instrs : List Instr} {last : Instr} (fitsAll : FitsAll formed result? kinds instrs kindsLast)
    (fits : last.Fits formed result? kindsLast) :
    FitsAll formed result? kinds (instrs ++ [last]) (last.kindsAfter kindsLast) :=
  fitsAll.append (.cons fits (.nil _))

/-- What is known in the end is what the last statement makes known. -/
theorem exists_of_snoc {instrs : List Instr} {last : Instr}
    (fitsAll : FitsAll formed result? kinds (instrs ++ [last]) kindsLast) :
    ∃ kindsMiddle, kindsLast = last.kindsAfter kindsMiddle := by
  induction instrs generalizing kinds with
  | nil =>
    cases fitsAll with
    | cons fits fitsRest =>
      cases fitsRest
      exact ⟨kinds, rfl⟩
  | cons instr rest inductionHypothesis =>
    cases fitsAll with
    | cons fits fitsRest => exact inductionHypothesis fitsRest

/-- What is known of a name changes only where the name is assigned. -/
theorem kinds_eq {instrs : List Instr} {name : String}
    (fitsAll : FitsAll formed result? kinds instrs kindsLast) (other : name ∉ assignedNames instrs) :
    kindsLast name = kinds name := by
  induction fitsAll with
  | nil kinds => rfl
  | @cons kinds kindsLast instr rest fits fitsRest inductionHypothesis =>
    have notLater : name ∉ assignedNames rest := by
      intro assigned
      rcases List.mem_filterMap.1 assigned with ⟨later, member, same⟩
      exact other (List.mem_filterMap.2 ⟨later, List.mem_cons_of_mem instr member, same⟩)
    rw [inductionHypothesis notLater]
    apply instr.kindsAfter_other
    exact fun assigned => other (List.mem_filterMap.2 ⟨instr, List.mem_cons_self, assigned⟩)

end FitsAll

end Stackwright
