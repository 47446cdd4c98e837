import Stackwright.Machine.Instr
import Stackwright.Proofs.Machine.Descriptor

/-!
Contract: the verifier of machine code, as far as it tells kinds of value apart.

Owns:
- kinds of constants, by their text;
- frames of kinds, and what each instruction asks of one and makes of it;
- the check of code, from its first instruction to its last.

Code runs straight on, so one pass settles it. Instructions behind a return are checked
too, from the frame that the return leaves. A call is judged by its opcode and its
descriptor; what an instruction records of its own effect is not looked at.
-/

namespace Stackwright

/-- A text of decimal digits. -/
def IsNumeral (text : List Char) : Prop :=
  text ≠ [] ∧ ∀ char ∈ text, char.isDigit = true

instance (text : List Char) : Decidable (IsNumeral text) :=
  inferInstanceAs (Decidable (text ≠ [] ∧ ∀ char ∈ text, char.isDigit = true))

/-- The kind of a constant: numerals, with a sign or without, are integers, and texts in
quotes are references. -/
def literalKind? (text : String) : Option Kind :=
  if IsNumeral text.toList ∨ text.toList.head? = some '-' ∧ IsNumeral text.toList.tail then
    some .int
  else if text.toList.head? = some '"' then
    some .reference
  else
    none

theorem isNumeral_repr (value : Nat) : IsNumeral value.repr.toList := by
  rw [Nat.toList_repr]
  exact ⟨Nat.toDigits_ne_nil, fun char member => Nat.isDigit_of_mem_toDigits (by omega) (by omega) member⟩

theorem literalKind_int (value : Int) : literalKind? (toString value) = some .int := by
  apply if_pos
  rw [Int.toString_eq_repr, Int.repr_eq_if]
  by_cases nonneg : 0 ≤ value
  · rw [if_pos nonneg]
    exact .inl (isNumeral_repr _)
  · rw [if_neg nonneg, String.toList_append]
    exact .inr ⟨rfl, isNumeral_repr _⟩

theorem literalKind_bool (value : Bool) : literalKind? (if value then "1" else "0") = some .int := by
  cases value with
  | false => exact literalKind_int 0
  | true => exact literalKind_int 1

/-- What is known of a frame: the kinds in slots that were written, and on the operand
stack. -/
structure KindFrame where
  slots : Slot → Option Kind
  stack : List Kind

/-- The object that a call takes off the stack, below its arguments. -/
def CallKind.objectKinds (kind : CallKind) : List Kind :=
  if kind = .static then [] else [.reference]

/-- What an instruction makes of a frame that it can run in, inside a method with a
result of the given kind, if any. -/
inductive MachineInstr.Checks (isName : List Char → Prop) (result? : Option Kind) :
    MachineInstr → KindFrame → KindFrame → Prop where
  | ldc {text : String} {kind : Kind} {slots : Slot → Option Kind} {stack : List Kind}
      (isConstant : literalKind? text = some kind) :
      Checks isName result? (.ldc text) ⟨slots, stack⟩ ⟨slots, kind :: stack⟩
  | load {kind : Kind} {slot : Slot} {slots : Slot → Option Kind} {stack : List Kind}
      (holds : slots slot = some kind) :
      Checks isName result? (.load kind slot) ⟨slots, stack⟩ ⟨slots, kind :: stack⟩
  | store (kind : Kind) (slot : Slot) (slots : Slot → Option Kind) (stack : List Kind) :
      Checks isName result? (.store kind slot) ⟨slots, kind :: stack⟩
        ⟨setLocal slots slot (some kind), stack⟩
  | operator {instr : MachineInstr} {slots : Slot → Option Kind} {stack : List Kind}
      (isOperator : instr ∈ [MachineInstr.iadd, .isub, .imul, .idiv, .iand]) :
      Checks isName result? instr ⟨slots, .int :: .int :: stack⟩ ⟨slots, .int :: stack⟩
  | new (owner : String) (slots : Slot → Option Kind) (stack : List Kind) :
      Checks isName result? (.new owner) ⟨slots, stack⟩ ⟨slots, .reference :: stack⟩
  | dup (top : Kind) (slots : Slot → Option Kind) (stack : List Kind) :
      Checks isName result? .dup ⟨slots, top :: stack⟩ ⟨slots, top :: top :: stack⟩
  | pop (top : Kind) (slots : Slot → Option Kind) (stack : List Kind) :
      Checks isName result? .pop ⟨slots, top :: stack⟩ ⟨slots, stack⟩
  | invoke {invocation : Invocation} {args : List Kind} {value? : Option Kind}
      {slots : Slot → Option Kind} {stack : List Kind} (callable : invocation.kind ≠ .allocate)
      (describes : DescribesMethod isName invocation.descriptor.toList args value?) :
      Checks isName result? (.invoke invocation)
        ⟨slots, args.reverse ++ (invocation.kind.objectKinds ++ stack)⟩
        ⟨slots, value?.toList ++ stack⟩
  | getField {field : FieldRef} {kind : Kind} {slots : Slot → Option Kind} {stack : List Kind}
      (describes : DescribesType isName field.descriptor.toList kind) :
      Checks isName result? (.getField field) ⟨slots, .reference :: stack⟩ ⟨slots, kind :: stack⟩
  | putField {field : FieldRef} {kind : Kind} {slots : Slot → Option Kind} {stack : List Kind}
      (describes : DescribesType isName field.descriptor.toList kind) :
      Checks isName result? (.putField field) ⟨slots, kind :: .reference :: stack⟩ ⟨slots, stack⟩
  | retVoid {slots : Slot → Option Kind} {stack : List Kind} (noResult : result? = none) :
      Checks isName result? .retVoid ⟨slots, stack⟩ ⟨slots, stack⟩
  | ret {kind : Kind} {slots : Slot → Option Kind} {stack : List Kind} (isResult : result? = some kind) :
      Checks isName result? (.ret kind) ⟨slots, kind :: stack⟩ ⟨slots, stack⟩

/-- Code checks if each instruction can run in the frame that those before it leave. -/
inductive ChecksAll (isName : List Char → Prop) (result? : Option Kind) :
    List MachineInstr → KindFrame → KindFrame → Prop where
  | nil (frame : KindFrame) : ChecksAll isName result? [] frame frame
  | cons {instr : MachineInstr} {rest : List MachineInstr} {before middle after : KindFrame}
      (checks : instr.Checks isName result? before middle)
      (checksRest : ChecksAll isName result? rest middle after) :
      ChecksAll isName result? (instr :: rest) before after

namespace ChecksAll

variable {isName : List Char → Prop} {result? : Option Kind}

theorem one {instr : MachineInstr} {before after : KindFrame}
    (checks : instr.Checks isName result? before after) : ChecksAll isName result? [instr] before after :=
  .cons checks (.nil after)

theorem append {first second : List MachineInstr} {before middle after : KindFrame}
    (checksFirst : ChecksAll isName result? first before middle)
    (checksSecond : ChecksAll isName result? second middle after) :
    ChecksAll isName result? (first ++ second) before after := by
  induction checksFirst with
  | nil frame => exact checksSecond
  | cons checks checksRest inductionHypothesis => exact .cons checks (inductionHypothesis checksSecond)

end ChecksAll

end Stackwright
