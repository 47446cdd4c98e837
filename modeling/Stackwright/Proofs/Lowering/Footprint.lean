import Stackwright.Proofs.Code.Variables
import Stackwright.Proofs.Lowering.Derivation
import Stackwright.Proofs.Lowering.Temps
import Stackwright.Proofs.Tree.Positions

/-!
Contract: which names lowered instructions touch.

Owns:
- lowering moves the supply forward and reserves nothing;
- an operand is a literal, the receiver, a variable of the tree or a temporary that
  was drawn for it, and it has the type of the tree;
- the instructions of a tree with a value assign nothing but temporaries drawn for it.

The last fact is why an operand may be read late: instructions that run between its
computation and its use belong to other trees with values, whose temporaries are new.
-/

namespace Stackwright

variable {symbols : Symbols}

/-! ### The supply -/

mutual

/-- Lowering reserves nothing and never goes back. -/
theorem Lowers.extends {before after : Temps} {node : Node} {lowered : Lowered} :
    Lowers symbols before node lowered after → after.Extends before
  | .int _ _ | .bool _ _ | .varRef _ _ _ | .receiver _ | .retBare _ _ => .refl _
  | .binary _ _ lowersLeft lowersRight =>
    (Temps.Extends.draw _).trans (lowersRight.extends.trans lowersLeft.extends)
  | .callVoid lowersTarget lowersArgs _ => lowersArgs.extends.trans lowersTarget.extends
  | .callValue lowersTarget lowersArgs _ =>
    (Temps.Extends.draw _).trans (lowersArgs.extends.trans lowersTarget.extends)
  | .assign _ _ lowersValue => lowersValue.extends
  | .retVoid lowersValue => lowersValue.extends
  | .retValue _ lowersValue => lowersValue.extends
  | .block lowersChildren => lowersChildren.extends

theorem LowersTarget.extends {before after : Temps} {target : Node} {loweredTarget : LoweredTarget} :
    LowersTarget symbols before target loweredTarget after → after.Extends before
  | .imported _ => .refl _
  | .object _ lowers => lowers.extends

theorem LowersArgs.extends {before after : Temps} {args : List Node} {loweredArgs : LoweredArgs} :
    LowersArgs symbols before args loweredArgs after → after.Extends before
  | .nil _ => .refl _
  | .cons lowersArg lowersRest => lowersRest.extends.trans lowersArg.extends

theorem LowersAll.extends {before after : Temps} {statements : List Node} {instrs : List Instr} :
    LowersAll symbols before statements instrs after → after.Extends before
  | .nil _ => .refl _
  | .cons lowersStatement lowersRest => lowersRest.extends.trans lowersStatement.extends

end

/-! ### Operands -/

/-- An operand has the type of its tree, and a tree without an operand has no type. -/
theorem Lowers.value_ty {before after : Temps} {node : Node} {lowered : Lowered}
    (lowers : Lowers symbols before node lowered after) :
    lowered.value?.map Operand.ty = node.resultType? symbols := by
  cases lowers with
  | callVoid _ _ void => simp [Lowered.ofInstrs, Node.resultType?, void]
  | callValue _ _ notVoid => simp [Lowered.computed, Node.resultType?, notVoid, Operand.ty]
  | int | bool | varRef | receiver | binary | assign | retVoid | retValue | retBare | block => rfl

/-- An operand that is a variable is one of the tree or was drawn for it. -/
theorem Lowers.value_name {before after : Temps} {node : Node} {lowered : Lowered} {name : String}
    {ty : Ty} (lowers : Lowers symbols before node lowered after)
    (holds : lowered.value? = some (.variable name ty)) :
    node = .varRef name ty ∨ before.Drew after name := by
  cases lowers with
  | varRef =>
    cases holds
    exact .inl rfl
  | binary operator ty lowersLeft lowersRight =>
    cases holds
    exact .inr ((Temps.drew_draw _).widen (lowersRight.extends.trans lowersLeft.extends))
  | callValue lowersTarget lowersArgs notVoid =>
    cases holds
    exact .inr ((Temps.drew_draw _).widen (lowersArgs.extends.trans lowersTarget.extends))
  | int | bool | receiver | callVoid | assign | retVoid | retValue | retBare | block =>
    cases holds

/-- A variable operand of a tree whose names are reserved is not drawn later. -/
theorem Lowers.value_settled {before after last : Temps} {node : Node} {lowered : Lowered}
    {name : String} {ty : Ty} (lowers : Lowers symbols before node lowered after)
    (reserved : ∀ name ∈ node.names, name ∈ before.reserved)
    (holds : lowered.value? = some (.variable name ty)) (later : last.Extends after) :
    ¬after.Drew last name := by
  intro drew
  rcases lowers.value_name holds with rfl | drewBefore
  · apply drew.not_reserved
    rw [later.reserved_eq, lowers.extends.reserved_eq]
    exact reserved name (List.mem_singleton.2 rfl)
  · exact drewBefore.not_twice drew

theorem LowersTarget.kind {before after : Temps} {target : Node} {loweredTarget : LoweredTarget}
    (lowersTarget : LowersTarget symbols before target loweredTarget after) :
    loweredTarget.kind = .virtual ∨ loweredTarget.kind = .static := by
  cases lowersTarget with
  | imported names => exact .inr rfl
  | object namesNone lowers => exact .inl rfl

/-! ### Assignments -/

mutual

/-- The instructions of a tree with a value assign only temporaries drawn for it. -/
theorem Lowers.assigned_drew {before after : Temps} {node : Node} {lowered : Lowered} {name : String} :
    Lowers symbols before node lowered after → lowered.value?.isSome →
      name ∈ assignedNames lowered.instrs → before.Drew after name
  | .int _ _, _, assigned | .bool _ _, _, assigned | .varRef _ _ _, _, assigned
  | .receiver _, _, assigned => absurd assigned List.not_mem_nil
  | .binary _ _ lowersLeft lowersRight, _, assigned => by
    simp only [Lowered.computed, assignedNames_append, assignedNames_assign, List.mem_append,
      List.mem_singleton] at assigned
    rcases assigned with (inLeft | inRight) | rfl
    · exact (lowersLeft.assigned_drew rfl inLeft).extend ((Temps.Extends.draw _).trans lowersRight.extends)
    · exact ((lowersRight.assigned_drew rfl inRight).extend (.draw _)).widen lowersLeft.extends
    · exact (Temps.drew_draw _).widen (lowersRight.extends.trans lowersLeft.extends)
  | .callValue lowersTarget lowersArgs _, _, assigned => by
    simp only [Lowered.computed, assignedNames_append, assignedNames_assign, List.mem_append,
      List.mem_singleton] at assigned
    rcases assigned with (inTarget | inArgs) | rfl
    · exact (lowersTarget.assigned_drew inTarget).extend ((Temps.Extends.draw _).trans lowersArgs.extends)
    · exact ((lowersArgs.assigned_drew inArgs).extend (.draw _)).widen lowersTarget.extends
    · exact (Temps.drew_draw _).widen (lowersArgs.extends.trans lowersTarget.extends)

theorem LowersTarget.assigned_drew {before after : Temps} {target : Node}
    {loweredTarget : LoweredTarget} {name : String} :
    LowersTarget symbols before target loweredTarget after →
      name ∈ assignedNames loweredTarget.instrs → before.Drew after name
  | .imported _, assigned => absurd assigned List.not_mem_nil
  | .object _ lowers, assigned => lowers.assigned_drew rfl assigned

theorem LowersArgs.assigned_drew {before after : Temps} {args : List Node} {loweredArgs : LoweredArgs}
    {name : String} : LowersArgs symbols before args loweredArgs after →
      name ∈ assignedNames loweredArgs.instrs → before.Drew after name
  | .nil _, assigned => absurd assigned List.not_mem_nil
  | .cons lowersArg lowersRest, assigned => by
    rw [assignedNames_append, List.mem_append] at assigned
    rcases assigned with inArg | inRest
    · exact (lowersArg.assigned_drew rfl inArg).extend lowersRest.extends
    · exact (lowersRest.assigned_drew inRest).widen lowersArg.extends

end

end Stackwright
