import Stackwright.Ty.Basic

/-!
Contract: operands, the leaves of three-address instructions.

An operand carries its own type. Whatever is later decided about it — the load,
the suffix, the owner of a member — is decided from that type alone.
-/

namespace Stackwright

/-- A value named by an instruction: a constant written as text, a variable, or
the object the method runs on. -/
inductive Operand where
  | literal (text : String) (ty : Ty)
  | variable (name : String) (ty : Ty)
  | receiver
deriving DecidableEq, Repr

namespace Operand

/-- An integer constant, in decimal. -/
def int (value : Int32) : Operand :=
  .literal (toString value.toInt) .int

/-- A truth value, written as one or zero. -/
def bool (value : Bool) : Operand :=
  .literal (if value then "1" else "0") .boolean

/-- The declared type of an operand. -/
def ty : Operand → Ty
  | .literal _ ty => ty
  | .variable _ ty => ty
  | .receiver => .receiver

@[simp] theorem ty_int (value : Int32) : (int value).ty = .int := rfl

@[simp] theorem ty_bool (value : Bool) : (bool value).ty = .boolean := rfl

end Operand

end Stackwright
