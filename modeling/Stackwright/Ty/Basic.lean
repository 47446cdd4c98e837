/-!
Contract: the semantic types shared by trees, instructions and assembly.

Owns:
- the type language and its source spelling;
- the two kinds of machine value, and the kind of each type;
- resolution of the receiver type against the enclosing class.

Does not own: any encoding of a type. Suffixes and descriptors have modules of
their own, because they disagree on which types they accept.
-/

namespace Stackwright

/-- The kinds of value that a local slot or an operand-stack entry can hold. -/
inductive Kind where
  | int
  | reference
deriving DecidableEq, Repr

/-- A semantic type. `receiver` is the type of the object a method runs on; it
names no class until it is resolved against the enclosing one. -/
inductive Ty where
  | int
  | boolean
  | void
  | string
  | array (element : Ty)
  | classRef (name : String)
  | receiver
deriving DecidableEq, Repr

namespace Ty

/-- The kind of the values of a type. `void` has no values. -/
def kind? : Ty → Option Kind
  | .int | .boolean => some .int
  | .string | .array _ | .classRef _ | .receiver => some .reference
  | .void => none

/-- Values of the type live in integer slots. -/
def IsIntegerLike (ty : Ty) : Prop :=
  ty.kind? = some .int

instance (ty : Ty) : Decidable ty.IsIntegerLike :=
  inferInstanceAs (Decidable (ty.kind? = some .int))

/-- Values of the type live in reference slots. -/
def IsReference (ty : Ty) : Prop :=
  ty.kind? = some .reference

instance (ty : Ty) : Decidable ty.IsReference :=
  inferInstanceAs (Decidable (ty.kind? = some .reference))

/-- A type has no kind exactly when it is `void`. -/
theorem kind?_eq_none_iff {ty : Ty} : ty.kind? = none ↔ ty = .void := by
  cases ty <;> simp [kind?]

/-- Replaces the receiver type, at the top or inside arrays, by a reference to
the enclosing class. -/
def resolve (enclosing : String) : Ty → Ty
  | .receiver => .classRef enclosing
  | .array element => .array (element.resolve enclosing)
  | .int => .int
  | .boolean => .boolean
  | .void => .void
  | .string => .string
  | .classRef name => .classRef name

/-- The spelling of a type in diagnostics: an array type is its element type
followed by brackets, and the receiver type is `this`. -/
def text : Ty → String
  | .int => "int"
  | .boolean => "boolean"
  | .void => "void"
  | .string => "String"
  | .array element => element.text ++ "[]"
  | .classRef name => name
  | .receiver => "this"

/-- Resolution leaves nothing to resolve, so a second one changes nothing,
whichever class it names. -/
theorem resolve_resolve (inner outer : String) (ty : Ty) :
    (ty.resolve inner).resolve outer = ty.resolve inner := by
  induction ty with
  | array element inductionHypothesis => simp [resolve, inductionHypothesis]
  | _ => rfl

/-- Resolution keeps the kind, so it never changes which load or store is used. -/
@[simp] theorem kind?_resolve (enclosing : String) (ty : Ty) :
    (ty.resolve enclosing).kind? = ty.kind? := by
  cases ty <;> rfl

@[simp] theorem resolve_eq_void_iff (enclosing : String) (ty : Ty) :
    ty.resolve enclosing = .void ↔ ty = .void := by
  cases ty <;> simp [resolve]

end Ty

end Stackwright
