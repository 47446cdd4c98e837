/-!
Contract: who may use a class or a member, and the modifiers written in front of
a declaration.

Access within the package is the default and has no keyword.
-/

namespace Stackwright

/-- Who may use a class or a member. -/
inductive Access where
  | publicAccess
  | privateAccess
  | protectedAccess
  | packageAccess
deriving DecidableEq, Repr

namespace Access

/-- The keyword of an access level, where it has one. -/
def keyword? : Access → Option String
  | .publicAccess => some "public"
  | .privateAccess => some "private"
  | .protectedAccess => some "protected"
  | .packageAccess => none

/-- The keyword with the blank that sets it off from what follows. -/
def leading (access : Access) : String :=
  match access.keyword? with
  | some keyword => keyword ++ " "
  | none => ""

end Access

/-- The modifiers of a member, in the order in which they are written. -/
structure Modifiers where
  access : Access := .packageAccess
  isStatic : Bool := false
  isFinal : Bool := false
deriving DecidableEq, Repr

/-- Each modifier that is set, followed by a blank. -/
def Modifiers.leading (modifiers : Modifiers) : String :=
  modifiers.access.leading ++
    (if modifiers.isStatic then "static " else "") ++
    (if modifiers.isFinal then "final " else "")

end Stackwright
