import Stackwright.Member.Method

/-!
Contract: classes as data, the unit that is turned into assembly as a whole.
-/

namespace Stackwright

/-- A class with its members, in declaration order. -/
structure ClassUnit where
  name : String
  super? : Option String := none
  access : Access := .packageAccess
  fields : List Field := []
  methods : List Method := []

/-- The methods that become machine code. -/
def ClassUnit.generated (unit : ClassUnit) : List Method :=
  unit.methods.filter fun method => !method.isConstructor

end Stackwright
