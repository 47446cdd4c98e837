import Stackwright.Code.Instr

/-!
Contract: typed source trees.

Every expression carries its type already; nothing here is inferred. One type
serves for expressions and statements: whether a tree stands where a value is
needed, and whether it has one there, is decided when it is lowered.
-/

namespace Stackwright

/-- An expression or statement of a method body. -/
inductive Node where
  | int (value : Int32)
  | bool (value : Bool)
  | varRef (name : String) (ty : Ty)
  | receiver
  | binary (operator : Operator) (left right : Node) (ty : Ty)
  | call (target : Node) (method : String) (args : List Node)
  | assign (name : String) (ty : Ty) (value : Node)
  | ret (value : Node) (ty : Ty)
  | retBare (ty : Ty)
  | block (children : List Node)

mutual

/-- The names that a tree reads or assigns, from left to right. The target of
a call counts even where it names a class. -/
def Node.names : Node → List String
  | .int _ | .bool _ | .receiver | .retBare _ => []
  | .varRef name _ => [name]
  | .binary _ left right _ => left.names ++ right.names
  | .call target _ args => target.names ++ Node.namesOfList args
  | .assign name _ value => name :: value.names
  | .ret value _ => value.names
  | .block children => Node.namesOfList children

/-- The names of several trees, in order. -/
def Node.namesOfList : List Node → List String
  | [] => []
  | node :: rest => node.names ++ Node.namesOfList rest

end

end Stackwright
