import Stackwright.Lowering.Basic

/-!
Contract: the parts of a tree and what is read and assigned in it.

Owns:
- all parts of a tree, the tree itself included;
- the operands of a tree: the parts whose values it uses itself;
- the type of the value of a tree, by its own type or by the signature of the method
  it calls;
- the variables that are read as operands or assigned, in the order of evaluation;
- whatever variable a part reads or assigns is among the names of the tree.

The target of a call that names an import is no operand, and a variable that stands
as a statement, or as the value of a `void` return, is not read.
-/

namespace Stackwright

/-- What a tree does to a variable. -/
inductive VariableAccess where
  | read (name : String) (ty : Ty)
  | write (name : String) (ty : Ty)
deriving DecidableEq, Repr

namespace Node

/-- The type of the value of a tree, if it has one. -/
def resultType? (symbols : Symbols) : Node → Option Ty
  | .int _ => some .int
  | .bool _ => some .boolean
  | .varRef _ ty => some ty
  | .receiver => some .receiver
  | .binary _ _ _ ty => some ty
  | .call _ method _ =>
    if symbols.resultOf method = .void then none else some (symbols.resultOf method)
  | .assign _ _ _ | .ret _ _ | .retBare _ | .block _ => none

/-- The parts of a tree whose values it uses itself, in the order of evaluation. -/
def operands (symbols : Symbols) : Node → List Node
  | .int _ | .bool _ | .varRef _ _ | .receiver | .retBare _ | .block _ => []
  | .binary _ left right _ => [left, right]
  | .call target _ args => if (target.staticTarget? symbols).isSome then args else target :: args
  | .assign _ _ value => [value]
  | .ret value ty => if ty = .void then [] else [value]

mutual

/-- A tree and all trees inside it. -/
def parts : Node → List Node
  | .binary operator left right ty => .binary operator left right ty :: (left.parts ++ right.parts)
  | .call target method args => .call target method args :: (target.parts ++ partsOfList args)
  | .assign name ty value => .assign name ty value :: value.parts
  | .ret value ty => .ret value ty :: value.parts
  | .block children => .block children :: partsOfList children
  | .int value => [.int value]
  | .bool value => [.bool value]
  | .varRef name ty => [.varRef name ty]
  | .receiver => [.receiver]
  | .retBare ty => [.retBare ty]

def partsOfList : List Node → List Node
  | [] => []
  | node :: rest => node.parts ++ partsOfList rest

end

/-- The accesses of a tree that is an operand, from those inside it: a variable is
read. -/
def accessesAsOperand (node : Node) (inside : List VariableAccess) : List VariableAccess :=
  match node with
  | .varRef name ty => [.read name ty]
  | _ => inside

mutual

/-- The accesses inside a tree, in the order of evaluation. -/
def accesses (symbols : Symbols) : Node → List VariableAccess
  | .int _ | .bool _ | .varRef _ _ | .receiver | .retBare _ => []
  | .binary _ left right _ =>
    left.accessesAsOperand (left.accesses symbols) ++ right.accessesAsOperand (right.accesses symbols)
  | .call target _ args =>
    (if (target.staticTarget? symbols).isSome then []
      else target.accessesAsOperand (target.accesses symbols)) ++
      accessesOfArgs symbols args
  | .assign name ty value => value.accessesAsOperand (value.accesses symbols) ++ [.write name ty]
  | .ret value ty =>
    if ty = .void then value.accesses symbols else value.accessesAsOperand (value.accesses symbols)
  | .block children => accessesOfList symbols children

def accessesOfArgs (symbols : Symbols) : List Node → List VariableAccess
  | [] => []
  | arg :: rest => arg.accessesAsOperand (arg.accesses symbols) ++ accessesOfArgs symbols rest

def accessesOfList (symbols : Symbols) : List Node → List VariableAccess
  | [] => []
  | statement :: rest => statement.accesses symbols ++ accessesOfList symbols rest

end

/-- The variable that a tree is or assigns itself. -/
def variableName? : Node → Option String
  | .varRef name _ | .assign name _ _ => some name
  | .int _ | .bool _ | .receiver | .binary _ _ _ _ | .call _ _ _ | .ret _ _ | .retBare _ | .block _ =>
    none

mutual

/-- The names of a tree are those of all its parts. -/
theorem mem_names_of_mem_parts {part : Node} {name : String} (named : part.variableName? = some name) :
    (node : Node) → part ∈ node.parts → name ∈ node.names
  | .int _, member | .bool _, member | .receiver, member | .retBare _, member => by
    cases List.mem_singleton.1 member
    cases named
  | .varRef other ty, member => by
    cases List.mem_singleton.1 member
    cases named
    exact List.mem_singleton_self name
  | .binary operator left right ty, member => by
    rw [names, List.mem_append]
    rcases List.mem_cons.1 member with rfl | inside
    · cases named
    · exact (List.mem_append.1 inside).imp (mem_names_of_mem_parts named left)
        (mem_names_of_mem_parts named right)
  | .call target method args, member => by
    rw [names, List.mem_append]
    rcases List.mem_cons.1 member with rfl | inside
    · cases named
    · exact (List.mem_append.1 inside).imp (mem_names_of_mem_parts named target)
        (mem_names_of_mem_partsOfList named args)
  | .assign other ty value, member => by
    rw [names, List.mem_cons]
    rcases List.mem_cons.1 member with rfl | inside
    · cases named
      exact .inl rfl
    · exact .inr (mem_names_of_mem_parts named value inside)
  | .ret value ty, member => by
    rcases List.mem_cons.1 member with rfl | inside
    · cases named
    · exact mem_names_of_mem_parts named value inside
  | .block children, member => by
    rcases List.mem_cons.1 member with rfl | inside
    · cases named
    · exact mem_names_of_mem_partsOfList named children inside

theorem mem_names_of_mem_partsOfList {part : Node} {name : String}
    (named : part.variableName? = some name) :
    (nodes : List Node) → part ∈ partsOfList nodes → name ∈ namesOfList nodes
  | [], member => absurd member List.not_mem_nil
  | node :: rest, member => by
    rw [namesOfList, List.mem_append]
    exact (List.mem_append.1 member).imp (mem_names_of_mem_parts named node)
      (mem_names_of_mem_partsOfList named rest)

end

/-- A tree is the first of its parts. -/
theorem mem_parts_self (node : Node) : node ∈ node.parts := by
  cases node <;> simp [parts]

/-! Where operands are found. -/

section Operands

variable {symbols : Symbols} {target arg value : Node} {method : String} {args : List Node} {ty : Ty}

theorem target_mem_operands (notImport : target.staticTarget? symbols = none) :
    target ∈ (Node.call target method args).operands symbols := by
  simp [operands, notImport]

theorem returned_mem_operands (notVoid : ty ≠ .void) :
    value ∈ (Node.ret value ty).operands symbols := by
  simp [operands, notVoid]

theorem mem_operands_of_mem_args (member : arg ∈ args) : arg ∈ (Node.call target method args).operands symbols := by
  rw [operands]
  split
  · exact member
  · exact List.mem_cons_of_mem target member

end Operands

end Node

end Stackwright
