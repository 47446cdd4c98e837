import Stackwright.Fault
import Stackwright.Lowering.Temps
import Stackwright.Tree.Node
import Stackwright.Tree.Symbols

/-!
Contract: source trees as three-address instructions.

Owns:
- the result of lowering a tree: instructions to run first, and the operand that
  then holds the value, if the tree has one;
- lowering of trees, of argument lists and of method bodies.

Trees are lowered from left to right. A tree that computes something puts its
value into a fresh temporary; literals and variables are operands already. A
tree without a value fails only where a value is needed, and only after it has
been lowered itself. The supply of temporaries survives a failure: what was
drawn or reserved before stays so.

Does not own: whether the instructions can become machine code.
-/

namespace Stackwright

/-- Lowering draws names from a supply and may fail; a failure keeps the supply. -/
abbrev LowerM := EStateM Fault Temps

/-- What a tree is lowered to. -/
structure Lowered where
  value? : Option Operand := none
  instrs : List Instr := []
deriving DecidableEq, Repr

namespace Lowered

/-- An operand that needs no computation. -/
def ofValue (operand : Operand) : Lowered :=
  { value? := some operand }

/-- Instructions without a resulting value. -/
def ofInstrs (instrs : List Instr) : Lowered :=
  { instrs }

/-- The value, where one is needed. -/
def valueAt (lowered : Lowered) (site : ValueSite) : LowerM Operand :=
  match lowered.value? with
  | some operand => pure operand
  | none => throw (.missingValue site)

end Lowered

/-- A fresh temporary of a type. -/
def drawTemp (ty : Ty) : LowerM Operand := do
  let temps ← get
  set temps.draw.2
  return .variable temps.draw.1 ty

/-- Arguments of a call: the operands in order, and the instructions to run
first. -/
structure LoweredArgs where
  operands : List Operand := []
  instrs : List Instr := []
deriving DecidableEq, Repr

/-- The object or class that a call is addressed to. -/
structure LoweredTarget where
  kind : CallKind
  operand : Operand
  instrs : List Instr := []
deriving DecidableEq, Repr

/-- The import that the target of a call names, if it is a variable that names
one. Such a target is never evaluated. -/
def Node.staticTarget? (symbols : Symbols) : Node → Option String
  | .varRef name _ => symbols.resolveImport? name
  | _ => none

/-- The class of an import, as the target of static calls. -/
def LoweredTarget.ofImport (path : String) : LoweredTarget :=
  { kind := .static, operand := .variable path (.classRef path) }

/-- A call with its target and arguments lowered. A call that returns nothing
stands on its own; the result of any other is kept in a temporary. -/
def LoweredTarget.call (target : LoweredTarget) (symbols : Symbols) (method : String)
    (args : LoweredArgs) : LowerM Lowered := do
  let result := symbols.resultOf method
  let instr : Instr := .call
    { kind := target.kind, target := target.operand, method? := some method,
      args := args.operands, result }
  let before := target.instrs ++ args.instrs
  if result = .void then
    return .ofInstrs (before ++ [instr])
  else
    let temp ← drawTemp result
    return { value? := some temp, instrs := before ++ [.assign temp instr] }

namespace Node

mutual

/-- The instructions and the value of a tree. -/
def lower (symbols : Symbols) : Node → LowerM Lowered
  | .int value => return .ofValue (.int value)
  | .bool value => return .ofValue (.bool value)
  | .varRef name ty => return .ofValue (.variable name ty)
  | .receiver => return .ofValue .receiver
  | .binary operator left right ty => do
    let loweredLeft ← left.lower symbols
    let leftOperand ← loweredLeft.valueAt .leftOperand
    let loweredRight ← right.lower symbols
    let rightOperand ← loweredRight.valueAt .rightOperand
    let temp ← drawTemp ty
    return {
      value? := some temp
      instrs := loweredLeft.instrs ++ loweredRight.instrs ++
        [.assign temp (.binary operator leftOperand rightOperand ty)] }
  | .call target method args => do
    let loweredTarget ← match target.staticTarget? symbols with
      | some path => pure (LoweredTarget.ofImport path)
      | none => do
        let lowered ← target.lower symbols
        let operand ← lowered.valueAt .callReceiver
        pure { kind := .virtual, operand, instrs := lowered.instrs }
    let loweredArgs ← Node.lowerArgs symbols method 0 args
    loweredTarget.call symbols method loweredArgs
  | .assign name ty value => do
    let lowered ← value.lower symbols
    let operand ← lowered.valueAt (.assigned name)
    return .ofInstrs (lowered.instrs ++ [.assign (.variable name ty) (.single operand)])
  | .ret value ty => do
    let lowered ← value.lower symbols
    if ty = .void then
      return .ofInstrs (lowered.instrs ++ [.ret ty none])
    else
      let operand ← lowered.valueAt .returned
      return .ofInstrs (lowered.instrs ++ [.ret ty (some operand)])
  | .retBare ty => return .ofInstrs [.ret ty none]
  | .block children => do return .ofInstrs (← Node.lowerAll symbols children)

/-- The arguments of a call, from the one at `index` on. -/
def lowerArgs (symbols : Symbols) (method : String) (index : Nat) :
    List Node → LowerM LoweredArgs
  | [] => return {}
  | arg :: rest => do
    let lowered ← arg.lower symbols
    let operand ← lowered.valueAt (.argument index method)
    let loweredRest ← Node.lowerArgs symbols method (index + 1) rest
    return {
      operands := operand :: loweredRest.operands
      instrs := lowered.instrs ++ loweredRest.instrs }

/-- The instructions of several statements; their values are dropped. -/
def lowerAll (symbols : Symbols) : List Node → LowerM (List Instr)
  | [] => return []
  | statement :: rest => do
    let lowered ← statement.lower symbols
    return lowered.instrs ++ (← Node.lowerAll symbols rest)

end

/-- The instructions of a method body. Every name that occurs in the body is
reserved before anything is drawn, so no temporary can stand for a variable of
the body. -/
def lowerBody (symbols : Symbols) (body : List Node) : LowerM (List Instr) := do
  modify fun temps => temps.reserveAll (Node.namesOfList body)
  Node.lowerAll symbols body

end Node

end Stackwright
