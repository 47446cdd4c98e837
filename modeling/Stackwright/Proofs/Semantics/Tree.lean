import Stackwright.Proofs.Semantics.Run
import Stackwright.Tree.Node
import Stackwright.Tree.Symbols
import Stackwright.Lowering.Basic

/-!
Contract: the meaning of source trees.

Owns:
- the actions of source programs: operators, and calls of objects and classes;
- the world of source programs, with the meaning of literals;
- runs of trees, of arguments and of statement lists.

Every operator evaluates both operands. A variable of the receiver type denotes
the receiver, whatever is kept under its name. The target of a static call is not
evaluated. A call yields a value if the signature of its name promises one.
-/

namespace Stackwright

/-- Whom a source call addresses: an object, or the class that an import names. -/
inductive Callee (Value : Type) where
  | object (value : Value)
  | imported (ty : Ty)
deriving DecidableEq, Repr

inductive SourceAction (Value : Type) where
  | operate (operator : Operator) (left right : Value)
  | call (callee : Callee Value) (method : String) (args : List Value)
deriving DecidableEq, Repr

/-- A world of source programs. Literals are written as text in instructions; there
a decimal numeral means the integer, and one and zero mean the truth values. -/
structure SourceWorld (Value Heap : Type) extends World Value (SourceAction Value) Heap where
  int : Int32 → Value
  bool : Bool → Value
  literal : String → Ty → Value
  literal_int : ∀ value, literal (toString value.toInt) .int = int value
  literal_bool : ∀ value, literal (if value then "1" else "0") .boolean = bool value

/-- What a variable of a type denotes. -/
def readVariable {Value : Type} (receiver : Value) (locals : String → Value) (name : String)
    (ty : Ty) : Value :=
  if ty = .receiver then receiver else locals name

namespace Node

variable {Value Heap : Type}

mutual

/-- Runs a tree. The value is that of an expression; statements have none. -/
def run (world : SourceWorld Value Heap) (symbols : Symbols) (receiver : Value) :
    Node → RunM String Value (SourceAction Value) Heap (Option Value)
  | .int value => return some (world.int value)
  | .bool value => return some (world.bool value)
  | .varRef name ty => return some (readVariable receiver (← RunM.locals) name ty)
  | .receiver => return some receiver
  | .binary operator left right _ => do
    let leftValue ← RunM.need (← left.run world symbols receiver)
    let rightValue ← RunM.need (← right.run world symbols receiver)
    return some (← RunM.perform world.toWorld (.operate operator leftValue rightValue))
  | .call target method args => do
    let callee ← match target.staticTarget? symbols with
      | some path => pure (Callee.imported (.classRef path))
      | none => do pure (Callee.object (← RunM.need (← target.run world symbols receiver)))
    let argValues ← Node.runArgs world symbols receiver args
    let value ← RunM.perform world.toWorld (.call callee method argValues)
    return if symbols.resultOf method = .void then none else some value
  | .assign name _ value => do
    let assigned ← RunM.need (← value.run world symbols receiver)
    RunM.assign name assigned
    return none
  | .ret value ty => do
    let value? ← value.run world symbols receiver
    if ty = .void then
      throw (.returned none)
    else
      throw (.returned (some (← RunM.need value?)))
  | .retBare _ => throw (.returned none)
  | .block children => do
    Node.runAll world symbols receiver children
    return none

/-- The values of the arguments of a call, from left to right. -/
def runArgs (world : SourceWorld Value Heap) (symbols : Symbols) (receiver : Value) :
    List Node → RunM String Value (SourceAction Value) Heap (List Value)
  | [] => return []
  | arg :: rest => do
    let argValue ← RunM.need (← arg.run world symbols receiver)
    return argValue :: (← Node.runArgs world symbols receiver rest)

/-- Runs statements in order; the values of expressions among them are dropped. -/
def runAll (world : SourceWorld Value Heap) (symbols : Symbols) (receiver : Value) :
    List Node → RunM String Value (SourceAction Value) Heap Unit
  | [] => return ()
  | statement :: rest => do
    let _ ← statement.run world symbols receiver
    Node.runAll world symbols receiver rest

end

/-- Whom a call addresses. The target is evaluated unless it names an import. -/
def runTarget (world : SourceWorld Value Heap) (symbols : Symbols) (receiver : Value)
    (target : Node) : RunM String Value (SourceAction Value) Heap (Callee Value) :=
  match target.staticTarget? symbols with
  | some path => pure (.imported (.classRef path))
  | none => do return .object (← RunM.need (← target.run world symbols receiver))

/-- A call evaluates its target, then its arguments, and is then performed. -/
theorem run_call (world : SourceWorld Value Heap) (symbols : Symbols) (receiver : Value)
    (target : Node) (method : String) (args : List Node) :
    (Node.call target method args).run world symbols receiver =
      target.runTarget world symbols receiver >>= fun callee =>
        runArgs world symbols receiver args >>= fun argValues =>
          RunM.perform world.toWorld (.call callee method argValues) >>= fun value =>
            pure (if symbols.resultOf method = .void then none else some value) := by
  rw [run, runTarget]
  cases target.staticTarget? symbols with
  | some path => rfl
  | none => simp only [bind_assoc, pure_bind]

/-! Trees that use the values of others, with each value taken where it is computed. -/

section Values

variable (world : SourceWorld Value Heap) (symbols : Symbols) (receiver : Value)

theorem run_binary (operator : Operator) (left right : Node) (ty : Ty) :
    (Node.binary operator left right ty).run world symbols receiver =
      (left.run world symbols receiver >>= RunM.need) >>= fun leftValue =>
        (right.run world symbols receiver >>= RunM.need) >>= fun rightValue =>
          RunM.perform world.toWorld (.operate operator leftValue rightValue) >>= fun value =>
            pure (some value) := by
  simp only [run, bind_assoc]

theorem run_assign (name : String) (ty : Ty) (value : Node) :
    (Node.assign name ty value).run world symbols receiver =
      (value.run world symbols receiver >>= RunM.need) >>= fun assigned =>
        RunM.assign name assigned >>= fun _ => pure none := by
  simp only [run, bind_assoc]

theorem run_ret {ty : Ty} (notVoid : ty ≠ .void) (value : Node) :
    (Node.ret value ty).run world symbols receiver =
      (value.run world symbols receiver >>= RunM.need) >>= fun returned =>
        throw (.returned (some returned)) := by
  simp only [run, if_neg notVoid, bind_assoc]

theorem runArgs_cons (arg : Node) (rest : List Node) :
    runArgs world symbols receiver (arg :: rest) =
      (arg.run world symbols receiver >>= RunM.need) >>= fun argValue =>
        runArgs world symbols receiver rest >>= fun restValues => pure (argValue :: restValues) := by
  simp only [runArgs, bind_assoc]

theorem runTarget_object {target : Node} (notImport : target.staticTarget? symbols = none) :
    target.runTarget world symbols receiver =
      (target.run world symbols receiver >>= RunM.need) >>= fun object =>
        pure (.object object) := by
  simp only [runTarget, notImport, bind_assoc]

end Values

end Node

end Stackwright
