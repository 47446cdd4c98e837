import Stackwright.Assembly.Text
import Stackwright.Lowering.Basic

/-!
Contract: from the source trees of a class to its class unit.

Every body is lowered with a supply of temporaries of its own and appended to
its method. The first body that cannot be lowered decides the failure, which
then carries the index of its method.
-/

namespace Stackwright

/-- A method together with the tree of its body. -/
structure SourceMethod where
  method : Method
  body : List Node

/-- A class whose method bodies are still trees. Name and superclass are those
of its symbols. -/
structure SourceClass where
  symbols : Symbols
  access : Access := .packageAccess
  fields : List Field := []
  methods : List SourceMethod := []

/-- A body that cannot be lowered, under the index of its method. -/
structure LoweringFailure where
  method : Nat
  fault : Fault
deriving DecidableEq, Repr

/-- The instructions of a body, lowered on its own. -/
def Node.lowerFresh (symbols : Symbols) (body : List Node) : Except Fault (List Instr) :=
  match (Node.lowerBody symbols body).run {} with
  | .ok instrs _ => .ok instrs
  | .error fault _ => .error fault

/-- The method with its lowered body. -/
def SourceMethod.lower (source : SourceMethod) (symbols : Symbols) : Except Fault Method := do
  return source.method.append (← Node.lowerFresh symbols source.body)

/-- The class with all bodies lowered. -/
def SourceClass.lower (source : SourceClass) : Except LoweringFailure ClassUnit := do
  let methods ← source.methods.zipIdx.mapM fun (method, index) =>
    (method.lower source.symbols).mapError fun fault => { method := index, fault }
  return {
    name := source.symbols.className
    super? := source.symbols.super?
    access := source.access
    fields := source.fields
    methods }

end Stackwright
