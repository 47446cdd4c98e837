import Stackwright.Proofs.Lowering.Derivation
import Stackwright.Proofs.Tree.Imports

/-!
Contract: calls that are addressed to imports, under the names that stand for them.

Owns:
- trees in which some calls are addressed to the import itself instead of a name for it;
- both are lowered alike, by what they give and by the supply that they leave;
- all laws of resolution together, for a table that imports are added to one after another.

The target of such a call is not lowered, so neither its name nor its type is left in the result.
-/

namespace Stackwright

variable {symbols : Symbols}

mutual

/-- In the other tree, calls at some places are addressed to the import that the name of their
target stands for. -/
inductive Requalified (symbols : Symbols) : Node → Node → Prop where
  | same (node : Node) : Requalified symbols node node
  | target {name path : String} {args others : List Node} (ty otherTy : Ty) (method : String)
      (resolves : symbols.resolveImport? name = some path)
      (ofArgs : RequalifiedAll symbols args others) :
      Requalified symbols (.call (.varRef name ty) method args) (.call (.varRef path otherTy) method others)
  | call {target otherTarget : Node} {args others : List Node} (method : String)
      (ofTarget : Requalified symbols target otherTarget) (ofArgs : RequalifiedAll symbols args others) :
      Requalified symbols (.call target method args) (.call otherTarget method others)
  | binary {left otherLeft right otherRight : Node} (operator : Operator) (ty : Ty)
      (ofLeft : Requalified symbols left otherLeft) (ofRight : Requalified symbols right otherRight) :
      Requalified symbols (.binary operator left right ty) (.binary operator otherLeft otherRight ty)
  | assign {value other : Node} (name : String) (ty : Ty) (ofValue : Requalified symbols value other) :
      Requalified symbols (.assign name ty value) (.assign name ty other)
  | ret {value other : Node} (ty : Ty) (ofValue : Requalified symbols value other) :
      Requalified symbols (.ret value ty) (.ret other ty)
  | block {children others : List Node} (ofChildren : RequalifiedAll symbols children others) :
      Requalified symbols (.block children) (.block others)

/-- The same in each of several trees. -/
inductive RequalifiedAll (symbols : Symbols) : List Node → List Node → Prop where
  | nil : RequalifiedAll symbols [] []
  | cons {node other : Node} {rest others : List Node} (ofNode : Requalified symbols node other)
      (ofRest : RequalifiedAll symbols rest others) : RequalifiedAll symbols (node :: rest) (other :: others)

end

/-- Which trees name an import does not change. A target is left as it is, or is a call or an
operator applied, which names none. -/
theorem Requalified.staticTarget?_eq {node other : Node} (requalified : Requalified symbols node other) :
    node.staticTarget? symbols = other.staticTarget? symbols := by
  cases requalified <;> rfl

namespace Node

theorem lowerTarget_of_resolves {name path : String} (resolves : symbols.resolveImport? name = some path)
    (ty : Ty) :
    (Node.varRef name ty).lowerTarget symbols = pure (LoweredTarget.ofImport path) := by
  rw [lowerTarget, staticTarget?, resolves]

end Node

mutual

/-- Calls are lowered alike under all names of an import. -/
theorem Requalified.lower_eq {node other : Node} :
    Requalified symbols node other → node.lower symbols = other.lower symbols
  | .same _ => rfl
  | .target ty otherTy method resolves ofArgs => by
    have resolved := Symbols.resolveImport?_resolved resolves
    rw [Node.lower_call, Node.lower_call, Node.lowerTarget_of_resolves resolves,
      Node.lowerTarget_of_resolves resolved, ofArgs.lowerArgs_eq]
  | .call method ofTarget ofArgs => by
    rw [Node.lower_call, Node.lower_call, Node.lowerTarget, Node.lowerTarget, ofTarget.staticTarget?_eq,
      ofTarget.lower_eq, ofArgs.lowerArgs_eq]
  | .binary operator ty ofLeft ofRight => by
    rw [Node.lower, Node.lower, ofLeft.lower_eq, ofRight.lower_eq]
  | .assign name ty ofValue => by
    rw [Node.lower, Node.lower, ofValue.lower_eq]
  | .ret ty ofValue => by
    rw [Node.lower, Node.lower, ofValue.lower_eq]
  | .block ofChildren => by
    rw [Node.lower, Node.lower, ofChildren.lowerAll_eq]

theorem RequalifiedAll.lowerArgs_eq {args others : List Node} {method : String} {index : Nat} :
    RequalifiedAll symbols args others →
      Node.lowerArgs symbols method index args = Node.lowerArgs symbols method index others
  | .nil => rfl
  | .cons ofArg ofRest => by
    rw [Node.lowerArgs, Node.lowerArgs, ofArg.lower_eq, ofRest.lowerArgs_eq]

theorem RequalifiedAll.lowerAll_eq {statements others : List Node} :
    RequalifiedAll symbols statements others →
      Node.lowerAll symbols statements = Node.lowerAll symbols others
  | .nil => rfl
  | .cons ofStatement ofRest => by
    rw [Node.lowerAll, Node.lowerAll, ofStatement.lower_eq, ofRest.lowerAll_eq]

end

/-- The laws of resolution in a table that imports were added to one after another. -/
structure ResolvesImports (table : Symbols) (added : List String) : Prop where
  /-- A name with a dot stands for itself, if it was added. -/
  qualified : ∀ name, '.' ∈ name.toList →
    table.resolveImport? name = if name ∈ added then some name else none
  /-- A name without a dot stands for the first import that it is the last segment of. -/
  simple : ∀ name path, '.' ∉ name.toList →
    (table.resolveImport? name = some path ↔
      ∃ before after, added = before ++ path :: after ∧ EndsIn path name ∧
        ∀ earlier ∈ before, ¬EndsIn earlier name)
  idempotent : ∀ name path, table.resolveImport? name = some path → table.resolveImport? path = some path
  settled : ∀ name path later, table.resolveImport? name = some path →
    (table.importing later).resolveImport? name = some path
  /-- Names of an import are interchangeable where they are addressed, at any depth of a tree. -/
  interchangeable : ∀ node other, Requalified table node other →
    ∀ temps, (node.lower table).run temps = (other.lower table).run temps

theorem resolves_imports (symbols : Symbols) (added : List String) :
    ResolvesImports ({ symbols with imports := [] }.importing added) added where
  qualified name qualified := by
    rw [Symbols.resolveImport?_of_qualified qualified, Symbols.imports_importing, List.nil_append]
  simple name path simple := by
    rw [Symbols.resolveImport?_of_simple_eq_some_iff simple, Symbols.imports_importing, List.nil_append]
  idempotent _ _ resolves := Symbols.resolveImport?_resolved resolves
  settled _ _ later resolves := Symbols.resolveImport?_importing resolves later
  interchangeable _ _ requalified temps := by rw [requalified.lower_eq]

end Stackwright
