import Stackwright.Ty.Basic

/-!
Contract: what lowering has to know about the class a tree belongs to.

Owns:
- the class name, the superclass, the imports in order, and the signatures of
  methods by name;
- resolution of a name to an import.

A name resolves to the first import that is written exactly so, or whose last
segment it is. The latest signature of a method name is the one that counts.
-/

namespace Stackwright

/-- The declared signature of a method. -/
structure Signature where
  name : String
  params : List Ty
  result : Ty
deriving DecidableEq, Repr

/-- The symbols of one class. Signatures are kept newest first. -/
structure Symbols where
  className : String
  super? : Option String := none
  imports : List String := []
  signatures : List Signature := []
deriving DecidableEq, Repr

/-- The text after the last dot of an import, or all of it. -/
def lastSegment (path : String) : String :=
  String.ofList (path.toList.reverse.takeWhile (· ≠ '.')).reverse

namespace Symbols

def withSuper (symbols : Symbols) (super : String) : Symbols :=
  { symbols with super? := some super }

/-- Adds an import after the earlier ones. -/
def addImport (symbols : Symbols) (path : String) : Symbols :=
  { symbols with imports := symbols.imports ++ [path] }

/-- Adds a signature, which hides earlier ones of the same name. -/
def addSignature (symbols : Symbols) (signature : Signature) : Symbols :=
  { symbols with signatures := signature :: symbols.signatures }

/-- The import that a simple or qualified name stands for. -/
def resolveImport? (symbols : Symbols) (name : String) : Option String :=
  symbols.imports.find? fun path => path = name ∨ lastSegment path = name

def isImport (symbols : Symbols) (name : String) : Bool :=
  (symbols.resolveImport? name).isSome

/-- The signature declared for a method name. -/
def signature? (symbols : Symbols) (name : String) : Option Signature :=
  symbols.signatures.find? fun signature => signature.name = name

/-- The declared result of a method name. -/
def result? (symbols : Symbols) (name : String) : Option Ty :=
  (symbols.signature? name).map Signature.result

/-- The type a call of the method leaves behind: a method without a signature is
taken to return nothing. -/
def resultOf (symbols : Symbols) (name : String) : Ty :=
  (symbols.result? name).getD .void

end Symbols

end Stackwright
