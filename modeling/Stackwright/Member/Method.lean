import Stackwright.Code.Instr
import Stackwright.Frame.Layout
import Stackwright.Member.Access

/-!
Contract: fields and methods as data.

Owns:
- declarations of fields and methods;
- the ways to change a method while its slot table follows its staticness.

A method starts out as an instance method over the standard frame. Making it
static lays the frame out again only while the table still agrees with that
standard frame: a table supplied by the caller is kept, unless it cannot be told
apart from the standard one.
-/

namespace Stackwright

/-- A field declaration. -/
structure Field where
  name : String
  ty : Ty
  modifiers : Modifiers := {}
deriving DecidableEq, Repr

/-- A method with its body and its slot table. Constructors are kept but never
turned into machine code. -/
structure Method where
  name : String
  params : List Variable
  result : Ty
  modifiers : Modifiers := {}
  isConstructor : Bool := false
  instrs : List Instr := []
  table : FrameTable := FrameTable.layout false params []

namespace Method

def isStatic (method : Method) : Bool :=
  method.modifiers.isStatic

/-- A package-access instance method with an empty body and the standard frame. -/
def declare (name : String) (params : List Variable) (result : Ty) : Method :=
  { name, params, result }

def withAccess (method : Method) (access : Access) : Method :=
  { method with modifiers.access := access }

def withFinal (method : Method) (isFinal : Bool) : Method :=
  { method with modifiers.isFinal := isFinal }

def withConstructor (method : Method) (isConstructor : Bool) : Method :=
  { method with isConstructor }

def withTable (method : Method) (table : FrameTable) : Method :=
  { method with table }

/-- The standard frame of the method's parameters, without locals. -/
def standardTable (method : Method) (isStatic : Bool) : FrameTable :=
  FrameTable.layout isStatic method.params []

/-- Makes a method static. An instance method whose table is still the standard
one gets the standard table of a static method. -/
def toStatic (method : Method) : Method :=
  let table :=
    if method.isStatic = false ∧ method.table.Agrees (method.standardTable false) then
      method.standardTable true
    else
      method.table
  { method with modifiers.isStatic := true, table }

/-- Appends instructions to the body. -/
def append (method : Method) (instrs : List Instr) : Method :=
  { method with instrs := method.instrs ++ instrs }

/-- The slots taken by the receiver and the parameters, counted in a slot. -/
def paramSlots (method : Method) : Slot :=
  (method.params.length : Slot) + (FrameTable.receiverSlots method.isStatic : Slot)

end Method

end Stackwright
