import Stackwright.Frame.Table

/-!
Contract: the standard frame layout of a method.

The receiver of an instance method has slot zero under the name `this`. The
parameters follow in order, one slot each; a repeated name keeps the slot of its
last occurrence, and a parameter may take the name `this`. Locals come last: a
local whose name is taken already is skipped and uses up no slot. A frame larger
than the slots there are wraps around and takes the first slots again.
-/

namespace Stackwright

/-- A declared parameter or local. -/
structure Variable where
  name : String
  ty : Ty
deriving DecidableEq, Repr

namespace FrameTable

/-- Binds variables to consecutive slots. -/
def bindParams (table : FrameTable) (slot : Slot) : List Variable → FrameTable
  | [] => table
  | param :: rest => (table.insert param.name slot param.ty).bindParams (slot + 1) rest

/-- Binds the variables whose names are still free to consecutive slots. -/
def bindLocals (table : FrameTable) (slot : Slot) : List Variable → FrameTable
  | [] => table
  | declared :: rest =>
    if (table.get? declared.name).isSome then
      table.bindLocals slot rest
    else
      (table.insert declared.name slot declared.ty).bindLocals (slot + 1) rest

/-- The slots that stand before the first parameter. -/
def receiverSlots (isStatic : Bool) : Nat :=
  if isStatic then 0 else 1

/-- The frame of a method: receiver, parameters, locals. -/
def layout (isStatic : Bool) (params locals : List Variable) : FrameTable :=
  let start := if isStatic then ∅ else (∅ : FrameTable).insert "this" 0 .receiver
  let base : Slot := receiverSlots isStatic
  (start.bindParams base params).bindLocals (base + (params.length : Slot)) locals

end FrameTable

end Stackwright
