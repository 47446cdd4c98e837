import Stackwright.Code.Text
import Stackwright.Member.ClassUnit
import Stackwright.Text.Lines

/-!
Contract: the textual form of fields, methods and classes.

Constructors are part of the text, under a keyword of their own. The first type
without a suffix, in the order of the text, decides the fault.
-/

namespace Stackwright

def Variable.text (declared : Variable) : Except EncodingFault String := do
  return declared.name ++ (← declared.ty.suffix)

def Field.text (field : Field) : Except EncodingFault String := do
  return ".field " ++ field.modifiers.leading ++ field.name ++ (← field.ty.suffix) ++ ";"

namespace Method

/-- The line that opens a method. -/
def openingText (method : Method) : Except EncodingFault String := do
  let keyword := if method.isConstructor then ".construct " else ".method "
  let params ← method.params.mapM Variable.text
  let result ← method.result.suffix
  return keyword ++ method.modifiers.leading ++ method.name ++
    "(" ++ ", ".intercalate params ++ ")" ++ result ++ " \x7b"

/-- A method, one line for its opening, for each instruction and for its end. -/
def text (method : Method) : Except EncodingFault String := do
  let opening ← method.openingText
  let body ← method.instrs.mapM fun instr => do return "    " ++ (← instr.text)
  return unlines (opening :: body ++ ["\x7d"])

end Method

namespace ClassUnit

/-- The line that opens a class. -/
def openingText (unit : ClassUnit) : String :=
  match unit.super? with
  | some super => unit.name ++ " extends " ++ super ++ " \x7b"
  | none => unit.name ++ " \x7b"

/-- A class: its fields, a blank line, and its methods, each followed by a blank
line. -/
def text (unit : ClassUnit) : Except EncodingFault String := do
  let fields ← unit.fields.mapM Field.text
  let methods ← unit.methods.mapM Method.text
  return unlines (unit.openingText :: fields ++ [""] ++ methods ++ ["\x7d"])

end ClassUnit

end Stackwright
