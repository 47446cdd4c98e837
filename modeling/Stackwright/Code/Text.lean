import Stackwright.Ty.Suffix
import Stackwright.Code.Instr

/-!
Contract: the textual form of operands and instructions.

Every operand is followed by the suffix of its type, except the receiver and the
class a call is addressed to. Where several types of one instruction have no
suffix, the fault is that of the leftmost in evaluation order, which is the
order of the text with one exception: the field type of a field load comes
before its object.
-/

namespace Stackwright

namespace Operand

def text : Operand → Except EncodingFault String
  | .literal text ty => do return text ++ (← ty.suffix)
  | .variable name ty => do return name ++ (← ty.suffix)
  | .receiver => .ok "this"

end Operand

namespace Call

/-- The target of a call. A variable that stands for a class is written bare. -/
def targetText (call : Call) : Except EncodingFault String :=
  match call.kind, call.target with
  | .allocate, .variable name _ | .static, .variable name _ => .ok name
  | _, target => target.text

def text (call : Call) : Except EncodingFault String := do
  let target ← call.targetText
  let method := match call.method? with
    | some name => [", \"" ++ name ++ "\""]
    | none => []
  let args ← call.args.mapM fun arg => do return ", " ++ (← arg.text)
  let result ← call.result.suffix
  return call.kind.text ++ "(" ++ target ++ String.join (method ++ args) ++ ")" ++ result

end Call

namespace Instr

/-- An instruction without its terminator, as it stands inside another one. -/
def inlineText : Instr → Except EncodingFault String
  | .assign target source => do
    let targetText ← target.text
    let suffix ← target.ty.suffix
    return targetText ++ " :=" ++ suffix ++ " " ++ (← source.inlineText)
  | .single operand => operand.text
  | .binary operator left right ty => do
    let leftText ← left.text
    let suffix ← ty.suffix
    return leftText ++ " " ++ operator.text ++ suffix ++ " " ++ (← right.text)
  | .ret ty value? => do
    let suffix ← ty.suffix
    match value? with
    | some value =>
      if ty = .void then return "ret" ++ suffix
      else return "ret" ++ suffix ++ " " ++ (← value.text)
    | none => return "ret" ++ suffix
  | .call invocation => invocation.text
  | .putField place value => do
    let object ← place.object.text
    let suffix ← place.ty.suffix
    return "putfield(" ++ object ++ ", " ++ place.field ++ suffix ++ ", " ++ (← value.text) ++ ").V"
  | .getField place => do
    let suffix ← place.ty.suffix
    let object ← place.object.text
    return "getfield(" ++ object ++ ", " ++ place.field ++ suffix ++ ")" ++ suffix

/-- An instruction as a statement. -/
def text (instr : Instr) : Except EncodingFault String := do
  return (← instr.inlineText) ++ ";"

end Instr

end Stackwright
