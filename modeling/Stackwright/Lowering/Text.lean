import Stackwright.Code.Text
import Stackwright.Lowering.Basic
import Stackwright.Text.Lines

/-!
Contract: the textual form of what a tree is lowered to, value and computation
apart.
-/

namespace Stackwright.Lowered

/-- The operand that holds the value; empty if there is none. -/
def valueText (lowered : Lowered) : Except EncodingFault String :=
  match lowered.value? with
  | some operand => operand.text
  | none => .ok ""

/-- The instructions to run first, one on each line. -/
def computationText (lowered : Lowered) : Except EncodingFault String := do
  return unlines (← lowered.instrs.mapM Instr.text)

end Stackwright.Lowered
