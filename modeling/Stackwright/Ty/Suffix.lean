import Stackwright.Ty.Site

/-!
Contract: the suffix that marks the type of every operand in textual
instructions, leading dot included (`.i32`, `.array.String`).

The receiver type has a suffix of its own but is no array element: inside an
array the class is not known from the text. The fault then names the array type,
not its element.
-/

namespace Stackwright.Ty

/-- The suffix of a type in textual instructions. -/
def suffix : Ty → Except EncodingFault String
  | .int => .ok ".i32"
  | .boolean => .ok ".bool"
  | .void => .ok ".V"
  | .string => .ok ".String"
  | .array .void => .error (.ofTy (.array .void) .arrayElement)
  | .array .receiver => .error (.ofTy (.array .receiver) .arrayElement)
  | .array element => do return ".array" ++ (← element.suffix)
  | .classRef name => .ok ("." ++ name)
  | .receiver => .ok ".this"

/-- The suffix of an array whose element type may stand in one. -/
theorem suffix_array {element : Ty} (notVoid : element ≠ .void)
    (notReceiver : element ≠ .receiver) :
    (Ty.array element).suffix = (".array" ++ ·) <$> element.suffix := by
  rw [suffix]
  · rfl
  · exact notVoid
  · exact notReceiver

end Stackwright.Ty
