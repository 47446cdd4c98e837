/-!
Contract: the options of the generated assembly.
-/

namespace Stackwright

/-- How the stack and locals limits of a method are chosen: one pair of bounds
for every method, or bounds read off its code and its slot table. -/
inductive Limits where
  | fixed (stack locals : UInt16)
  | computed
deriving DecidableEq, Repr

/-- Options of the generated assembly. The default superclass is written as it
is, so it is given in slashed form. -/
structure Options where
  limits : Limits := .fixed 99 99
  indent : String := "    "
  defaultSuper : String := "java/lang/Object"
deriving DecidableEq, Repr

/-- The default options with computed limits. -/
def Options.computedLimits : Options :=
  { limits := .computed }

end Stackwright
