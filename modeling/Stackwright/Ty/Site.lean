import Stackwright.Ty.Basic

/-!
Contract: the sites at which a type is written down, and the one way in which
writing it down can fail.

A fault keeps the spelling of the offending type and not the type itself: the
site of the fault and the spelling are all that a reader of a diagnostic is told.
-/

namespace Stackwright

/-- Where a type is being encoded. -/
inductive Site where
  | field
  | parameter
  | result
  | operand
  | argument
  | arrayElement
deriving DecidableEq, Repr

/-- The name of a site in diagnostics. -/
def Site.text : Site → String
  | .field => "field"
  | .parameter => "parameter"
  | .result => "return"
  | .operand => "operand"
  | .argument => "argument"
  | .arrayElement => "array element"

/-- A type has no encoding at a site. -/
structure EncodingFault where
  typeText : String
  site : Site
deriving DecidableEq, Repr

namespace EncodingFault

/-- The fault of `ty` at `site`. -/
def ofTy (ty : Ty) (site : Site) : EncodingFault where
  typeText := ty.text
  site := site

def message (fault : EncodingFault) : String :=
  "Unsupported type `" ++ fault.typeText ++ "` in " ++ fault.site.text ++ " position"

end EncodingFault

end Stackwright
