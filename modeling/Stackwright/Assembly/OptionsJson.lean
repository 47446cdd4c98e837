import Stackwright.Assembly.Options
import Stackwright.Json.Printer
import Stackwright.Json.Reader

/-!
Contract: options as JSON.

Writing gives every option, by name. Reading takes the options by name or by
position:
- an object may leave out any option, which then has its default, and keys that
  are no options are ignored;
- an array gives the options in the order in which they are written, may end
  early, and may not hold more than there are.

Limits are told apart by their mode, and only fixed limits have numbers. By
position the mode comes first, and exactly the numbers of that mode follow.
-/

namespace Stackwright

/-- A number of sixteen bits. -/
def wordOfJson? (json : Json) : Option UInt16 := do
  let value ← json.natural?
  if value < UInt16.size then some (UInt16.ofNat value) else none

namespace Limits

def toJson : Limits → Json
  | .fixed stack locals => .object [
      ("mode", .string "fixed"),
      ("stack", .ofNat stack.toNat),
      ("locals", .ofNat locals.toNat)]
  | .computed => .object [("mode", .string "computed")]

/-- The limits that the members of an object describe. Further members are
ignored. -/
def ofNamed? (json : Json) : Option Limits := do
  let mode ← (← json.get? "mode").string?
  if mode = "fixed" then
    let stack ← wordOfJson? (← json.get? "stack")
    let locals ← wordOfJson? (← json.get? "locals")
    return .fixed stack locals
  else if mode = "computed" then
    return .computed
  else
    none

/-- The limits that a mode and the numbers after it describe. -/
def ofPositional? : List Json → Option Limits
  | [.string mode] => if mode = "computed" then some .computed else none
  | [.string mode, stack, locals] =>
    if mode = "fixed" then do return .fixed (← wordOfJson? stack) (← wordOfJson? locals)
    else none
  | _ => none

def ofJson? : Json → Option Limits
  | .array items => ofPositional? items
  | json => ofNamed? json

end Limits

namespace Options

def toJson (options : Options) : Json :=
  .object [
    ("limits", options.limits.toJson),
    ("indent", .string options.indent),
    ("default_super", .string options.defaultSuper)]

/-- The keys of the options, in the order in which they are written. -/
def keys : List String :=
  ["limits", "indent", "default_super"]

/-- The options that the members of an object describe. -/
def ofNamed? (json : Json) : Option Options := do
  let _ ← json.members?
  let defaults : Options := {}
  let limits ← json.getWithDefault? "limits" defaults.limits Limits.ofJson?
  let indent ← json.getWithDefault? "indent" defaults.indent Json.string?
  let defaultSuper ← json.getWithDefault? "default_super" defaults.defaultSuper Json.string?
  return { limits, indent, defaultSuper }

/-- The options that values in the order of the keys describe. -/
def ofPositional? (items : List Json) : Option Options :=
  if items.length ≤ keys.length then ofNamed? (.object (keys.zip items)) else none

/-- The options that a JSON value describes. -/
def ofJson? : Json → Option Options
  | .array items => ofPositional? items
  | json => ofNamed? json

/-- The options in compact JSON text. -/
def render (options : Options) : String :=
  options.toJson.render

/-- The options that a JSON text describes. -/
def parse? (text : String) : Option Options :=
  (Json.parse? text).bind ofJson?

end Options

end Stackwright
