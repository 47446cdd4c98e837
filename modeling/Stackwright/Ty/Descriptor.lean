import Stackwright.Ty.Site

/-!
Contract: the descriptors and internal names by which the machine addresses
types, classes and methods.

Owns:
- slashed class names;
- descriptors of types, at every site;
- internal names of the classes that own a member;
- descriptors of method declarations and of call sites.

Does not own: resolution of the receiver type. It has no descriptor, so callers
resolve it first.
-/

namespace Stackwright

/-- The internal form of a class name: every dot becomes a slash. -/
def slashed (name : String) : String :=
  String.ofList (name.toList.map fun char => if char = '.' then '/' else char)

/-- Internal name of the platform's string class. -/
def stringClass : String :=
  "java/lang/String"

namespace Ty

/-- The descriptor of a type at a site. `void` is the type of a result and of
nothing else; an element of an array is encoded at the element site, wherever
the array stands. -/
def descriptor : Ty → Site → Except EncodingFault String
  | .int, _ => .ok "I"
  | .boolean, _ => .ok "Z"
  | .void, .result => .ok "V"
  | .void, site => .error (.ofTy .void site)
  | .string, _ => .ok ("L" ++ stringClass ++ ";")
  | .array element, _ => do return "[" ++ (← element.descriptor .arrayElement)
  | .classRef name, _ => .ok ("L" ++ slashed name ++ ";")
  | .receiver, site => .error (.ofTy .receiver site)

/-- The name by which the members of a type are addressed. Arrays own members
too, under their descriptor. -/
def internalName (ty : Ty) (site : Site) : Except EncodingFault String :=
  match ty with
  | .string => .ok stringClass
  | .classRef name => .ok (slashed name)
  | .array _ => ty.descriptor site
  | .int | .boolean | .void | .receiver => .error (.ofTy ty site)

end Ty

/-- Descriptors of the inputs in order, in parentheses, followed by the
descriptor of the result. The first type without an encoding decides the fault. -/
def signatureDescriptor (inputSite : Site) (inputs : List Ty) (result : Ty) :
    Except EncodingFault String := do
  let encoded ← inputs.mapM fun input => input.descriptor inputSite
  let encodedResult ← result.descriptor .result
  return "(" ++ String.join encoded ++ ")" ++ encodedResult

/-- The descriptor under which a method is declared. -/
def methodDescriptor (params : List Ty) (result : Ty) : Except EncodingFault String :=
  signatureDescriptor .parameter params result

/-- The descriptor by which a call site names its callee. -/
def callDescriptor (args : List Ty) (result : Ty) : Except EncodingFault String :=
  signatureDescriptor .argument args result

end Stackwright
