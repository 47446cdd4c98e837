import Stackwright.Assembly.Options
import Stackwright.Generation.Body
import Stackwright.Machine.Depth
import Stackwright.Member.ClassUnit
import Stackwright.Text.Lines

/-!
Contract: the assembler text of a class.

A class is written as its header, its fields, a default constructor that does
nothing but call the superclass, and its methods in order, constructors left
out. The first failing field or method fails the whole class; there is no
partial text.

Field types are encoded as declared; the types of a method header are resolved
against the class first.
-/

namespace Stackwright

/-- The declaration of a field. -/
def Field.assembly (field : Field) : Except EncodingFault String := do
  let descriptor ← field.ty.descriptor .field
  return ".field " ++ field.modifiers.leading ++ field.name ++ " " ++ descriptor

/-- The stack and locals limits of a method with its code. -/
def Limits.ofCode (limits : Limits) (method : Method) (code : List MachineInstr) : Nat × Nat :=
  match limits with
  | .fixed stack locals => (stack.toNat, locals.toNat)
  | .computed => (stackLimit code, method.localsLimit)

namespace Method

/-- The descriptor of a method inside a class. -/
def descriptor (method : Method) (className : String) : Except EncodingFault String :=
  methodDescriptor (method.params.map fun param => param.ty.resolve className)
    (method.result.resolve className)

/-- The line that opens a method. -/
def assemblyHeader (method : Method) (className : String) : Except EncodingFault String := do
  let descriptor ← method.descriptor className
  return ".method " ++ method.modifiers.leading ++ method.name ++ descriptor

/-- The lines of a method inside a class. -/
def assembly (method : Method) (className : String) (options : Options) :
    Except Fault (List String) := do
  let header ← (method.assemblyHeader className).mapError fun fault =>
    .inClass className method.name (.unsupportedType fault)
  let code ← method.code className
  let limits := options.limits.ofCode method code
  return [
      header,
      options.indent ++ ".limit stack " ++ toString limits.1,
      options.indent ++ ".limit locals " ++ toString limits.2] ++
    code.map (fun instr => options.indent ++ instr.text) ++
    [".end method"]

end Method

namespace ClassUnit

/-- The superclass as it is written: a declared one in slashed form, or else the
default. -/
def superText (unit : ClassUnit) (options : Options) : String :=
  match unit.super? with
  | some super => slashed super
  | none => options.defaultSuper

/-- The lines of the default constructor. -/
def defaultConstructor (unit : ClassUnit) (options : Options) : List String := [
  "; default constructor",
  ".method public <init>()V",
  options.indent ++ "aload_0",
  options.indent ++ "invokespecial " ++ unit.superText options ++ "/<init>()V",
  options.indent ++ "return",
  ".end method"]

/-- The lines of the field declarations, set off by a blank line if there are any. -/
def fieldLines (unit : ClassUnit) : Except Fault (List String) := do
  let declarations ← unit.fields.mapM fun field =>
    field.assembly.mapError fun fault => .inClass unit.name field.name (.unsupportedType fault)
  return if declarations.isEmpty then [] else declarations ++ [""]

/-- The lines of a class. -/
def assemblyLines (unit : ClassUnit) (options : Options) : Except Fault (List String) := do
  let fields ← unit.fieldLines
  let methods ← unit.generated.mapM fun method => method.assembly unit.name options
  return [
      ".class " ++ unit.access.leading ++ slashed unit.name,
      ".super " ++ unit.superText options,
      ""] ++
    fields ++
    unit.defaultConstructor options ++
    (methods.map fun method => "" :: method).flatten

/-- The assembler text of a class. -/
def assembly (unit : ClassUnit) (options : Options) : Except Fault String := do
  return unlines (← unit.assemblyLines options)

end ClassUnit

/-- The texts of several classes, up to the first that fails. -/
def assembleAll (units : List ClassUnit) (options : Options) : Except Fault (List String) :=
  units.mapM fun unit => unit.assembly options

end Stackwright
