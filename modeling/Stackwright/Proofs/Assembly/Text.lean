import Stackwright.Assembly.Text
import Stackwright.Proofs.Fault

/-!
Contract: what the lines of an assembly text are made of.

Owns:
- the block of lines of a method;
- the lines of a class in front of its methods, and its text as a whole;
- the blocks of a text, one for each generated method.

Each part is given in full by the parts that it is made of, so that no one who reads a text
has to look at how it was put together.
-/

namespace Stackwright

namespace Method

/-- The lines of a method with a given descriptor and code. -/
def block (method : Method) (options : Options) (descriptor : String) (code : List MachineInstr) :
    List String :=
  [".method " ++ method.modifiers.leading ++ method.name ++ descriptor,
    options.indent ++ ".limit stack " ++ toString (options.limits.ofCode method code).1,
    options.indent ++ ".limit locals " ++ toString (options.limits.ofCode method code).2] ++
  code.map (fun instr => options.indent ++ instr.text) ++
  [".end method"]

/-- The lines of a method are those of its descriptor and of its code. -/
theorem assembly_eq_ok_iff {method : Method} {className : String} {options : Options}
    {lines : List String} :
    method.assembly className options = .ok lines ↔
      ∃ descriptor code, method.descriptor className = .ok descriptor ∧
        method.code className = .ok code ∧ lines = method.block options descriptor code := by
  simp only [assembly, assemblyHeader, bind_eq_ok_iff, pure_eq_ok_iff, mapError_eq_ok_iff]
  constructor
  · rintro ⟨_, ⟨descriptor, described, rfl⟩, code, generated, rfl⟩
    exact ⟨descriptor, code, described, generated, rfl⟩
  · rintro ⟨descriptor, code, described, generated, rfl⟩
    exact ⟨_, ⟨descriptor, described, rfl⟩, code, generated, rfl⟩

end Method

namespace ClassUnit

/-- The lines of a class in front of its methods. -/
def preamble (unit : ClassUnit) (options : Options) (fields : List String) : List String :=
  [".class " ++ unit.access.leading ++ slashed unit.name,
    ".super " ++ unit.superText options,
    ""] ++
  fields ++
  unit.defaultConstructor options

/-- The lines of a class with the lines of its fields and the blocks of its methods. Each block
is set off by a blank line. -/
def linesOf (unit : ClassUnit) (options : Options) (fields : List String)
    (blocks : List (List String)) : List String :=
  unit.preamble options fields ++ (blocks.map fun block => "" :: block).flatten

/-- The text of a class is that of its fields and of its methods, block by block. -/
theorem assembly_eq_ok_iff {unit : ClassUnit} {options : Options} {text : String} :
    unit.assembly options = .ok text ↔
      ∃ fields blocks, unit.fieldLines = .ok fields ∧
        unit.generated.map (fun method => method.assembly unit.name options) = blocks.map .ok ∧
        text = unlines (unit.linesOf options fields blocks) := by
  simp only [assembly, assemblyLines, bind_eq_ok_iff, pure_eq_ok_iff, mapM_eq_ok_iff]
  constructor
  · rintro ⟨_, ⟨fields, declared, blocks, generated, rfl⟩, rfl⟩
    exact ⟨fields, blocks, declared, generated, rfl⟩
  · rintro ⟨fields, blocks, declared, generated, rfl⟩
    exact ⟨_, ⟨fields, declared, blocks, generated, rfl⟩, rfl⟩

/-- The text of a class has a block for each generated method in turn. -/
theorem exists_blocks_of_assembly {unit : ClassUnit} {options : Options} {text : String}
    (succeeds : unit.assembly options = .ok text) :
    ∃ (before : List String) (blocks : List (List String)),
      text = unlines (before ++ (blocks.map fun block => "" :: block).flatten) ∧
      blocks.length = unit.generated.length ∧
      ∀ (index : Nat) (method : Method) (block : List String),
        unit.generated[index]? = some method → blocks[index]? = some block →
        method.assembly unit.name options = .ok block := by
  rcases assembly_eq_ok_iff.1 succeeds with ⟨fields, blocks, declared, generated, rfl⟩
  refine ⟨unit.preamble options fields, blocks, rfl, ?_, ?_⟩
  · simpa using (congrArg List.length generated).symm
  · intro index method block isMethod isBlock
    have sameAt := congrArg (·[index]?) generated
    simpa [isMethod, isBlock] using sameAt

end ClassUnit

end Stackwright
