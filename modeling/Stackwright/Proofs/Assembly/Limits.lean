import Stackwright.Proofs.Assembly.Text
import Stackwright.Proofs.Generation.Depth

/-!
Contract: the limits that are printed with computed limits.

Owns:
- the calls of a class and its size, which bound the reading of its code;
- the stack limit printed above the code of a method is the greatest depth that is read off
  that code.

The reading goes by what is printed, opcodes and descriptors. It fails on a class name with a
semicolon, so the names in calls are taken to have none.
-/

namespace Stackwright

/-- The block of a method prints the greatest depth that is read off its code, as far as it
fits sixteen bits, above the lines of that code. -/
def Method.PrintsStackLimit (method : Method) (className : String) (options : Options)
    (block : List String) : Prop :=
  ∃ header code deepest,
    method.code className = .ok code ∧
    IsDeepest code deepest ∧
    block =
      [".method " ++ header,
        options.indent ++ ".limit stack " ++ toString (min 65535 deepest.toNat),
        options.indent ++ ".limit locals " ++ toString method.localsLimit] ++
      code.map (fun instr => options.indent ++ instr.text) ++
      [".end method"]

namespace ClassUnit

/-- The text consists of lines in front of the methods and of one block for each generated
method in turn, which prints the stack limit of that method. -/
def PrintsStackLimits (unit : ClassUnit) (options : Options) (text : String) : Prop :=
  ∃ (before : List String) (blocks : List (List String)),
    text = unlines (before ++ (blocks.map fun block => "" :: block).flatten) ∧
    blocks.length = unit.generated.length ∧
    ∀ (index : Nat) (method : Method) (block : List String),
      unit.generated[index]? = some method → blocks[index]? = some block →
      method.PrintsStackLimit unit.name options block

/-- The instructions of the generated methods. -/
def instrs (unit : ClassUnit) : List Instr :=
  unit.generated.flatMap Method.instrs

/-- The calls that the generated methods make. -/
def calls (unit : ClassUnit) : List Call :=
  unit.instrs.filterMap Instr.call?

/-- The number of instructions and of arguments in the generated methods. -/
def size (unit : ClassUnit) : Nat :=
  unit.instrs.length + (unit.calls.flatMap Call.args).length

end ClassUnit

/-- The class and the types of its calls have names without the character that ends names in
descriptors. -/
structure ClassUnit.Legible (unit : ClassUnit) : Prop where
  name : ';' ∉ unit.name.toList
  calls : ∀ call ∈ unit.calls, ∀ ty ∈ call.tys, ty.Plain

/-- In a class that is small enough, every call can be read. -/
theorem ClassUnit.Legible.readable {unit : ClassUnit} (legible : unit.Legible)
    (small : unit.size < 0x80000000) {method : Method} (generated : method ∈ unit.generated) :
    ∀ call ∈ method.instrs.filterMap Instr.call?, call.Readable := by
  intro call member
  have inClass : call ∈ unit.calls := by
    rcases List.mem_filterMap.1 member with ⟨instr, isInstr, makes⟩
    exact List.mem_filterMap.2 ⟨instr, List.mem_flatMap.2 ⟨method, generated, isInstr⟩, makes⟩
  have argsInClass : call.args.length ≤ (unit.calls.flatMap Call.args).length :=
    (List.sublist_flatten_of_mem (List.mem_map_of_mem inClass)).length_le
  have argsInSize : (unit.calls.flatMap Call.args).length ≤ unit.size := Nat.le_add_left _ _
  exact ⟨legible.calls call inClass,
    Nat.lt_of_le_of_lt (Nat.le_trans argsInClass argsInSize) small⟩

/-- A method whose calls can be read prints its stack limit as it is read. -/
theorem Method.printsStackLimit_of_assembly {method : Method} {className : String}
    {options : Options} {block : List String} (computed : options.limits = .computed)
    (plainClass : ';' ∉ className.toList)
    (readable : ∀ call ∈ method.instrs.filterMap Instr.call?, call.Readable)
    (succeeds : method.assembly className options = .ok block) :
    method.PrintsStackLimit className options block := by
  rcases Method.assembly_eq_ok_iff.1 succeeds with ⟨descriptor, code, described, generated, rfl⟩
  refine ⟨method.modifiers.leading ++ method.name ++ descriptor, code, maxDepth code, generated,
    isDeepest_maxDepth (Method.recordsUse_of_code plainClass readable generated), ?_⟩
  simp only [Method.block, computed, Limits.ofCode, stackLimit, String.append_assoc]
  rfl

/-- With computed limits, every method prints the greatest depth that is read off its code,
provided that instructions and arguments can be counted in signed 32-bit words. -/
theorem ClassUnit.stackLimits_printed {unit : ClassUnit} {options : Options} {text : String}
    (computed : options.limits = .computed) (legible : unit.Legible)
    (small : unit.size < 0x80000000) (succeeds : unit.assembly options = .ok text) :
    unit.PrintsStackLimits options text := by
  rcases unit.exists_blocks_of_assembly succeeds with ⟨before, blocks, same, count, assembled⟩
  refine ⟨before, blocks, same, count, ?_⟩
  intro index method block isMethod isBlock
  exact Method.printsStackLimit_of_assembly computed legible.name
    (legible.readable small (List.mem_of_getElem? isMethod)) (assembled index method block isMethod isBlock)

/-- A class with a method that calls one of its own methods and a static one. -/
def tallyUnit : ClassUnit where
  name := "Tally"
  methods := [
    { name := "show"
      params := [⟨"count", .int⟩]
      result := .void
      instrs := [
        .assign (.variable "count" .int) (.call
          { kind := .virtual, target := .receiver, method? := some "sum",
            args := [.variable "count" .int, .int 2], result := .int }),
        .call
          { kind := .static, target := .variable "io" (.classRef "io"), method? := some "println",
            args := [.variable "count" .int], result := .void }] }]

/-- The text of that class. The receiver and both arguments are on the stack at its deepest. -/
def tallyText : String := unlines [
  ".class Tally", ".super java/lang/Object", "",
  "; default constructor", ".method public <init>()V",
  "    aload_0", "    invokespecial java/lang/Object/<init>()V", "    return", ".end method",
  "",
  ".method show(I)V", "    .limit stack 3", "    .limit locals 2",
  "    aload_0", "    iload_1", "    ldc 2", "    invokevirtual Tally/sum(II)I", "    istore_1",
  "    iload_1", "    invokestatic io/println(I)V", "    return", ".end method"]

theorem ClassUnit.stackLimits_printed_of_tally :
    tallyUnit.Legible ∧ tallyUnit.size < 0x80000000 ∧
    tallyUnit.assembly .computedLimits = .ok tallyText ∧
    tallyUnit.PrintsStackLimits .computedLimits tallyText := by
  have legible : tallyUnit.Legible := ⟨by decide, by decide⟩
  have small : tallyUnit.size < 0x80000000 := by decide
  have succeeds : tallyUnit.assembly .computedLimits = .ok tallyText := rfl
  exact ⟨legible, small, succeeds, ClassUnit.stackLimits_printed rfl legible small succeeds⟩

end Stackwright
