import Stackwright.Proofs.Assembly.Text
import Stackwright.Proofs.Generation.Slots

/-!
Contract: the locals limit that is printed with computed limits.

Owns:
- the limit printed above the code of a method whose slots can be counted is the least that
  covers its table and its parameters, and the code names no slot from there on;
- the one exception: a method without any slot that evaluates its receiver.

The limit is read off the table and the parameters alone, and never off the code.
-/

namespace Stackwright

namespace Method

/-- The block of a method prints the least number of slots that covers its table and its
parameters. The code below it names no other slot, unless it loads a receiver that the method
does not have. -/
def PrintsLocalsLimit (method : Method) (className : String) (options : Options)
    (block : List String) : Prop :=
  ∃ header stack code limit,
    method.code className = .ok code ∧
    IsLeast {count | method.table.CoveredBy count ∧
      FrameTable.headSize method.isStatic method.params ≤ count} limit ∧
    limit ≤ 65535 ∧
    (∀ instr ∈ code, ∀ slot, instr.slot? = some slot →
      (slot : Nat) < limit ∨ limit = 0 ∧ method.LoadsMissingReceiver className instr) ∧
    block =
      [".method " ++ header,
        options.indent ++ ".limit stack " ++ stack,
        options.indent ++ ".limit locals " ++ toString limit] ++
      code.map (fun instr => options.indent ++ instr.text) ++
      [".end method"]

theorem printsLocalsLimit_of_assembly {method : Method} {className : String} {options : Options}
    {block : List String} (computed : options.limits = .computed) (fits : method.FitsWords)
    (succeeds : method.assembly className options = .ok block) :
    method.PrintsLocalsLimit className options block := by
  rcases assembly_eq_ok_iff.1 succeeds with ⟨descriptor, code, described, generated, rfl⟩
  refine ⟨method.modifiers.leading ++ method.name ++ descriptor, toString (stackLimit code), code,
    method.localsLimit, generated, fits.isLeast_localsLimit, ?_, ?_, ?_⟩
  · exact fits.isLeast_localsLimit.2 ⟨fits.coveredBy, fits.frame⟩
  · intro instr member slot named
    exact fits.slot_lt generated member named
  · simp only [block, computed, Limits.ofCode, String.append_assoc]

end Method

/-- The text consists of lines in front of the methods and of one block for each generated
method in turn, which prints the locals limit of that method if its slots fit. -/
def ClassUnit.PrintsLocalsLimits (unit : ClassUnit) (options : Options) (text : String) : Prop :=
  ∃ (before : List String) (blocks : List (List String)),
    text = unlines (before ++ (blocks.map fun block => "" :: block).flatten) ∧
    blocks.length = unit.generated.length ∧
    ∀ (index : Nat) (method : Method) (block : List String),
      unit.generated[index]? = some method → blocks[index]? = some block →
      method.FitsWords → method.PrintsLocalsLimit unit.name options block

/-- With computed limits, every method prints a locals limit that covers each slot it uses, and
none that is larger than its table and its parameters ask for. -/
theorem ClassUnit.localsLimits_printed {unit : ClassUnit} {options : Options} {text : String}
    (computed : options.limits = .computed) (succeeds : unit.assembly options = .ok text) :
    unit.PrintsLocalsLimits options text := by
  rcases unit.exists_blocks_of_assembly succeeds with ⟨before, blocks, same, count, assembled⟩
  refine ⟨before, blocks, same, count, ?_⟩
  intro index method block isMethod isBlock fits
  exact Method.printsLocalsLimit_of_assembly computed fits (assembled index method block isMethod isBlock)

/-- A static method that returns its receiver, over an empty table. It loads slot zero and has no
slot. -/
def strayMethod : Method where
  name := "self"
  params := []
  result := .receiver
  modifiers := { isStatic := true }
  instrs := [.ret .receiver (some .receiver)]
  table := ∅

/-- A class with that method, and with one that copies its parameter into a local three slots on. -/
def gapUnit : ClassUnit where
  name := "Gap"
  methods := [
    { name := "copy"
      params := [⟨"count", .int⟩]
      result := .int
      instrs := [
        .assign (.variable "kept" .int) (.single (.variable "count" .int)),
        .ret .int (some (.variable "kept" .int))]
      table := (FrameTable.layout false [⟨"count", .int⟩] []).insert "kept" 4 .int },
    strayMethod]

/-- The text of that class. -/
def gapText : String := unlines [
  ".class Gap", ".super java/lang/Object", "",
  "; default constructor", ".method public <init>()V",
  "    aload_0", "    invokespecial java/lang/Object/<init>()V", "    return", ".end method",
  "",
  ".method copy(I)I", "    .limit stack 1", "    .limit locals 5",
  "    iload_1", "    istore 4", "    iload 4", "    ireturn", ".end method",
  "",
  ".method static self()LGap;", "    .limit stack 1", "    .limit locals 0",
  "    aload_0", "    areturn", ".end method"]

theorem ClassUnit.localsLimits_printed_of_gap :
    (∀ method ∈ gapUnit.generated, method.FitsWords) ∧
    gapUnit.assembly .computedLimits = .ok gapText ∧
    gapUnit.PrintsLocalsLimits .computedLimits gapText := by
  have small : ∀ method ∈ gapUnit.generated, method.table.CoveredBy 65535 ∧
      FrameTable.headSize method.isStatic method.params ≤ 65535 := by decide
  have fits : ∀ method ∈ gapUnit.generated, method.FitsWords := by
    intro method member
    have covered := (small method member).1
    exact ⟨fun name binding bound => Nat.le_of_lt_succ (covered name binding bound),
      (small method member).2⟩
  have succeeds : gapUnit.assembly .computedLimits = .ok gapText := rfl
  exact ⟨fits, succeeds, ClassUnit.localsLimits_printed rfl succeeds⟩

end Stackwright
