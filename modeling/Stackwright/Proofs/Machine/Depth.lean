import Stackwright.Machine.Depth
import Stackwright.Proofs.Ty.Reading

/-!
Contract: the depth of the operand stack, read off the code as it is printed.

Owns:
- what each instruction takes from the stack and puts there, by its opcode, and for a call by
  its opcode and its descriptor;
- the depth that code reaches on that reading, and the greatest depth of its prefixes;
- instructions that are neither calls nor returns;
- where each instruction records its effect as it is read, so does the code, and its stack
  limit is that of the reading.

What a call records of its own effect is not looked at by the reading.
-/

namespace Stackwright

/-- How many values an instruction takes from the stack, and how many it then puts there. -/
def MachineInstr.stackUse? : MachineInstr → Option (Nat × Nat)
  | .ldc _ | .load _ _ | .new _ => some (0, 1)
  | .store _ _ | .pop => some (1, 0)
  | .dup => some (1, 2)
  | .iadd | .isub | .imul | .idiv | .iand => some (2, 1)
  | .invoke invocation =>
    (readSignature? invocation.descriptor.toList).map fun (inputs, result) =>
      (inputs.length + (if invocation.kind = .static then 0 else 1),
        if result = .void then 0 else 1)
  | .getField _ => some (1, 1)
  | .putField _ => some (2, 0)
  | .retVoid => some (0, 0)
  | .ret _ => some (1, 0)

/-- The depth after the code, as it is read. -/
def readDepth? : List MachineInstr → Option Int
  | [] => some 0
  | instr :: rest => do
    let (taken, put) ← instr.stackUse?
    let depth ← readDepth? rest
    return put - taken + depth

/-- The greatest depth that is read over all prefixes of the code, the empty one included. -/
structure IsDeepest (code : List MachineInstr) (deepest : Int) : Prop where
  reached : ∃ count, readDepth? (code.take count) = some deepest
  bounds : ∀ count, ∃ depth, readDepth? (code.take count) = some depth ∧ depth ≤ deepest

/-- An instruction records its effect as it is read. -/
def MachineInstr.RecordsUse (instr : MachineInstr) : Prop :=
  ∃ taken put : Nat, instr.stackUse? = some (taken, put) ∧ instr.stackEffect = put - taken

/-- The instruction ends the run of the method. -/
def MachineInstr.IsReturn : MachineInstr → Prop
  | .retVoid | .ret _ => True
  | _ => False

/-- The instruction neither calls a method nor ends the run of its own. -/
def MachineInstr.IsPlain : MachineInstr → Prop
  | .invoke _ | .retVoid | .ret _ => False
  | _ => True

/-- Only a call can record another effect than its opcode has. -/
theorem MachineInstr.recordsUse_of_notInvoke {instr : MachineInstr}
    (notInvoke : ∀ invocation, instr ≠ .invoke invocation) : instr.RecordsUse := by
  cases instr with
  | invoke invocation => exact absurd rfl (notInvoke invocation)
  | ldc | load | new => exact ⟨0, 1, rfl, rfl⟩
  | store | pop | ret => exact ⟨1, 0, rfl, rfl⟩
  | dup => exact ⟨1, 2, rfl, rfl⟩
  | iadd | isub | imul | idiv | iand => exact ⟨2, 1, rfl, rfl⟩
  | getField => exact ⟨1, 1, rfl, rfl⟩
  | putField => exact ⟨2, 0, rfl, rfl⟩
  | retVoid => exact ⟨0, 0, rfl, rfl⟩

/-- Few enough arguments are counted as they are. -/
theorem Invocation.stackEffect_of_small {invocation : Invocation}
    (small : invocation.argCount < 0x80000000) :
    invocation.stackEffect = (if invocation.returnsValue then 1 else 0) -
      (invocation.argCount + (if invocation.hasReceiver then 1 else 0)) := by
  apply Int.bmod_eq_of_le
  · split <;> split <;> omega
  · split <;> split <;> omega

theorem readDepth?_eq_depthAfter {code : List MachineInstr}
    (records : ∀ instr ∈ code, instr.RecordsUse) : readDepth? code = some (depthAfter code) := by
  induction code with
  | nil => rfl
  | cons instr rest inductionHypothesis =>
    rw [List.forall_mem_cons] at records
    rcases records.1 with ⟨taken, put, used, recorded⟩
    simp [readDepth?, used, inductionHypothesis records.2, depthAfter, recorded]

/-- Some prefix is as deep as the greatest depth. -/
theorem exists_depthAfter_take_eq (code : List MachineInstr) :
    ∃ count, depthAfter (code.take count) = maxDepth code := by
  induction code with
  | nil => exact ⟨0, rfl⟩
  | cons instr rest inductionHypothesis =>
    rcases inductionHypothesis with ⟨count, reached⟩
    by_cases below : instr.stackEffect + maxDepth rest ≤ 0
    · refine ⟨0, ?_⟩
      rw [maxDepth_cons, Int.max_eq_left below]
      rfl
    · refine ⟨count + 1, ?_⟩
      rw [maxDepth_cons, Int.max_eq_right (by omega), ← reached]
      rfl

/-- The stack limit of code is the greatest depth that is read off it, as far as that fits
sixteen bits. -/
theorem isDeepest_maxDepth {code : List MachineInstr} (records : ∀ instr ∈ code, instr.RecordsUse) :
    IsDeepest code (maxDepth code) := by
  have readPrefix (count : Nat) :
      readDepth? (code.take count) = some (depthAfter (code.take count)) :=
    readDepth?_eq_depthAfter fun instr member => records instr (List.mem_of_mem_take member)
  constructor
  · rcases exists_depthAfter_take_eq code with ⟨count, reached⟩
    exact ⟨count, by rw [readPrefix, reached]⟩
  · intro count
    exact ⟨depthAfter (code.take count), readPrefix count, depthAfter_take_le code count⟩

end Stackwright
