import Stackwright.Machine.Instr

/-!
Contract: how deep the operand stack gets.

Depth is counted from where the code starts and may fall below zero: code that
takes more than it puts is not judged here. The greatest depth is taken over all
prefixes of the code, the empty one included, so it is never negative.

Depths have no bound here. A counter of signed 32-bit words runs through the same
ones while they stay inside its range; what it does outside is not described.
-/

namespace Stackwright

/-- The depth after the code, counted from its start. -/
def depthAfter (code : List MachineInstr) : Int :=
  code.foldr (fun instr depth => instr.stackEffect + depth) 0

/-- The greatest depth over all prefixes of the code. -/
def maxDepth (code : List MachineInstr) : Int :=
  code.foldr (fun instr deepest => max 0 (instr.stackEffect + deepest)) 0

@[simp] theorem maxDepth_nil : maxDepth [] = 0 := rfl

/-- The deepest prefix is empty or goes through the first instruction. -/
@[simp] theorem maxDepth_cons (instr : MachineInstr) (code : List MachineInstr) :
    maxDepth (instr :: code) = max 0 (instr.stackEffect + maxDepth code) := rfl

theorem maxDepth_nonneg (code : List MachineInstr) : 0 ≤ maxDepth code := by
  cases code with
  | nil => exact Int.le_refl 0
  | cons instr rest => exact Int.le_max_left 0 _

/-- No prefix is deeper than the greatest depth. -/
theorem depthAfter_take_le (code : List MachineInstr) (count : Nat) :
    depthAfter (code.take count) ≤ maxDepth code := by
  induction code generalizing count with
  | nil => simp [depthAfter]
  | cons instr rest inductionHypothesis =>
    cases count with
    | zero => exact maxDepth_nonneg (instr :: rest)
    | succ count =>
      have inRest := inductionHypothesis count
      simp only [depthAfter, List.take_succ_cons, List.foldr_cons, maxDepth_cons] at inRest ⊢
      omega

/-- The greatest depth as the sixteen-bit number of a stack limit. -/
def stackLimit (code : List MachineInstr) : Nat :=
  min 65535 (maxDepth code).toNat

end Stackwright
