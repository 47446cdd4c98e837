import Stackwright.Proofs.Machine.Depth

/-!
Contract: how far down the operand stack code reaches.

Owns:
- what an instruction takes from the stack and puts there, as it records it;
- the height that code leaves on a stack of known height, if it never takes more than is there;
- the depth of such code and of its prefixes, counted from the height it starts on.

Depth alone does not tell whether the stack is there that an instruction works on: `dup` and
`getfield` take a value that they put back.
-/

namespace Stackwright

namespace MachineInstr

/-- How many values an instruction takes from the stack, those included that it only reads. -/
def takes : MachineInstr → Nat
  | .ldc _ | .load _ _ | .new _ | .retVoid => 0
  | .store _ _ | .dup | .pop | .getField _ | .ret _ => 1
  | .iadd | .isub | .imul | .idiv | .iand | .putField _ => 2
  | .invoke invocation => (if invocation.hasReceiver then 1 else 0) + invocation.argCount

/-- How many values an instruction puts on the stack. -/
def puts : MachineInstr → Nat
  | .store _ _ | .pop | .putField _ | .retVoid | .ret _ => 0
  | .ldc _ | .load _ _ | .iadd | .isub | .imul | .idiv | .iand | .new _ | .getField _ => 1
  | .dup => 2
  | .invoke invocation => if invocation.returnsValue then 1 else 0

/-- A call has few enough arguments for its effect to be counted. -/
def Countable : MachineInstr → Prop
  | .invoke invocation => invocation.argCount < 0x80000000
  | _ => True

theorem stackEffect_eq {instr : MachineInstr} (countable : instr.Countable) :
    instr.stackEffect = (instr.puts : Int) - instr.takes := by
  cases instr with
  | invoke invocation =>
    rw [stackEffect, Invocation.stackEffect_of_small countable, puts, takes]
    split <;> split <;> omega
  | ldc | load | store | iadd | isub | imul | idiv | iand | new | dup | pop | getField | putField
  | retVoid | ret => rfl

end MachineInstr

@[simp] theorem depthAfter_nil : depthAfter [] = 0 := rfl

theorem depthAfter_cons (instr : MachineInstr) (code : List MachineInstr) :
    depthAfter (instr :: code) = instr.stackEffect + depthAfter code := rfl

theorem depthAfter_append (first second : List MachineInstr) :
    depthAfter (first ++ second) = depthAfter first + depthAfter second := by
  induction first with
  | nil => simp
  | cons instr rest inductionHypothesis =>
    rw [List.cons_append, depthAfter_cons, depthAfter_cons, inductionHypothesis]
    omega

/-- The height that code leaves on a stack, if it never takes more values than are there. -/
def heightAfter? (height : Nat) : List MachineInstr → Option Nat
  | [] => some height
  | instr :: rest =>
    if instr.takes ≤ height then heightAfter? (height - instr.takes + instr.puts) rest else none

/-- An instruction that finds what it takes replaces it by what it puts there. -/
theorem heightAfter?_cons (instr : MachineInstr) (rest : List MachineInstr) (below : Nat) :
    heightAfter? (below + instr.takes) (instr :: rest) = heightAfter? (below + instr.puts) rest := by
  rw [heightAfter?, if_pos (Nat.le_add_left _ _), Nat.add_sub_cancel]

section Height

variable {code first second : List MachineInstr} {height low middle high : Nat}

theorem heightAfter?_append (lifts : heightAfter? low first = some middle) :
    heightAfter? low (first ++ second) = heightAfter? middle second := by
  induction first generalizing low with
  | nil =>
    cases lifts
    rfl
  | cons instr rest inductionHypothesis =>
    rw [heightAfter?] at lifts
    rw [List.cons_append, heightAfter?]
    split at lifts
    · next enough => rw [if_pos enough, inductionHypothesis lifts]
    · cases lifts

/-- More values at the bottom of the stack stay there. -/
theorem heightAfter?_add (lifts : heightAfter? low code = some high) (below : Nat) :
    heightAfter? (low + below) code = some (high + below) := by
  induction code generalizing low with
  | nil =>
    cases lifts
    rfl
  | cons instr rest inductionHypothesis =>
    rw [heightAfter?] at lifts ⊢
    split at lifts
    · next enough =>
      have sameHeight : low + below - instr.takes + instr.puts =
          low - instr.takes + instr.puts + below := by omega
      rw [if_pos (by omega), sameHeight, inductionHypothesis lifts]
    · cases lifts

/-- Code that has all the values that it takes has them at every point. -/
theorem exists_heightAfter?_take (lifts : heightAfter? low code = some high) (count : Nat) :
    ∃ between, heightAfter? low (code.take count) = some between := by
  induction code generalizing low count with
  | nil =>
    rw [List.take_nil]
    exact ⟨low, rfl⟩
  | cons instr rest inductionHypothesis =>
    cases count with
    | zero => exact ⟨low, rfl⟩
    | succ count =>
      rw [heightAfter?] at lifts
      rw [List.take_succ_cons, heightAfter?]
      split at lifts
      · next enough =>
        rw [if_pos enough]
        exact inductionHypothesis lifts count
      · cases lifts

/-- Depth is height, counted from where the code starts. -/
theorem depthAfter_of_heightAfter? (countable : ∀ instr ∈ code, instr.Countable)
    (lifts : heightAfter? low code = some high) : depthAfter code = (high : Int) - low := by
  induction code generalizing low with
  | nil =>
    cases lifts
    rw [depthAfter_nil]
    omega
  | cons instr rest inductionHypothesis =>
    rw [List.forall_mem_cons] at countable
    rw [heightAfter?] at lifts
    split at lifts
    · next enough =>
      have inRest := inductionHypothesis countable.2 lifts
      have ofInstr := MachineInstr.stackEffect_eq countable.1
      rw [depthAfter_cons]
      omega
    · cases lifts

/-- The depth never falls by more than the height the code starts on. -/
theorem neg_le_depthAfter_take (countable : ∀ instr ∈ code, instr.Countable)
    (lifts : heightAfter? low code = some high) (count : Nat) :
    -(low : Int) ≤ depthAfter (code.take count) := by
  rcases exists_heightAfter?_take lifts count with ⟨between, liftsPrefix⟩
  have depth := depthAfter_of_heightAfter?
    (fun instr member => countable instr (List.mem_of_mem_take member)) liftsPrefix
  omega

end Height

end Stackwright
