import Stackwright.Proofs.Machine.Height
import Stackwright.Proofs.Semantics.Machine

/-!
Contract: runs that leave alone what lies below on the operand stack.

Owns:
- runs that use only a known number of values from the top of the stack: whatever lies below
  makes no difference to them and stays where it is;
- such runs put together;
- machine code is such a run, of as many values as its height starts on, and ends early only
  by an action that aborts, or by a return if it has one.
-/

namespace Stackwright

section Runs

variable {Key Value Action Heap α β : Type}

/-- The state with more values at the bottom of its stack. -/
def RunState.over (state : RunState Key Value Action Heap) (below : List Value) :
    RunState Key Value Action Heap :=
  { state with stack := state.stack ++ below }

/-- The outcome of a run with more values at the bottom of the stack that it leaves. -/
def RunM.outcomeOver (below : List Value) :
    EStateM.Result (Ending Value) (RunState Key Value Action Heap) α →
      EStateM.Result (Ending Value) (RunState Key Value Action Heap) α
  | .ok value after => .ok value (after.over below)
  | .error ending after => .error ending (after.over below)

/-- A run ends early by an action that aborts, or by a return where one may be met. -/
def EndsEarly (mayReturn : Prop) (ending : Ending Value) : Prop :=
  ending = .aborted ∨ mayReturn ∧ ∃ value?, ending = .returned value?

/-- On a stack of height `low` the run finds all that it takes, and leaves a stack of height
`high` if it does not end early. Values further down are neither read nor taken. -/
structure RunM.Within (run : RunM Key Value Action Heap α) (mayReturn : Prop) (low high : Nat) :
    Prop where
  frame : ∀ state below, state.stack.length = low →
    run.run (state.over below) = outcomeOver below (run.run state)
  height : ∀ state value after, state.stack.length = low → run.run state = .ok value after →
    after.stack.length = high
  ends : ∀ state ending after, state.stack.length = low → run.run state = .error ending after →
    EndsEarly mayReturn ending

namespace RunM.Within

variable {mayReturn : Prop} {low middle high : Nat}

theorem weaken {mayReturnToo : Prop} {run : RunM Key Value Action Heap α}
    (within : run.Within mayReturn low high) (weaker : mayReturn → mayReturnToo) :
    run.Within mayReturnToo low high where
  frame := within.frame
  height := within.height
  ends state ending after atLow ended := (within.ends state ending after atLow ended).imp_right (And.imp_left weaker)

theorem bind {first : RunM Key Value Action Heap α} {next : α → RunM Key Value Action Heap β}
    (withinFirst : first.Within mayReturn low middle)
    (withinNext : ∀ value, (next value).Within mayReturn middle high) :
    (first >>= next).Within mayReturn low high where
  frame state below atLow := by
    rw [EStateM.run_bind, EStateM.run_bind, withinFirst.frame state below atLow]
    cases ran : first.run state with
    | ok value after => exact (withinNext value).frame after below (withinFirst.height _ _ _ atLow ran)
    | error ending after => rfl
  height state value after atLow finished := by
    rw [EStateM.run_bind] at finished
    cases ran : first.run state with
    | ok between middleState =>
      rw [ran] at finished
      exact (withinNext between).height _ _ _ (withinFirst.height _ _ _ atLow ran) finished
    | error ending middleState =>
      rw [ran] at finished
      cases finished
  ends state ending after atLow ended := by
    rw [EStateM.run_bind] at ended
    cases ran : first.run state with
    | ok between middleState =>
      rw [ran] at ended
      exact (withinNext between).ends _ _ _ (withinFirst.height _ _ _ atLow ran) ended
    | error firstEnding middleState =>
      rw [ran] at ended
      cases ended
      exact withinFirst.ends _ _ _ atLow ran

/-- A step that always goes on is known by what it does to one state. -/
theorem of_ok {run : RunM Key Value Action Heap α}
    (goesOn : ∀ state, state.stack.length = low → ∃ value after, run.run state = .ok value after ∧
      after.stack.length = high ∧ ∀ below, run.run (state.over below) = .ok value (after.over below)) :
    run.Within mayReturn low high where
  frame state below atLow := by
    rcases goesOn state atLow with ⟨value, after, ran, -, ranOver⟩
    rw [ranOver, ran]
    rfl
  height state value after atLow finished := by
    rcases goesOn state atLow with ⟨_, _, ran, atHigh, -⟩
    cases ran.symm.trans finished
    exact atHigh
  ends state ending after atLow ended := by
    rcases goesOn state atLow with ⟨_, _, ran, -, -⟩
    cases ran.symm.trans ended

theorem pure (value : α) : (Pure.pure value : RunM Key Value Action Heap α).Within mayReturn low low :=
  of_ok fun state atLow => ⟨value, state, rfl, atLow, fun _ => rfl⟩

theorem locals : (RunM.locals : RunM Key Value Action Heap (Key → Value)).Within mayReturn low low :=
  of_ok fun state atLow => ⟨state.locals, state, rfl, atLow, fun _ => rfl⟩

theorem assign [DecidableEq Key] (key : Key) (value : Value) :
    (RunM.assign key value : RunM Key Value Action Heap Unit).Within mayReturn low low :=
  of_ok fun _ atLow => ⟨(), _, rfl, atLow, fun _ => rfl⟩

theorem push (value : Value) :
    (RunM.push value : RunM Key Value Action Heap Unit).Within mayReturn low (low + 1) :=
  of_ok fun _ atLow => ⟨(), _, rfl, congrArg (· + 1) atLow, fun _ => rfl⟩

theorem pop : (RunM.pop : RunM Key Value Action Heap Value).Within mayReturn (low + 1) low := by
  apply of_ok
  rintro ⟨locals, stack, heap, trace⟩ atLow
  cases stack with
  | nil => cases atLow
  | cons top rest => exact ⟨top, ⟨locals, rest, heap, trace⟩, rfl, Nat.succ.inj atLow, fun _ => rfl⟩

theorem popMany (count : Nat) :
    (RunM.popMany count : RunM Key Value Action Heap (List Value)).Within mayReturn (low + count) low := by
  induction count with
  | zero => exact pure []
  | succ count inductionHypothesis =>
    exact pop.bind fun _ => inductionHypothesis.bind fun _ => pure _

theorem throw {ending : Ending Value} (early : EndsEarly mayReturn ending) :
    (MonadExcept.throw ending : RunM Key Value Action Heap α).Within mayReturn low high where
  frame _ _ _ := rfl
  height _ _ _ _ finished := by cases finished
  ends _ _ _ _ ended := by
    cases ended
    exact early

theorem perform (world : World Value Action Heap) (action : Action) :
    (RunM.perform world action : RunM Key Value Action Heap Value).Within mayReturn low low where
  frame state below _ := by
    have sameHeap : (state.over below).heap = state.heap := rfl
    rw [perform_run, perform_run, sameHeap]
    cases (world.effect action state.heap).2 <;> rfl
  height state value after atLow finished := by
    rw [perform_run] at finished
    split at finished
    · cases finished
      exact atLow
    · cases finished
  ends state ending after _ ended := by
    rw [perform_run] at ended
    split at ended
    · cases ended
    · cases ended
      exact .inl rfl

end RunM.Within

end Runs

namespace MachineInstr

variable {Value Heap : Type}

theorem execOperator_within (world : MachineWorld Value Heap) (operator : Operator)
    {mayReturn : Prop} (below : Nat) :
    (execOperator world operator).Within mayReturn (below + 2) (below + 1) :=
  .bind .pop fun _ => .bind .pop fun _ => .bind (.perform _ _) fun _ => .push _

theorem execInvoke_within (world : MachineWorld Value Heap) (invocation : Invocation)
    {mayReturn : Prop} (below : Nat) :
    (execInvoke world invocation).Within mayReturn
      (below + (if invocation.hasReceiver then 1 else 0) + invocation.argCount)
      (below + (if invocation.returnsValue then 1 else 0)) := by
  refine (RunM.Within.popMany invocation.argCount).bind fun args => ?_
  have performs (receiver? : Option Value) : (do
      let value ← RunM.perform world.toWorld (.invoke invocation.method receiver? args)
      if invocation.returnsValue then RunM.push value else pure () : MachineM Value Heap Unit).Within
        mayReturn below (below + (if invocation.returnsValue then 1 else 0)) := by
    refine (RunM.Within.perform _ _).bind fun value => ?_
    cases invocation.returnsValue with
    | true => exact .push value
    | false => exact .pure ()
  cases invocation.hasReceiver with
  | true => exact .bind (.bind .pop fun _ => .pure _) performs
  | false => exact .bind (.pure none) performs

/-- An instruction uses the values that it takes, and ends the run only if it is a return or its
action aborts. -/
theorem exec_within (world : MachineWorld Value Heap) (instr : MachineInstr) (below : Nat) :
    (instr.exec world).Within instr.IsReturn (below + instr.takes) (below + instr.puts) := by
  cases instr with
  | ldc text => exact .push _
  | load kind slot => exact .bind .locals fun _ => .push _
  | store kind slot => exact .bind .pop fun _ => .assign slot _
  | iadd | isub | imul | idiv | iand => exact execOperator_within world _ below
  | new owner => exact .bind (.perform _ _) fun _ => .push _
  | dup => exact .bind .pop fun _ => .bind (.push _) fun _ => .push _
  | pop => exact .bind .pop fun _ => .pure ()
  | invoke invocation =>
    rw [takes, ← Nat.add_assoc]
    exact execInvoke_within world invocation below
  | getField field => exact .bind .pop fun _ => .bind (.perform _ _) fun _ => .push _
  | putField field =>
    exact .bind .pop fun _ => .bind .pop fun _ => .bind (.perform _ _) fun _ => .pure ()
  | retVoid => exact .throw (.inr ⟨trivial, none, rfl⟩)
  | ret kind => exact .bind .pop fun _ => .throw (.inr ⟨trivial, _, rfl⟩)

/-- Code that has all the values that it takes uses only these. -/
theorem execAll_within (world : MachineWorld Value Heap) {code : List MachineInstr} {low high : Nat}
    (lifts : heightAfter? low code = some high) :
    (execAll world code).Within (∃ instr ∈ code, instr.IsReturn) low high := by
  induction code generalizing low with
  | nil =>
    cases lifts
    exact .pure ()
  | cons instr rest inductionHypothesis =>
    rw [heightAfter?] at lifts
    split at lifts
    · next enough =>
      have first := exec_within world instr (low - instr.takes)
      rw [Nat.sub_add_cancel enough] at first
      have returnsLater : (∃ later ∈ rest, later.IsReturn) → ∃ later ∈ instr :: rest, later.IsReturn := by
        rintro ⟨later, inRest, isReturn⟩
        exact ⟨later, List.mem_cons_of_mem instr inRest, isReturn⟩
      exact (first.weaken fun isReturn => ⟨instr, List.mem_cons_self, isReturn⟩).bind fun _ =>
        (inductionHypothesis lifts).weaken returnsLater
    · cases lifts

end MachineInstr

end Stackwright
