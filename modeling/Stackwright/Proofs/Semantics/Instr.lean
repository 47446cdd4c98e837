import Stackwright.Proofs.Code.Variables
import Stackwright.Proofs.Semantics.Tree

/-!
Contract: the meaning of three-address instructions.

Owns:
- the world of instructions: the meaning of literals, and the actions by which
  operators, calls and field accesses are performed;
- runs of instructions, alone and in sequence;
- the world of instructions that a world of source programs gives rise to.

Instructions have a meaning where a call or a field access denotes an action. The
creation of objects is split over the operand stack of the machine, so it has no
meaning here. An operand that stands alone leaves its value on the stack.
-/

namespace Stackwright

structure InstrWorld (Value Action Heap : Type) extends World Value Action Heap where
  literal : String → Ty → Value
  operate : Operator → Value → Value → Action
  call? : Call → Option Value → List Value → Option Action
  getField? : FieldPlace → Value → Option Action
  putField? : FieldPlace → Value → Value → Option Action

variable {Value Action Heap : Type}

def Operand.value (world : InstrWorld Value Action Heap) (receiver : Value)
    (locals : String → Value) : Operand → Value
  | .literal text ty => world.literal text ty
  | .variable name ty => readVariable receiver locals name ty
  | .receiver => receiver

namespace Call

/-- The object that a call is made on, if it is a call on an object. The target of a
static call stands for a class and is not read. -/
def object? (world : InstrWorld Value Action Heap) (receiver : Value) (locals : String → Value)
    (call : Call) : Option (Option Value) :=
  match call.kind with
  | .virtual => some (some (call.target.value world receiver locals))
  | .static => some none
  | .allocate | .special => none

/-- The action that a call performs, where it has a meaning. -/
def action? (world : InstrWorld Value Action Heap) (receiver : Value) (locals : String → Value)
    (call : Call) : Option Action := do
  let object? ← call.object? world receiver locals
  world.call? call object? (call.args.map (Operand.value world receiver locals))

/-- Runs a call. A call that returns nothing yields no value. -/
def run (world : InstrWorld Value Action Heap) (receiver : Value) (call : Call) :
    RunM String Value Action Heap (Option Value) := do
  let action ← RunM.need (call.action? world receiver (← RunM.locals))
  let value ← RunM.perform world.toWorld action
  return if call.result = .void then none else some value

end Call

/-- A call that leaves a value and allocates nothing does not return `void`. -/
theorem Call.result_ne_void_of_resultType {call : Call} {ty : Ty} (notAllocate : call.kind ≠ .allocate)
    (leaves : call.resultType? = some ty) : call.result ≠ .void := by
  intro void
  unfold resultType? at leaves
  cases kind : call.kind with
  | allocate => exact notAllocate kind
  | special | virtual | static => simp [kind, void] at leaves

namespace Instr

/-- The value that an instruction gives to an assignment. -/
def yield (world : InstrWorld Value Action Heap) (receiver : Value) :
    Instr → RunM String Value Action Heap Value
  | .single operand => return operand.value world receiver (← RunM.locals)
  | .binary operator left right _ => do
    let locals ← RunM.locals
    RunM.perform world.toWorld (world.operate operator (left.value world receiver locals)
      (right.value world receiver locals))
  | .call invocation => do RunM.need (← invocation.run world receiver)
  | .getField place => do
    let object := place.object.value world receiver (← RunM.locals)
    RunM.perform world.toWorld (← RunM.need (world.getField? place object))
  | .assign _ _ | .ret _ _ | .putField _ _ => throw .stuck

/-- Runs an instruction that stands as a statement. -/
def exec (world : InstrWorld Value Action Heap) (receiver : Value) :
    Instr → RunM String Value Action Heap Unit
  | .assign (.variable name _) source => do
    let value ← source.yield world receiver
    RunM.assign name value
  | .single operand => do RunM.push (operand.value world receiver (← RunM.locals))
  | .ret ty value? => do
    let locals ← RunM.locals
    throw (.returned (if ty = .void then none else value?.map (Operand.value world receiver locals)))
  | .call invocation => do
    let _ ← invocation.run world receiver
  | .putField place value => do
    let locals ← RunM.locals
    let action ← RunM.need (world.putField? place (place.object.value world receiver locals)
      (value.value world receiver locals))
    let _ ← RunM.perform world.toWorld action
  | .assign (.literal _ _) _ | .assign .receiver _ | .binary _ _ _ _ | .getField _ => throw .stuck

def execAll (world : InstrWorld Value Action Heap) (receiver : Value) :
    List Instr → RunM String Value Action Heap Unit
  | [] => return ()
  | instr :: rest => do
    instr.exec world receiver
    execAll world receiver rest

@[simp] theorem execAll_nil (world : InstrWorld Value Action Heap) (receiver : Value) :
    execAll world receiver [] = pure () := rfl

@[simp] theorem execAll_cons (world : InstrWorld Value Action Heap) (receiver : Value)
    (instr : Instr) (rest : List Instr) :
    execAll world receiver (instr :: rest) =
      instr.exec world receiver >>= fun _ => execAll world receiver rest := rfl

theorem execAll_append (world : InstrWorld Value Action Heap) (receiver : Value)
    (first second : List Instr) :
    execAll world receiver (first ++ second) =
      execAll world receiver first >>= fun _ => execAll world receiver second := by
  induction first with
  | nil => rfl
  | cons instr rest inductionHypothesis =>
    rw [List.cons_append, execAll_cons, execAll_cons, inductionHypothesis, bind_assoc]

end Instr

/-- The last instruction is a return, so the end of the code is never reached. -/
theorem Instr.execAll_run_ne_ok {world : InstrWorld Value Action Heap} {receiver : Value}
    {instrs : List Instr} (endsInReturn : instrs.getLast?.map Instr.form = some .ret)
    (before after : RunState String Value Action Heap) :
    (Instr.execAll world receiver instrs).run before ≠ .ok () after := by
  rcases Option.map_eq_some_iff.1 endsInReturn with ⟨last, isLast, isReturn⟩
  rcases List.getLast?_eq_some_iff.1 isLast with ⟨init, rfl⟩
  cases last with
  | ret ty value? =>
    intro finished
    rw [execAll_append, EStateM.run_bind] at finished
    cases executed : (execAll world receiver init).run before with
    | ok value middle =>
      rw [executed] at finished
      cases finished
    | error ending middle =>
      rw [executed] at finished
      cases finished
  | assign | single | binary | call | putField | getField => cases isReturn

/-- A call that denotes an action performs it. -/
theorem Call.run_of_action {world : InstrWorld Value Action Heap} {receiver : Value} {call : Call}
    {action : Action} {state : RunState String Value Action Heap}
    (denotes : call.action? world receiver state.locals = some action) :
    (call.run world receiver).run state =
      (RunM.perform world.toWorld action >>= fun value =>
        pure (if call.result = .void then none else some value)).run state := by
  rw [run, EStateM.run_bind, RunM.locals_run]
  show EStateM.run (RunM.need (call.action? world receiver state.locals) >>= _) state = _
  rw [denotes, RunM.need_some, pure_bind]

theorem Instr.yield_call_of_action {world : InstrWorld Value Action Heap} {receiver : Value}
    {invocation : Call} {action : Action} {state : RunState String Value Action Heap}
    (denotes : invocation.action? world receiver state.locals = some action)
    (notVoid : invocation.result ≠ .void) :
    ((Instr.call invocation).yield world receiver).run state =
      (RunM.perform world.toWorld action).run state := by
  rw [yield, EStateM.run_bind, Call.run_of_action denotes, ← EStateM.run_bind]
  simp only [if_neg notVoid, bind_assoc, pure_bind, RunM.need_some, bind_pure]

theorem Instr.yield_getField_of_action {world : InstrWorld Value Action Heap} {receiver : Value}
    {place : FieldPlace} {action : Action} {state : RunState String Value Action Heap}
    (denotes : world.getField? place (place.object.value world receiver state.locals) = some action) :
    ((Instr.getField place).yield world receiver).run state =
      (RunM.perform world.toWorld action).run state := by
  rw [yield, EStateM.run_bind, RunM.locals_run]
  show EStateM.run (RunM.need (world.getField? place (place.object.value world receiver state.locals)) >>= _)
    state = _
  rw [denotes, RunM.need_some, pure_bind]

theorem Instr.exec_putField_of_action {world : InstrWorld Value Action Heap} {receiver : Value}
    {place : FieldPlace} {value : Operand} {action : Action} {state : RunState String Value Action Heap}
    (denotes : world.putField? place (place.object.value world receiver state.locals)
      (value.value world receiver state.locals) = some action) :
    ((Instr.putField place value).exec world receiver).run state =
      (RunM.perform world.toWorld action >>= fun _ => pure ()).run state := by
  rw [exec, EStateM.run_bind, RunM.locals_run]
  show EStateM.run (RunM.need (world.putField? place (place.object.value world receiver state.locals)
    (value.value world receiver state.locals)) >>= _) state = _
  rw [denotes, RunM.need_some, pure_bind]

/-- A call that stands alone performs its action and drops the value. -/
theorem Instr.exec_call_of_action {world : InstrWorld Value Action Heap} {receiver : Value}
    {invocation : Call} {action : Action} {state : RunState String Value Action Heap}
    (denotes : invocation.action? world receiver state.locals = some action) :
    ((Instr.call invocation).exec world receiver).run state =
      (RunM.perform world.toWorld action >>= fun _ => pure ()).run state := by
  rw [exec, EStateM.run_bind, Call.run_of_action denotes, ← EStateM.run_bind, bind_assoc]
  simp only [pure_bind]

/-! ### Instructions change no locals but those they assign -/

section Frame

variable (world : InstrWorld Value Action Heap) (receiver : Value)

theorem Call.keepsLocals_run (call : Call) : (call.run world receiver).KeepsLocals :=
  .bind .locals fun _ => .bind (.need _) fun _ => .bind (.perform _ _) fun _ => .pure _

namespace Instr

theorem keepsLocals_yield (instr : Instr) : (instr.yield world receiver).KeepsLocals := by
  cases instr with
  | single operand => exact .bind .locals fun _ => .pure _
  | binary operator left right ty => exact .bind .locals fun _ => .perform _ _
  | call invocation => exact .bind (invocation.keepsLocals_run world receiver) fun _ => .need _
  | getField place => exact .bind .locals fun _ => .bind (.need _) fun _ => .perform _ _
  | assign | ret | putField => exact .throw _

theorem exec_locals {instr : Instr} {before after : RunState String Value Action Heap} {name : String}
    (finished : (instr.exec world receiver).run before = .ok () after)
    (other : instr.assigned? ≠ some name) : after.locals name = before.locals name := by
  cases instr with
  | assign target source =>
    cases target with
    | «variable» assigned ty =>
      rw [exec, EStateM.run_bind] at finished
      cases yielded : (source.yield world receiver).run before with
      | ok value middle =>
        rw [yielded] at finished
        cases finished
        have different : name ≠ assigned := fun same => other (by rw [same]; rfl)
        show setLocal middle.locals assigned value name = before.locals name
        rw [setLocal_other middle.locals value different,
          keepsLocals_yield world receiver source yielded]
      | error ending middle =>
        rw [yielded] at finished
        cases finished
    | literal | receiver => cases finished
  | single operand => exact congrFun ((RunM.KeepsLocals.bind .locals fun _ => .push _) finished) name
  | ret ty value? => exact congrFun ((RunM.KeepsLocals.bind .locals fun _ => .throw _) finished) name
  | call invocation =>
    have keeps := RunM.KeepsLocals.bind (invocation.keepsLocals_run world receiver)
      fun _ => .pure PUnit.unit
    exact congrFun (keeps finished) name
  | putField place value =>
    have keeps := RunM.KeepsLocals.bind RunM.KeepsLocals.locals fun locals =>
      .bind (.need (world.putField? place (place.object.value world receiver locals)
        (value.value world receiver locals))) fun action =>
        .bind (.perform world.toWorld action) fun _ => .pure PUnit.unit
    exact congrFun (keeps finished) name
  | binary | getField => cases finished

/-- Instructions leave alone every name that none of them assigns. -/
theorem execAll_locals {instrs : List Instr} {before after : RunState String Value Action Heap}
    {name : String} (finished : (execAll world receiver instrs).run before = .ok () after)
    (other : name ∉ assignedNames instrs) : after.locals name = before.locals name := by
  induction instrs generalizing before with
  | nil =>
    cases finished
    rfl
  | cons instr rest inductionHypothesis =>
    rw [execAll_cons, EStateM.run_bind] at finished
    cases executed : (instr.exec world receiver).run before with
    | ok value middle =>
      rw [executed] at finished
      have notHere : instr.assigned? ≠ some name := fun assigned =>
        other (List.mem_filterMap.2 ⟨instr, List.mem_cons_self, assigned⟩)
      have notLater : name ∉ assignedNames rest := by
        intro assigned
        rcases List.mem_filterMap.1 assigned with ⟨later, member, same⟩
        exact other (List.mem_filterMap.2 ⟨later, List.mem_cons_of_mem instr member, same⟩)
      exact (inductionHypothesis finished notLater).trans
        (exec_locals world receiver executed notHere)
    | error ending middle =>
      rw [executed] at finished
      cases finished

end Instr

end Frame

/-- The action of a call in a world of source programs: a static call addresses the
class that its target stands for. -/
def SourceAction.ofCall (call : Call) (target? : Option Value) (args : List Value) :
    Option (SourceAction Value) := do
  let method ← call.method?
  return .call (target?.elim (.imported call.target.ty) .object) method args

/-- The instructions of a source program mean its actions. Source programs access
no fields. -/
def SourceWorld.instrWorld (world : SourceWorld Value Heap) :
    InstrWorld Value (SourceAction Value) Heap where
  toWorld := world.toWorld
  literal := world.literal
  operate := .operate
  call? := SourceAction.ofCall
  getField? := fun _ _ => none
  putField? := fun _ _ _ => none

end Stackwright
