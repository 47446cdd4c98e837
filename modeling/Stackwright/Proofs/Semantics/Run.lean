/-!
Contract: runs with effects, the common ground of the meanings of trees,
instructions and machine code.

Owns:
- the state of a run: locals under keys of any kind, operand stack, heap, and
  the actions performed so far;
- the ways in which a run ends before its code does;
- the world, one arbitrary interpretation of actions;
- the step-by-step comparison of two runs.

Does not own: what any language does. An action may change the heap and may
abort; it has no access to locals or to the operand stack.
-/

namespace Stackwright

/-- How a run ends before its code does. It is stuck where the code has no
meaning, which is no way for a program to end. -/
inductive Ending (Value : Type) where
  | aborted
  | returned (value? : Option Value)
  | stuck
deriving DecidableEq, Repr

/-- The state of a run. The trace is in the order in which actions happened. -/
structure RunState (Key Value Action Heap : Type) where
  locals : Key → Value
  stack : List Value
  heap : Heap
  trace : List Action

/-- What every action does to the heap, and the value it gives unless it aborts. -/
structure World (Value Action Heap : Type) where
  effect : Action → Heap → Heap × Option Value

/-- A run. What happened before it ended early is kept. -/
abbrev RunM (Key Value Action Heap : Type) :=
  EStateM (Ending Value) (RunState Key Value Action Heap)

/-- Changes the value under one key. -/
def setLocal {Key Value : Type} [DecidableEq Key] (locals : Key → Value) (key : Key)
    (value : Value) : Key → Value :=
  fun candidate => if candidate = key then value else locals candidate

section Locals

variable {Key Value : Type} [DecidableEq Key]

@[simp] theorem setLocal_same (locals : Key → Value) (key : Key) (value : Value) :
    setLocal locals key value key = value := by
  simp [setLocal]

theorem setLocal_other (locals : Key → Value) {key other : Key} (value : Value)
    (different : other ≠ key) : setLocal locals key value other = locals other := by
  simp [setLocal, different]

end Locals

namespace RunM

variable {Key Value Action Heap : Type}

/-- The state after an action: the heap it leaves, and one more action in the trace. -/
def performed (world : World Value Action Heap) (action : Action)
    (state : RunState Key Value Action Heap) : RunState Key Value Action Heap :=
  { state with
    heap := (world.effect action state.heap).1
    trace := state.trace ++ [action] }

/-- Performs an action in a world. -/
def perform (world : World Value Action Heap) (action : Action) :
    RunM Key Value Action Heap Value := do
  let state ← get
  set (performed world action state)
  match (world.effect action state.heap).2 with
  | some value => return value
  | none => throw .aborted

/-- A value that the code relies on. -/
def need {α : Type} (value? : Option α) : RunM Key Value Action Heap α :=
  match value? with
  | some value => pure value
  | none => throw .stuck

def locals : RunM Key Value Action Heap (Key → Value) :=
  return (← get).locals

def assign [DecidableEq Key] (key : Key) (value : Value) : RunM Key Value Action Heap Unit :=
  modify fun state => { state with locals := setLocal state.locals key value }

def push (value : Value) : RunM Key Value Action Heap Unit :=
  modify fun state => { state with stack := value :: state.stack }

def pop : RunM Key Value Action Heap Value := do
  let state ← get
  match state.stack with
  | [] => throw .stuck
  | top :: rest =>
    set { state with stack := rest }
    return top

/-- Takes several values off the stack; the top one is the last of the result. -/
def popMany : (count : Nat) → RunM Key Value Action Heap (List Value)
  | 0 => return []
  | count + 1 => do
    let last ← pop
    return (← popMany count) ++ [last]

theorem perform_run (world : World Value Action Heap) (action : Action)
    (state : RunState Key Value Action Heap) :
    (perform world action).run state =
      match (world.effect action state.heap).2 with
      | some value => .ok value (performed world action state)
      | none => .error .aborted (performed world action state) := by
  simp only [perform, EStateM.run_bind, EStateM.run_get, EStateM.run_set]
  cases (world.effect action state.heap).2 <;> rfl

@[simp] theorem need_some {α : Type} (value : α) :
    (need (some value) : RunM Key Value Action Heap α) = pure value := rfl

@[simp] theorem locals_run (state : RunState Key Value Action Heap) :
    locals.run state = .ok state.locals state := rfl

/-- A run that goes on keeps the locals as they are. -/
def KeepsLocals {α : Type} (run : RunM Key Value Action Heap α) : Prop :=
  ∀ ⦃before after : RunState Key Value Action Heap⦄ ⦃result : α⦄,
    run.run before = .ok result after → after.locals = before.locals

namespace KeepsLocals

variable {α β : Type}

theorem pure (value : α) : KeepsLocals (Pure.pure value : RunM Key Value Action Heap α) := by
  intro before after result finished
  cases finished
  rfl

theorem bind {first : RunM Key Value Action Heap α} {next : α → RunM Key Value Action Heap β}
    (keepsFirst : KeepsLocals first) (keepsNext : ∀ value, KeepsLocals (next value)) :
    KeepsLocals (first >>= next) := by
  intro before after result finished
  rw [EStateM.run_bind] at finished
  cases firstResult : first.run before with
  | ok value middle =>
    rw [firstResult] at finished
    exact (keepsNext value finished).trans (keepsFirst firstResult)
  | error ending middle =>
    rw [firstResult] at finished
    cases finished

theorem need (value? : Option α) : KeepsLocals (RunM.need value? : RunM Key Value Action Heap α) := by
  intro before after result finished
  cases value? <;> cases finished
  rfl

theorem locals : KeepsLocals (RunM.locals : RunM Key Value Action Heap (Key → Value)) := by
  intro before after result finished
  cases finished
  rfl

theorem push (value : Value) : KeepsLocals (RunM.push value : RunM Key Value Action Heap Unit) := by
  intro before after result finished
  cases finished
  rfl

theorem throw (ending : Ending Value) :
    KeepsLocals (MonadExcept.throw ending : RunM Key Value Action Heap α) := by
  intro before after result finished
  cases finished

theorem perform (world : World Value Action Heap) (action : Action) :
    KeepsLocals (RunM.perform world action : RunM Key Value Action Heap Value) := by
  intro before after result finished
  rw [perform_run] at finished
  split at finished
  · cases finished
    rfl
  · cases finished

end KeepsLocals

end RunM

/-- Two results compare: both runs go on, with related values and states, or both
ended in the same way, which is not by being stuck, in related states. -/
inductive Alike {Value α β σ τ : Type} (going : α → σ → β → τ → Prop) (ended : σ → τ → Prop) :
    EStateM.Result (Ending Value) σ α → EStateM.Result (Ending Value) τ β → Prop where
  | ok {left : α} {leftState : σ} {right : β} {rightState : τ}
      (related : going left leftState right rightState) :
      Alike going ended (.ok left leftState) (.ok right rightState)
  | error {ending : Ending Value} {leftState : σ} {rightState : τ}
      (notStuck : ending ≠ .stuck) (related : ended leftState rightState) :
      Alike going ended (.error ending leftState) (.error ending rightState)

namespace Alike

variable {Value α β γ δ σ τ : Type}
variable {going : α → σ → β → τ → Prop} {goingOn : γ → σ → δ → τ → Prop} {ended : σ → τ → Prop}

/-- Two runs compare if their first parts do and, from all results that these can
have, their second parts. -/
theorem bind {left : EStateM (Ending Value) σ α} {right : EStateM (Ending Value) τ β}
    {leftNext : α → EStateM (Ending Value) σ γ} {rightNext : β → EStateM (Ending Value) τ δ}
    {leftState : σ} {rightState : τ}
    (first : Alike going ended (left.run leftState) (right.run rightState))
    (next : ∀ a s b t, going a s b t →
      Alike goingOn ended ((leftNext a).run s) ((rightNext b).run t)) :
    Alike goingOn ended ((left >>= leftNext).run leftState) ((right >>= rightNext).run rightState) := by
  rw [EStateM.run_bind, EStateM.run_bind]
  generalize left.run leftState = leftResult at first
  generalize right.run rightState = rightResult at first
  cases first with
  | ok related => exact next _ _ _ _ related
  | error notStuck related => exact .error notStuck related

/-- The left run may go on by a step that only makes another value out of its result. -/
theorem mapLeft {left : EStateM (Ending Value) σ α} {right : EStateM.Result (Ending Value) τ β}
    {leftNext : α → EStateM (Ending Value) σ γ} {leftState : σ}
    {goingOn : γ → σ → β → τ → Prop} (first : Alike going ended (left.run leftState) right)
    (next : ∀ a s b t, going a s b t → ∃ c, (leftNext a).run s = .ok c s ∧ goingOn c s b t) :
    Alike goingOn ended ((left >>= leftNext).run leftState) right := by
  rw [EStateM.run_bind]
  generalize left.run leftState = leftResult at first
  cases first with
  | ok related =>
    rcases next _ _ _ _ related with ⟨value, finished, relatedOn⟩
    show Alike goingOn ended (EStateM.run _ _) _
    rw [finished]
    exact .ok relatedOn
  | error notStuck related => exact .error notStuck related

/-- An action has the same effect on equal heaps. -/
theorem perform {Key Key' Action Heap : Type} {world : World Value Action Heap} {action : Action}
    {leftState : RunState Key Value Action Heap} {rightState : RunState Key' Value Action Heap}
    {going : Value → RunState Key Value Action Heap → Value → RunState Key' Value Action Heap → Prop}
    {ended : RunState Key Value Action Heap → RunState Key' Value Action Heap → Prop}
    (sameHeap : leftState.heap = rightState.heap)
    (goes : ∀ value, going value (RunM.performed world action leftState) value
      (RunM.performed world action rightState))
    (ends : ended (RunM.performed world action leftState) (RunM.performed world action rightState)) :
    Alike going ended ((RunM.perform world action).run leftState)
      ((RunM.perform world action).run rightState) := by
  rw [RunM.perform_run, RunM.perform_run, sameHeap]
  cases (world.effect action rightState.heap).2 with
  | some value => exact .ok (goes value)
  | none => exact .error (by simp) ends

theorem ending_eq {leftEnding rightEnding : Ending Value} {leftState : σ} {rightState : τ}
    (alike : Alike going ended (.error leftEnding leftState) (.error rightEnding rightState)) :
    leftEnding = rightEnding := by
  cases alike
  rfl

/-- What is known of the result of the right run may be added to a comparison. -/
theorem withResult {left : EStateM.Result (Ending Value) σ α}
    {right : EStateM.Result (Ending Value) τ β} {known : β → τ → Prop}
    (alike : Alike going ended left right)
    (holds : ∀ value state, right = .ok value state → known value state) :
    Alike (fun a s b t => going a s b t ∧ known b t) ended left right := by
  cases alike with
  | ok related => exact .ok ⟨related, holds _ _ rfl⟩
  | error notStuck related => exact .error notStuck related

/-- A comparison says less if what it says of values and states is weakened. -/
theorem weaken {going' : α → σ → β → τ → Prop}
    {left : EStateM.Result (Ending Value) σ α} {right : EStateM.Result (Ending Value) τ β}
    (alike : Alike going ended left right)
    (weaker : ∀ a s b t, going a s b t → going' a s b t) : Alike going' ended left right := by
  cases alike with
  | ok related => exact .ok (weaker _ _ _ _ related)
  | error notStuck related => exact .error notStuck related

end Alike

end Stackwright
