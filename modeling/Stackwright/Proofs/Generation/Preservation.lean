import Stackwright.Proofs.Generation.Derivation
import Stackwright.Proofs.Semantics.Machine

/-!
Contract: code generation preserves the meaning of method bodies.

Owns: the simulation of instructions by their machine code. From a frame that mirrors
the variables of a body, both perform the same actions with the same effects and end in
the same way, with frames that mirror again and equal operand stacks.

The code of an instruction takes off the stack whatever it puts there for itself. So
each part of it is a run from a state with some values on top to the same state
without them, and only assignments touch the frame.
-/

namespace Stackwright

variable {Value Heap : Type}

/-- A machine state that mirrors a state of the instructions. -/
structure Corresponds (table : FrameTable) (instrs : List Instr) (receiver : Value)
    (source : RunState String Value (MachineAction Value) Heap)
    (target : RunState Slot Value (MachineAction Value) Heap) : Prop where
  mirrors : table.Mirrors instrs receiver source.locals target.locals
  stack : source.stack = target.stack
  heap : source.heap = target.heap
  trace : source.trace = target.trace

namespace Corresponds

variable {table : FrameTable} {instrs : List Instr} {receiver : Value}
  {source : RunState String Value (MachineAction Value) Heap}
  {target : RunState Slot Value (MachineAction Value) Heap}

theorem performed {world : World Value (MachineAction Value) Heap}
    (corresponds : Corresponds table instrs receiver source target) (action : MachineAction Value) :
    Corresponds table instrs receiver (RunM.performed world action source)
      (RunM.performed world action target) where
  mirrors := corresponds.mirrors
  stack := corresponds.stack
  heap := by
    show (world.effect action source.heap).1 = (world.effect action target.heap).1
    rw [corresponds.heap]
  trace := congrArg (· ++ [action]) corresponds.trace

theorem push (corresponds : Corresponds table instrs receiver source target) (value : Value) :
    Corresponds table instrs receiver { source with stack := value :: source.stack }
      { target with stack := value :: target.stack } where
  mirrors := corresponds.mirrors
  stack := congrArg (value :: ·) corresponds.stack
  heap := corresponds.heap
  trace := corresponds.trace

theorem assign (corresponds : Corresponds table instrs receiver source target)
    (suits : table.Suits instrs) {name : String} (assigned : name ∈ assignedNames instrs) {slot : Slot}
    (bound : table.slot? name = some slot) (value : Value) :
    Corresponds table instrs receiver
      { source with locals := setLocal source.locals name value }
      { target with locals := setLocal target.locals slot value } where
  mirrors := corresponds.mirrors.assign suits assigned bound value
  stack := corresponds.stack
  heap := corresponds.heap
  trace := corresponds.trace

end Corresponds

namespace Scope

variable {scope : Scope} {instrs : List Instr} {world : MachineWorld Value Heap} {receiver : Value}
  {locals : String → Value} {target : RunState Slot Value (MachineAction Value) Heap}

/-! ### Loads -/

theorem Loads.exec_run {operand : Operand} {load : MachineInstr} (loads : scope.Loads operand load)
    (evaluates : Evaluates instrs operand)
    (mirrors : scope.table.Mirrors instrs receiver locals target.locals) :
    (load.exec world).run target = .ok () { target with
      stack := operand.value (world.instrWorld scope.className) receiver locals :: target.stack } := by
  cases loads with
  | literal text notVoid => rfl
  | receiver isReceiver =>
    have inSlotZero := mirrors.receiver (evaluates.readsReceiver isReceiver)
    have value : operand.value (world.instrWorld scope.className) receiver locals = receiver := by
      cases operand with
      | literal => cases isReceiver
      | «variable» name ty => exact if_pos isReceiver
      | receiver => rfl
    rw [value, ← inSlotZero]
    rfl
  | «variable» notReceiver bound hasKind =>
    have inSlot := mirrors.inSlots _ (evaluates.mem_usedNames (if_neg notReceiver)) _ bound
    rw [Operand.value, readVariable, if_neg notReceiver, ← inSlot]
    rfl

theorem Loads.execAll_cons_run {operand : Operand} {load : MachineInstr} {rest : List MachineInstr}
    (loads : scope.Loads operand load) (evaluates : Evaluates instrs operand)
    (mirrors : scope.table.Mirrors instrs receiver locals target.locals) :
    (MachineInstr.execAll world (load :: rest)).run target =
      (MachineInstr.execAll world rest).run { target with
        stack := operand.value (world.instrWorld scope.className) receiver locals :: target.stack } := by
  rw [MachineInstr.execAll_cons, EStateM.run_bind, loads.exec_run evaluates mirrors]

/-- Loads put the values of their operands on the stack, the last one on top. -/
theorem LoadsAll.execAll_run {operands : List Operand} {loads rest : List MachineInstr}
    (loadsAll : scope.LoadsAll operands loads) (evaluates : ∀ operand ∈ operands, Evaluates instrs operand)
    (target : RunState Slot Value (MachineAction Value) Heap)
    (mirrors : scope.table.Mirrors instrs receiver locals target.locals) :
    (MachineInstr.execAll world (loads ++ rest)).run target =
      (MachineInstr.execAll world rest).run { target with
        stack := (operands.map (Operand.value (world.instrWorld scope.className) receiver locals)).reverse ++
          target.stack } := by
  induction loadsAll generalizing target with
  | nil => rfl
  | cons loadsFirst loadsRest inductionHypothesis =>
    rw [List.cons_append, loadsFirst.execAll_cons_run (evaluates _ List.mem_cons_self) mirrors,
      List.map_cons, List.reverse_cons, List.append_assoc]
    exact inductionHypothesis (fun operand member => evaluates operand (List.mem_cons_of_mem _ member))
      _ mirrors

theorem Loads.execAll_pair_run {first second : Operand} {firstLoad secondLoad : MachineInstr}
    {rest : List MachineInstr} (loadsFirst : scope.Loads first firstLoad)
    (loadsSecond : scope.Loads second secondLoad)
    (evaluates : ∀ operand ∈ [first, second], Evaluates instrs operand)
    (mirrors : scope.table.Mirrors instrs receiver locals target.locals) :
    (MachineInstr.execAll world (firstLoad :: secondLoad :: rest)).run target =
      (MachineInstr.execAll world rest).run { target with
        stack := second.value (world.instrWorld scope.className) receiver locals ::
          first.value (world.instrWorld scope.className) receiver locals :: target.stack } :=
  LoadsAll.execAll_run (.cons loadsFirst (.cons loadsSecond .nil)) evaluates target mirrors

/-! ### Calls -/

theorem toOption_of_liftEncoding {α : Type} {encoded : Except EncodingFault α} {result : α}
    (lifted : Fault.liftEncoding encoded = .ok result) : encoded.toOption = some result := by
  rw [mapError_eq_ok_iff.1 lifted]
  rfl

theorem methodRef_of_described {call : Call} {owner name descriptor : String}
    (owned : scope.owner call.target = .ok owner) (named : call.method? = some name)
    (described : scope.callDescriptor call = .ok descriptor) :
    call.methodRef? scope.className = some (call.invocation owner name descriptor).method := by
  rw [Call.methodRef?, toOption_of_liftEncoding owned, named, toOption_of_liftEncoding described]
  rfl

theorem action_of_methodRef {call : Call} {method : MethodRef} {object? : Option Value}
    (addresses : call.methodRef? scope.className = some method)
    (object : call.object? (world.instrWorld scope.className) receiver locals = some object?) :
    call.action? (world.instrWorld scope.className) receiver locals =
      some (.invoke method object?
        (call.args.map (Operand.value (world.instrWorld scope.className) receiver locals))) := by
  rw [Call.action?, object]
  simp only [Option.bind_eq_bind, Option.bind_some, MachineWorld.instrWorld, addresses, Option.map_some]

/-- The machine makes the call once its object and its arguments are on the stack. -/
theorem invoke_run {call : Call} {owner name descriptor : String}
    (target : RunState Slot Value (MachineAction Value) Heap) (object? : Option Value) {args : List Value}
    (sameCount : call.args.length = args.length)
    (sameReceiver : call.kind.hasReceiver = object?.isSome) :
    (MachineInstr.execAll world [.invoke (call.invocation owner name descriptor)]).run
        { target with stack := args.reverse ++ (object?.toList ++ target.stack) } =
      (RunM.perform world.toWorld
          (.invoke (call.invocation owner name descriptor).method object? args) >>= fun value =>
        if call.result = .void then pure () else RunM.push value).run target := by
  rw [MachineInstr.execAll_cons, MachineInstr.execAll_nil, bind_pure_unit]
  refine (MachineInstr.execInvoke_run sameCount sameReceiver).trans ?_
  simp only [Call.invocation]
  by_cases void : call.result = .void
  · simp [void]
  · simp [void]

/-- The code of a call performs its action and leaves the value that it returns. -/
theorem Calls.execAll_run {call : Call} {code : List MachineInstr} (calls : scope.Calls call code)
    (makesNoObject : (Instr.call call).MakesNoObject)
    (evaluates : ∀ operand ∈ (Instr.call call).operands, Evaluates instrs operand)
    (mirrors : scope.table.Mirrors instrs receiver locals target.locals) :
    ∃ action, call.action? (world.instrWorld scope.className) receiver locals = some action ∧
      (MachineInstr.execAll world code).run target =
        (RunM.perform world.toWorld action >>= fun value =>
          if call.result = .void then pure () else RunM.push value).run target := by
  have evaluatesArgs : ∀ operand ∈ call.args, Evaluates instrs operand :=
    fun operand member => evaluates operand (Instr.mem_operands_of_mem_args member)
  cases calls with
  | allocate kind => exact absurd kind makesNoObject.1
  | special kind => exact absurd kind makesNoObject.2
  | virtual kind owned named described loadsTarget loadsArgs =>
    have evaluatesTarget : Evaluates instrs call.target := evaluates _ (by simp [Instr.operands, kind])
    have object : call.object? (world.instrWorld scope.className) receiver locals =
        some (some (call.target.value (world.instrWorld scope.className) receiver locals)) := by
      rw [Call.object?, kind]
    refine ⟨_, action_of_methodRef (methodRef_of_described owned named described) object, ?_⟩
    rw [loadsTarget.execAll_cons_run evaluatesTarget mirrors]
    refine (loadsArgs.execAll_run evaluatesArgs { target with
      stack := call.target.value _ receiver locals :: target.stack } mirrors).trans ?_
    apply invoke_run target (some _)
    · rw [List.length_map]
    · rw [kind]
      rfl
  | static kind owned named described loadsArgs =>
    have object : call.object? (world.instrWorld scope.className) receiver locals = some none := by
      rw [Call.object?, kind]
    refine ⟨_, action_of_methodRef (methodRef_of_described owned named described) object, ?_⟩
    rw [loadsArgs.execAll_run evaluatesArgs target mirrors]
    apply invoke_run target none
    · rw [List.length_map]
    · rw [kind]
      rfl

/-- A call on its own leaves nothing: a value that it returns is popped. -/
theorem Calls.execAll_drop_run {call : Call} {code : List MachineInstr} (calls : scope.Calls call code)
    (makesNoObject : (Instr.call call).MakesNoObject)
    (evaluates : ∀ operand ∈ (Instr.call call).operands, Evaluates instrs operand)
    (mirrors : scope.table.Mirrors instrs receiver locals target.locals) :
    ∃ action, call.action? (world.instrWorld scope.className) receiver locals = some action ∧
      (MachineInstr.execAll world (code ++ if call.result = .void then [] else [.pop])).run target =
        (RunM.perform world.toWorld action >>= fun _ => pure ()).run target := by
  rcases calls.execAll_run makesNoObject evaluates mirrors with ⟨action, denotes, ran⟩
  refine ⟨action, denotes, ?_⟩
  rw [MachineInstr.execAll_append, EStateM.run_bind, ran, ← EStateM.run_bind, bind_assoc]
  by_cases void : call.result = .void
  · simp only [if_pos void]
    rfl
  · simp only [if_neg void]
    rfl

/-! ### Values -/

theorem exec_of_machineInstr {operator : Operator} {instr : MachineInstr}
    (computes : operator.machineInstr? = some instr) :
    instr.exec world = MachineInstr.execOperator world operator := by
  cases operator with
  | less => cases computes
  | add | sub | mul | div | and =>
    cases computes
    rfl

theorem fieldRef_of_denotes {place : FieldPlace} {owner : String} {field : FieldRef}
    (owned : scope.owner place.object = .ok owner) (denotes : fieldRef place owner = .ok field) :
    place.fieldRef? scope.className = some field := by
  rw [fieldRef, bind_eq_ok_iff] at denotes
  rcases denotes with ⟨descriptor, described, denotes⟩
  cases denotes
  rw [FieldPlace.fieldRef?, toOption_of_liftEncoding owned, toOption_of_liftEncoding described]
  rfl

/-- The value of an instruction lies on top of a state that corresponds. -/
def LeavesOnTop (table : FrameTable) (instrs : List Instr) (receiver value : Value)
    (source : RunState String Value (MachineAction Value) Heap) (_ : Unit)
    (target : RunState Slot Value (MachineAction Value) Heap) : Prop :=
  ∃ below, Corresponds table instrs receiver source below ∧
    target = { below with stack := value :: below.stack }

variable {source : RunState String Value (MachineAction Value) Heap}

theorem alike_perform_push (corresponds : Corresponds scope.table instrs receiver source target)
    (action : MachineAction Value) :
    Alike (LeavesOnTop scope.table instrs receiver) (Corresponds scope.table instrs receiver)
      ((RunM.perform world.toWorld action).run source)
      ((RunM.perform world.toWorld action >>= RunM.push).run target) := by
  have performed : Alike (fun left s right t => left = right ∧
      Corresponds scope.table instrs receiver s t) (Corresponds scope.table instrs receiver)
      ((RunM.perform world.toWorld action).run source)
      ((RunM.perform world.toWorld action).run target) :=
    Alike.perform corresponds.heap (fun _ => ⟨rfl, corresponds.performed action⟩)
      (corresponds.performed action)
  rw [← bind_pure (RunM.perform world.toWorld action)]
  apply performed.bind
  intro value s _ t related
  obtain ⟨rfl, correspondsAfter⟩ := related
  exact .ok ⟨t, correspondsAfter, rfl⟩

/-- The code of an assigned value leaves it on top of the stack. -/
theorem Yields.alike {instr : Instr} {code : List MachineInstr} (yields : scope.Yields instr code)
    (makesNoObject : instr.MakesNoObject)
    (evaluates : ∀ operand ∈ instr.operands, Evaluates instrs operand)
    (corresponds : Corresponds scope.table instrs receiver source target) :
    Alike (LeavesOnTop scope.table instrs receiver) (Corresponds scope.table instrs receiver)
      ((instr.yield (world.instrWorld scope.className) receiver).run source)
      ((MachineInstr.execAll world code).run target) := by
  cases yields with
  | single loads =>
    rw [loads.execAll_cons_run (evaluates _ List.mem_cons_self) corresponds.mirrors]
    exact .ok ⟨target, corresponds, rfl⟩
  | binary computes loadsLeft loadsRight =>
    rw [loadsLeft.execAll_pair_run loadsRight evaluates corresponds.mirrors, MachineInstr.execAll_cons,
      MachineInstr.execAll_nil, bind_pure_unit,
      MachineInstr.execOperator_run (exec_of_machineInstr computes)]
    exact alike_perform_push corresponds _
  | call leaves calls =>
    rcases calls.execAll_run makesNoObject evaluates corresponds.mirrors with ⟨action, denotes, ran⟩
    have notVoid := Call.result_ne_void_of_resultType makesNoObject.1 leaves
    simp only [if_neg notVoid] at ran
    rw [ran, Instr.yield_call_of_action denotes notVoid]
    exact alike_perform_push corresponds action
  | @getField place owner field load loadsObject owned denotes =>
    have reads : (world.instrWorld scope.className).getField? place
        (place.object.value (world.instrWorld scope.className) receiver source.locals) =
          some (.getField field _) :=
      congrArg (Option.map _) (fieldRef_of_denotes owned denotes)
    rw [loadsObject.execAll_cons_run (evaluates _ List.mem_cons_self) corresponds.mirrors,
      MachineInstr.execAll_cons, MachineInstr.execAll_nil, bind_pure_unit,
      MachineInstr.exec_getField_run, Instr.yield_getField_of_action reads]
    exact alike_perform_push corresponds _

/-! ### Statements -/

theorem alike_perform_drop (corresponds : Corresponds scope.table instrs receiver source target)
    (action : MachineAction Value) :
    Alike (fun _ s _ t => Corresponds scope.table instrs receiver s t)
      (Corresponds scope.table instrs receiver)
      ((RunM.perform world.toWorld action >>= fun _ => pure ()).run source)
      ((RunM.perform world.toWorld action >>= fun _ => pure ()).run target) := by
  have performed : Alike (fun _ s _ t => Corresponds scope.table instrs receiver s t)
      (Corresponds scope.table instrs receiver) ((RunM.perform world.toWorld action).run source)
      ((RunM.perform world.toWorld action).run target) :=
    Alike.perform corresponds.heap (fun _ => corresponds.performed action)
      (corresponds.performed action)
  exact performed.bind fun _ _ _ _ correspondsAfter => .ok correspondsAfter

/-- The code of a statement does what the statement does. -/
theorem Emits.alike {instr : Instr} {code : List MachineInstr} (emits : scope.Emits instr code)
    (member : instr ∈ instrs) (suits : scope.table.Suits instrs) (makesNoObject : instr.MakesNoObject)
    (corresponds : Corresponds scope.table instrs receiver source target) :
    Alike (fun _ s _ t => Corresponds scope.table instrs receiver s t)
      (Corresponds scope.table instrs receiver)
      ((instr.exec (world.instrWorld scope.className) receiver).run source)
      ((MachineInstr.execAll world code).run target) := by
  have evaluates : ∀ operand ∈ instr.operands, Evaluates instrs operand :=
    fun operand isOperand => ⟨instr, member, isOperand⟩
  cases emits with
  | @assign name ty source code slot kind yields bound notReceiver hasKind =>
    have assigned : name ∈ assignedNames instrs := List.mem_filterMap.2 ⟨_, member, rfl⟩
    rw [Instr.exec, MachineInstr.execAll_append]
    apply (yields.alike makesNoObject evaluates corresponds).bind
    intro value s _ t related
    obtain ⟨below, correspondsBelow, rfl⟩ := related
    exact .ok (correspondsBelow.assign suits assigned bound value)
  | single loads =>
    rw [loads.execAll_cons_run (evaluates _ List.mem_cons_self) corresponds.mirrors]
    exact .ok (corresponds.push _)
  | retVoid value? => exact .error (by simp) corresponds
  | @ret ty kind value load hasKind loads =>
    have notVoid : ty ≠ .void := fun void => by simp [void, Ty.kind?] at hasKind
    have evaluatesValue : Evaluates instrs value := evaluates _ (by simp [Instr.operands, notVoid])
    rw [loads.execAll_cons_run evaluatesValue corresponds.mirrors, Instr.exec]
    simp only [if_neg notVoid]
    exact .error (by simp) corresponds
  | @call invocation code notAllocate calls =>
    rcases calls.execAll_drop_run makesNoObject evaluates corresponds.mirrors with ⟨action, denotes, ran⟩
    rw [Instr.exec_call_of_action denotes, ran]
    exact alike_perform_drop corresponds action
  | @putField place value owner field objectLoad valueLoad owned denotes loadsObject loadsValue =>
    have writes : ∀ object written, (world.instrWorld scope.className).putField? place object written =
        some (.putField field object written) :=
      fun _ _ => congrArg (Option.map _) (fieldRef_of_denotes owned denotes)
    rw [loadsObject.execAll_pair_run loadsValue evaluates corresponds.mirrors,
      MachineInstr.execAll_cons, MachineInstr.execAll_nil, bind_pure_unit,
      MachineInstr.exec_putField_run, Instr.exec_putField_of_action (writes _ _)]
    exact alike_perform_drop corresponds _

/-- The code of a body does what the body does. -/
theorem EmitsAll.alike {part : List Instr} {code : List MachineInstr}
    (emitsAll : scope.EmitsAll part code) (members : part ⊆ instrs) (suits : scope.table.Suits instrs)
    (makesNoObject : ∀ instr ∈ part, instr.MakesNoObject)
    (corresponds : Corresponds scope.table instrs receiver source target) :
    Alike (fun _ s _ t => Corresponds scope.table instrs receiver s t)
      (Corresponds scope.table instrs receiver)
      ((Instr.execAll (world.instrWorld scope.className) receiver part).run source)
      ((MachineInstr.execAll world code).run target) := by
  induction emitsAll generalizing source target with
  | nil => exact .ok corresponds
  | cons emits emitsRest inductionHypothesis =>
    rw [Instr.execAll_cons, MachineInstr.execAll_append]
    apply (emits.alike (members List.mem_cons_self) suits (makesNoObject _ List.mem_cons_self)
      corresponds).bind
    intro _ s _ t correspondsAfter
    exact inductionHypothesis (fun _ member => members (List.mem_cons_of_mem _ member))
      (fun instr member => makesNoObject instr (List.mem_cons_of_mem _ member)) correspondsAfter

end Scope

/-- Runs the body of a method. A method that returns nothing returns at the end. -/
def Method.run {Action : Type} (method : Method) (world : InstrWorld Value Action Heap)
    (receiver : Value) : RunM String Value Action Heap Unit := do
  Instr.execAll world receiver method.instrs
  if method.result = .void then throw (.returned none)

/-- Code generation preserves the meaning of methods that make no objects. From a frame
that mirrors its variables the code of a method performs the actions of its body in their
order and ends as it does, with the same heap and operand stack, and the frame mirrors
the variables again. -/
theorem Method.code_preserves_meaning {method : Method} {className : String}
    {code : List MachineInstr} (accepted : method.code className = .ok code)
    (makesNoObject : ∀ instr ∈ method.instrs, instr.MakesNoObject)
    (suits : method.table.Suits method.instrs) (world : MachineWorld Value Heap) {receiver : Value}
    {source : RunState String Value (MachineAction Value) Heap}
    {target : RunState Slot Value (MachineAction Value) Heap}
    (corresponds : Corresponds method.table method.instrs receiver source target) :
    Alike (fun _ s _ t => Corresponds method.table method.instrs receiver s t)
      (Corresponds method.table method.instrs receiver)
      ((method.run (world.instrWorld className) receiver).run source)
      ((MachineInstr.execAll world code).run target) := by
  rcases Method.emitsAll_of_code accepted with ⟨bodyCode, emitsAll, rfl⟩
  have body : Alike (fun _ s _ t => Corresponds method.table method.instrs receiver s t)
      (Corresponds method.table method.instrs receiver)
      ((Instr.execAll (world.instrWorld className) receiver method.instrs).run source)
      ((MachineInstr.execAll world bodyCode).run target) :=
    emitsAll.alike (List.Subset.refl _) suits makesNoObject corresponds
  rw [MachineInstr.execAll_append, Method.run, Method.impliedReturn]
  by_cases void : method.result = .void
  · by_cases endsInReturn : method.EndsInReturn
    · -- The end is not reached, so the return that the body lacks there makes no difference.
      have nothingImplied : ¬(method.result = .void ∧ ¬method.EndsInReturn) :=
        fun both => both.2 endsInReturn
      rw [if_neg nothingImplied, MachineInstr.execAll_nil, bind_pure_unit, EStateM.run_bind]
      cases finished : (Instr.execAll (world.instrWorld className) receiver method.instrs).run source with
      | ok value after => exact absurd finished (Instr.execAll_run_ne_ok endsInReturn source after)
      | error ending after =>
        rw [finished] at body
        exact body
    · have implied : method.result = .void ∧ ¬method.EndsInReturn := ⟨void, endsInReturn⟩
      rw [if_pos implied]
      simp only [if_pos void]
      apply body.bind
      intro _ s _ t correspondsAfter
      exact .error (by simp) correspondsAfter
  · have nothingImplied : ¬(method.result = .void ∧ ¬method.EndsInReturn) := fun both => void both.1
    rw [if_neg nothingImplied]
    simp only [if_neg void]
    apply body.bind
    intro _ s _ t correspondsAfter
    exact .ok correspondsAfter

/-- A world whose values are texts, where a constant means itself and every action gives
the same answer. -/
def MachineWorld.answering (answer : String) : MachineWorld String Unit where
  effect := fun _ heap => (heap, some answer)
  literal := id

/-- A method that adds one to its parameter, stores the sum in a field, logs it and
returns it. -/
def bumpMethod : Method where
  name := "bump"
  params := [⟨"step", .int⟩]
  result := .int
  instrs := [
    .assign (.variable "total" .int) (.binary .add (.variable "step" .int) (.int 1) .int),
    .putField ⟨.receiver, "count", .int⟩ (.variable "total" .int),
    .call
      { kind := .virtual, target := .receiver, method? := some "log",
        args := [.variable "total" .int], result := .boolean },
    .ret .int (some (.variable "total" .int))]
  table := FrameTable.layout false [⟨"step", .int⟩] [⟨"total", .int⟩]

/-- The code of that method. The result of the logging is popped. -/
def bumpCode : List MachineInstr :=
  [.load .int 1, .ldc "1", .iadd, .store .int 2,
    .load .reference 0, .load .int 2, .putField ⟨"Counter", "count", "I"⟩,
    .load .reference 0, .load .int 2,
    .invoke
      { kind := .virtual, owner := "Counter", name := "log", descriptor := "(I)Z",
        argCount := 1, hasReceiver := true, returnsValue := true }, .pop,
    .load .int 2, .ret .int]

theorem Method.code_preserves_meaning_of_bump :
    bumpMethod.code "Counter" = .ok bumpCode ∧
    (∀ instr ∈ bumpMethod.instrs, instr.MakesNoObject) ∧
    bumpMethod.table.Suits bumpMethod.instrs ∧
    Alike (fun _ s _ t => Corresponds bumpMethod.table bumpMethod.instrs "counter" s t)
      (Corresponds bumpMethod.table bumpMethod.instrs "counter")
      ((bumpMethod.run ((MachineWorld.answering "6").instrWorld "Counter") "counter").run
        { locals := fun name => if name = "step" then "5" else "", stack := [], heap := (), trace := [] })
      ((MachineInstr.execAll (.answering "6") bumpCode).run
        { locals := (["counter", "5"].getD · ""), stack := [], heap := (), trace := [] }) := by
  have accepted : bumpMethod.code "Counter" = .ok bumpCode := rfl
  have makesNoObject : ∀ instr ∈ bumpMethod.instrs, instr.MakesNoObject := by decide
  have suits : bumpMethod.table.Suits bumpMethod.instrs := by decide
  refine ⟨accepted, makesNoObject, suits, ?_⟩
  apply Method.code_preserves_meaning accepted makesNoObject suits
  refine ⟨⟨?_, fun _ => rfl⟩, rfl, rfl, rfl⟩
  have names : usedNames bumpMethod.instrs = ["step", "total", "total", "total", "total"] := by decide
  have stepSlot : bumpMethod.table.slot? "step" = some 1 := by decide
  have totalSlot : bumpMethod.table.slot? "total" = some 2 := by decide
  intro name used slot bound
  simp only [names, List.mem_cons, List.not_mem_nil, or_false, or_self] at used
  rcases used with rfl | rfl
  · cases stepSlot.symm.trans bound
    rfl
  · cases totalSlot.symm.trans bound
    rfl

end Stackwright
