import Stackwright.Proofs.Generation.Balance
import Stackwright.Proofs.Generation.Preservation
import Stackwright.Proofs.Semantics.Frame

/-!
Contract: allocations and constructor calls meet on the operand stack.

Owns:
- statements in which allocations and constructor calls pair up, nested to any depth;
- a run of such statements that keeps each new object for the constructor call it belongs to,
  and has no need of a stack between statements;
- the machine code of the statements does what that run does, on any stack, and leaves the
  stack alone.

The second copy of a new object waits on the stack while other statements run above it. Runs
are compared on any stack at once, so that the statements in between may be seen as running on
a stack that has one more value at its bottom.
-/

namespace Stackwright

/-- The statement is stack-neutral by its form: it assigns neither a new object nor the result
of a constructor call, stores into a field, or calls a method of an object or a class. -/
def Instr.IsNeutral : Instr → Prop
  | .assign _ source => source.isCallOf .allocate = false ∧ source.isCallOf .special = false
  | .putField _ _ => True
  | .call invocation => invocation.kind = .virtual ∨ invocation.kind = .static
  | .single _ | .binary _ _ _ _ | .ret _ _ | .getField _ => False

/-- How allocations and constructor calls pair up in a list of statements. -/
inductive Pairing : List Instr → Type where
  | nil : Pairing []
  | append {first second : List Instr} (pairingFirst : Pairing first)
      (pairingSecond : Pairing second) : Pairing (first ++ second)
  | neutral (instr : Instr) (isNeutral : instr.IsNeutral) : Pairing [instr]
  | construct (target : Operand) (allocation construction : Call) {inside : List Instr}
      (allocates : allocation.kind = .allocate) (constructs : construction.kind = .special)
      (returnsNothing : construction.result = .void) (pairingInside : Pairing inside) :
      Pairing (.assign target (.call allocation) :: (inside ++ [.call construction]))

variable {Value Heap : Type}

namespace Scope

/-- The value of an operand in the slots of a frame. -/
def value? (scope : Scope) (world : MachineWorld Value Heap) (locals : Slot → Value) :
    Operand → Option Value
  | .literal text _ => some (world.literal text)
  | .receiver => some (locals 0)
  | .variable name ty =>
    if ty = .receiver then some (locals 0) else (scope.table.slot? name).map locals

/-- The slot that an assignment stores into. -/
def targetSlot? (scope : Scope) : Operand → Option Slot
  | .variable name _ => scope.table.slot? name
  | .literal _ _ | .receiver => none

/-- The constructor that a call addresses. -/
def constructor? (scope : Scope) (call : Call) : Option MethodRef := do
  let owner ← (scope.owner call.target).toOption
  let descriptor ← (scope.callDescriptor call).toOption
  return { kind := .special, owner, name := "<init>", descriptor }

/-- Calls a constructor on an object, with the values of the arguments in order. -/
def runConstructor (scope : Scope) (world : MachineWorld Value Heap) (construction : Call)
    (object : Value) : MachineM Value Heap Unit := do
  let locals ← RunM.locals
  let args ← RunM.need (construction.args.mapM (scope.value? world locals))
  let method ← RunM.need (scope.constructor? construction)
  let _ ← RunM.perform world.toWorld (.invoke method (some object) args)

end Scope

/-- Runs the statements with every new object at hand for its own constructor call. What is
stack-neutral runs its own code; an object is made, put into its variable, and after all that
comes in between its constructor is called on it. -/
def Pairing.run (world : MachineWorld Value Heap) (scope : Scope) :
    {instrs : List Instr} → Pairing instrs → MachineM Value Heap Unit
  | _, .nil => pure ()
  | _, .append pairingFirst pairingSecond => do
    pairingFirst.run world scope
    pairingSecond.run world scope
  | _, .neutral instr _ => do
    let code ← RunM.need (scope.statementCode instr).toOption
    MachineInstr.execAll world code
  | _, .construct target allocation construction _ _ _ pairingInside => do
    let owner ← RunM.need (scope.owner allocation.target).toOption
    let object ← RunM.perform world.toWorld (.allocate owner)
    let slot ← RunM.need (scope.targetSlot? target)
    RunM.assign slot object
    pairingInside.run world scope
    scope.runConstructor world construction object

/-! ### The code of neutral statements -/

namespace Instr

theorem IsNeutral.takesObject_eq {instr : Instr} (neutral : instr.IsNeutral) : instr.takesObject = false := by
  cases instr with
  | assign target source => exact neutral.2
  | call invocation =>
    apply decide_eq_false
    rcases neutral with kind | kind <;> simp [kind]
  | single | binary | ret | putField | getField => rfl

theorem IsNeutral.leavesValue_eq {instr : Instr} (neutral : instr.IsNeutral) : instr.leavesValue = false := by
  cases instr with
  | assign target source => exact neutral.1
  | single => exact neutral.elim
  | call | binary | ret | putField | getField => rfl

end Instr

/-! ### Code, part by part -/

/-- The machine code of paired statements. A new object is kept once in its variable and once on
the stack; its constructor call loads the arguments only. -/
inductive Pairing.HasCode (scope : Scope) :
    {instrs : List Instr} → Pairing instrs → List MachineInstr → Prop where
  | nil : HasCode scope .nil []
  | append {first second : List Instr} {pairingFirst : Pairing first} {pairingSecond : Pairing second}
      {firstCode secondCode : List MachineInstr} (hasFirst : HasCode scope pairingFirst firstCode)
      (hasSecond : HasCode scope pairingSecond secondCode) :
      HasCode scope (.append pairingFirst pairingSecond) (firstCode ++ secondCode)
  | neutral {instr : Instr} {isNeutral : instr.IsNeutral} {code : List MachineInstr}
      (generated : scope.statementCode instr = .ok code) : HasCode scope (.neutral instr isNeutral) code
  | construct {target : Operand} {allocation construction : Call} {inside : List Instr}
      {allocates : allocation.kind = .allocate} {constructs : construction.kind = .special}
      {returnsNothing : construction.result = .void} {pairingInside : Pairing inside}
      {owner constructed descriptor : String} {slot : Slot} {kind : Kind}
      {insideCode loads : List MachineInstr} (owned : scope.owner allocation.target = .ok owner)
      (bound : scope.targetSlot? target = some slot) (hasInside : HasCode scope pairingInside insideCode)
      (ownedAgain : scope.owner construction.target = .ok constructed)
      (described : scope.callDescriptor construction = .ok descriptor)
      (loadsArgs : scope.LoadsAll construction.args loads) :
      HasCode scope
        (.construct target allocation construction allocates constructs returnsNothing pairingInside)
        ([.new owner, .dup, .store kind slot] ++ (insideCode ++
          (loads ++ [.invoke (construction.invocation constructed "<init>" descriptor)])))

namespace Scope

variable {scope : Scope}

theorem allocationCode_eq_ok {target : Operand} {allocation : Call} {code : List MachineInstr}
    (allocates : allocation.kind = .allocate)
    (generated : scope.statementCode (.assign target (.call allocation)) = .ok code) :
    ∃ owner slot kind, scope.owner allocation.target = .ok owner ∧ scope.targetSlot? target = some slot ∧
      code = [.new owner, .dup, .store kind slot] := by
  cases target with
  | literal | receiver => cases generated
  | «variable» name ty =>
    have leaves : allocation.resultType? = some allocation.target.ty := by rw [Call.resultType?, allocates]
    simp only [statementCode, assignCode, valueCode, leaves, callCode, allocates, bind_eq_ok_iff,
      pure_eq_ok_iff] at generated
    rcases generated with ⟨_, ⟨owner, owned, rfl⟩, store, storeGenerated, rfl⟩
    rcases store_eq_ok storeGenerated with ⟨slot, kind, bound, -, -, rfl⟩
    exact ⟨owner, slot, kind, owned, bound, rfl⟩

theorem constructionCode_eq_ok {construction : Call} {code : List MachineInstr}
    (constructs : construction.kind = .special) (returnsNothing : construction.result = .void)
    (generated : scope.statementCode (.call construction) = .ok code) :
    ∃ owner descriptor loads, scope.owner construction.target = .ok owner ∧
      scope.callDescriptor construction = .ok descriptor ∧ scope.LoadsAll construction.args loads ∧
      code = loads ++ [.invoke (construction.invocation owner "<init>" descriptor)] := by
  have notAllocate : construction.kind ≠ .allocate := by simp [constructs]
  rw [statementCode, callStatementCode, if_neg notAllocate, bind_eq_ok_iff] at generated
  rcases generated with ⟨callCode, callGenerated, generated⟩
  rw [if_pos returnsNothing, List.append_nil, pure_eq_ok_iff] at generated
  subst generated
  rw [Scope.callCode, bind_eq_ok_iff] at callGenerated
  rcases callGenerated with ⟨owner, owned, invokeGenerated⟩
  rw [constructs] at invokeGenerated
  rcases invokeCode_eq_ok invokeGenerated with ⟨descriptor, loads, described, loadsArgs, rfl⟩
  exact ⟨owner, descriptor, loads, owned, described, loadsArgs, rfl⟩

end Scope

namespace Pairing

variable {scope : Scope} {instrs : List Instr} {pairing : Pairing instrs} {code : List MachineInstr}

theorem hasCode (pairing : Pairing instrs) {parts : List (List MachineInstr)}
    (generated : instrs.map scope.statementCode = parts.map .ok) :
    pairing.HasCode scope parts.flatten := by
  induction pairing generalizing parts with
  | nil =>
    cases List.map_eq_nil_iff.1 generated.symm
    exact .nil
  | append _ _ firstHypothesis secondHypothesis =>
    rw [List.map_append, List.append_eq_map_iff] at generated
    rcases generated with ⟨firstParts, secondParts, rfl, firstGenerated, secondGenerated⟩
    rw [List.flatten_append]
    exact .append (firstHypothesis firstGenerated.symm) (secondHypothesis secondGenerated.symm)
  | neutral instr isNeutral =>
    rcases List.map_eq_singleton_iff.1 generated.symm with ⟨code, rfl, instrGenerated⟩
    rw [List.flatten_singleton]
    exact .neutral instrGenerated.symm
  | construct target allocation construction allocates constructs returnsNothing _ inductionHypothesis =>
    rw [List.map_cons, List.map_append, eq_comm, List.map_eq_cons_iff] at generated
    rcases generated with ⟨allocationCode, rest, rfl, allocationGenerated, restGenerated⟩
    rw [List.map_eq_append_iff] at restGenerated
    rcases restGenerated with ⟨insideParts, lastParts, rfl, insideGenerated, lastGenerated⟩
    rcases List.map_eq_singleton_iff.1 lastGenerated with ⟨constructionCode, rfl, constructionGenerated⟩
    rcases Scope.allocationCode_eq_ok allocates allocationGenerated.symm with
      ⟨owner, slot, kind, owned, bound, rfl⟩
    rcases Scope.constructionCode_eq_ok constructs returnsNothing constructionGenerated.symm with
      ⟨constructed, descriptor, loads, ownedAgain, described, loadsArgs, rfl⟩
    rw [List.flatten_cons, List.flatten_append, List.flatten_singleton]
    exact .construct owned bound (inductionHypothesis insideGenerated.symm) ownedAgain described loadsArgs

/-! ### The stack that the code needs -/

namespace HasCode

/-- The code takes nothing that it has not put on the stack itself, and leaves nothing. -/
theorem heightAfter? (hasCode : pairing.HasCode scope code) : heightAfter? 0 code = some 0 := by
  induction hasCode with
  | nil => rfl
  | append _ _ firstHypothesis secondHypothesis =>
    rw [heightAfter?_append firstHypothesis, secondHypothesis]
  | @neutral instr isNeutral code generated =>
    have height := (Scope.emits_of_statementCode generated).heightAfter?
    rw [isNeutral.takesObject_eq, isNeutral.leavesValue_eq] at height
    exact height
  | @construct target allocation construction _ _ constructs returnsNothing _ owner constructed descriptor
      slot kind insideCode loads owned bound hasInside ownedAgain described loadsArgs inductionHypothesis =>
    have allocated : Stackwright.heightAfter? 0 [.new owner, .dup, .store kind slot] = some 1 := rfl
    have invoked := Scope.heightAfter?_invoke construction constructed "<init>" descriptor 0
    rw [constructs, returnsNothing] at invoked
    rw [heightAfter?_append allocated, heightAfter?_append (heightAfter?_add inductionHypothesis 1),
      loadsArgs.heightAfter?]
    exact invoked

/-- The code has no return. -/
theorem not_isReturn (hasCode : pairing.HasCode scope code) : ∀ instr ∈ code, ¬instr.IsReturn := by
  have ofPlain (instr : MachineInstr) (isPlain : instr.IsPlain) : ¬instr.IsReturn := by
    cases instr with
    | retVoid | ret => exact isPlain.elim
    | _ => exact id
  induction hasCode with
  | nil => exact List.forall_mem_nil _
  | append _ _ firstHypothesis secondHypothesis =>
    exact List.forall_mem_append.2 ⟨firstHypothesis, secondHypothesis⟩
  | @neutral instr isNeutral code generated =>
    refine Scope.Emits.forall_mem ofPlain (Scope.emits_of_statementCode generated) ?_
      (fun _ _ _ _ _ _ _ => id)
    intro isRet
    cases instr with
    | ret => exact isNeutral.elim
    | assign | single | binary | call | putField | getField => cases isRet
  | construct owned bound hasInside ownedAgain described loadsArgs inductionHypothesis =>
    simp only [List.forall_mem_append, List.forall_mem_cons]
    exact ⟨⟨id, id, id, List.forall_mem_nil _⟩, inductionHypothesis,
      fun load member => ofPlain load (loadsArgs.isPlain load member), id, List.forall_mem_nil _⟩

/-- At any point, the code has used only what it put on the stack itself. -/
theorem take_within (hasCode : pairing.HasCode scope code) (world : MachineWorld Value Heap) (count : Nat) :
    ∃ high, (MachineInstr.execAll world (code.take count)).Within False 0 high := by
  rcases exists_heightAfter?_take hasCode.heightAfter? count with ⟨high, lifts⟩
  refine ⟨high, (MachineInstr.execAll_within world lifts).weaken ?_⟩
  rintro ⟨instr, member, isReturn⟩
  exact hasCode.not_isReturn instr (List.mem_of_mem_take member) isReturn

end HasCode

end Pairing

/-! ### Objects meet their constructors -/

section Runs

variable {scope : Scope} {world : MachineWorld Value Heap}

/-- A load puts the value of its operand on the stack. -/
theorem Scope.Loads.value_run {operand : Operand} {load : MachineInstr} (loads : scope.Loads operand load)
    (world : MachineWorld Value Heap) (state : RunState Slot Value (MachineAction Value) Heap) :
    ∃ value, scope.value? world state.locals operand = some value ∧
      (load.exec world).run state = .ok () { state with stack := value :: state.stack } := by
  cases loads with
  | literal text notVoid => exact ⟨world.literal text, rfl, rfl⟩
  | receiver isReceiver =>
    refine ⟨state.locals 0, ?_, rfl⟩
    cases operand with
    | literal => exact isReceiver.elim
    | receiver => rfl
    | «variable» name ty => exact if_pos isReceiver
  | @«variable» name ty slot kind notReceiver bound hasKind =>
    refine ⟨state.locals slot, ?_, rfl⟩
    rw [value?, if_neg notReceiver, bound]
    rfl

/-- Loads put the values of their operands on the stack, the last one on top. -/
theorem Scope.LoadsAll.values_run {operands : List Operand} {loads : List MachineInstr}
    (loadsAll : scope.LoadsAll operands loads) (world : MachineWorld Value Heap)
    (rest : List MachineInstr) (state : RunState Slot Value (MachineAction Value) Heap) :
    ∃ values, operands.mapM (scope.value? world state.locals) = some values ∧
      operands.length = values.length ∧
      (MachineInstr.execAll world (loads ++ rest)).run state =
        (MachineInstr.execAll world rest).run { state with stack := values.reverse ++ state.stack } := by
  induction loadsAll generalizing state with
  | nil => exact ⟨[], rfl, rfl, rfl⟩
  | cons loadsFirst loadsRest inductionHypothesis =>
    rcases loadsFirst.value_run world state with ⟨value, isValue, ranFirst⟩
    rcases inductionHypothesis { state with stack := value :: state.stack } with
      ⟨values, areValues, sameLength, ranRest⟩
    refine ⟨value :: values, ?_, congrArg (· + 1) sameLength, ?_⟩
    · rw [List.mapM_cons, isValue, Option.bind_eq_bind, Option.bind_some, areValues]
      rfl
    · rw [List.cons_append, MachineInstr.execAll_cons, EStateM.run_bind, ranFirst, List.reverse_cons,
        List.append_assoc]
      exact ranRest

/-- An allocation puts the new object into its slot and leaves it on the stack. -/
theorem allocation_run (owner : String) (kind : Kind) (slot : Slot) :
    MachineInstr.execAll world [.new owner, .dup, .store kind slot] = (do
      let object ← RunM.perform world.toWorld (.allocate owner)
      RunM.assign slot object
      RunM.push object) := by
  funext state
  show EStateM.run _ state = EStateM.run _ state
  simp only [MachineInstr.execAll_cons, MachineInstr.execAll_nil, MachineInstr.exec, bind_assoc]
  rw [EStateM.run_bind, EStateM.run_bind, RunM.perform_run]
  cases (world.effect (.allocate owner) state.heap).2 <;> rfl

/-- The states are the same apart from the stack. -/
def RunState.AgreesOffStack {Key Action : Type} (left right : RunState Key Value Action Heap) : Prop :=
  left = { right with stack := left.stack }

/-- What the machine does above the values below is what happens with none of them there. -/
def SameAbove (below : List Value) (_ : Unit) (after : RunState Slot Value (MachineAction Value) Heap)
    (_ : Unit) (paired : RunState Slot Value (MachineAction Value) Heap) : Prop :=
  after = paired.over below ∧ paired.stack = []

/-- The code of a constructor call takes the object that lies on the stack, and performs the call
that is made with the object at hand. -/
theorem Scope.construction_run (world : MachineWorld Value Heap) {construction : Call}
    {constructed descriptor : String} {loads : List MachineInstr}
    (constructs : construction.kind = .special) (returnsNothing : construction.result = .void)
    (owned : scope.owner construction.target = .ok constructed)
    (described : scope.callDescriptor construction = .ok descriptor)
    (loadsArgs : scope.LoadsAll construction.args loads) (object : Value)
    (state : RunState Slot Value (MachineAction Value) Heap) :
    ∃ action,
      (MachineInstr.execAll world
          (loads ++ [.invoke (construction.invocation constructed "<init>" descriptor)])).run
          { state with stack := object :: state.stack } =
        (RunM.perform world.toWorld action >>= fun _ => pure ()).run state ∧
      ∀ other : RunState Slot Value (MachineAction Value) Heap, other.locals = state.locals →
        (scope.runConstructor world construction object).run other =
          (RunM.perform world.toWorld action >>= fun _ => pure ()).run other := by
  rcases loadsArgs.values_run world [.invoke (construction.invocation constructed "<init>" descriptor)]
    { state with stack := object :: state.stack } with ⟨args, areArgs, sameLength, loaded⟩
  refine ⟨.invoke (construction.invocation constructed "<init>" descriptor).method (some object) args, ?_, ?_⟩
  · have takesReceiver : construction.kind.hasReceiver = (some object).isSome := by
      rw [constructs]
      rfl
    refine loaded.trans ((invoke_run state (some object) sameLength takesReceiver).trans ?_)
    simp only [if_pos returnsNothing]
  · intro other sameLocals
    have addressed : scope.constructor? construction =
        some (construction.invocation constructed "<init>" descriptor).method := by
      rw [constructor?, owned, described, ← constructs]
      rfl
    have areOtherArgs : construction.args.mapM (scope.value? world other.locals) = some args := by
      rw [sameLocals]
      exact areArgs
    rw [runConstructor, EStateM.run_bind, RunM.locals_run]
    show EStateM.run (RunM.need (construction.args.mapM (scope.value? world other.locals)) >>= _) other = _
    rw [areOtherArgs, RunM.need_some, pure_bind, addressed, RunM.need_some, pure_bind]

/-- The constructor is called on the object that lies on the stack. -/
theorem Scope.construction_alike {construction : Call} {constructed descriptor : String}
    {loads : List MachineInstr} (constructs : construction.kind = .special)
    (returnsNothing : construction.result = .void) (owned : scope.owner construction.target = .ok constructed)
    (described : scope.callDescriptor construction = .ok descriptor)
    (loadsArgs : scope.LoadsAll construction.args loads) (object : Value)
    (state : RunState Slot Value (MachineAction Value) Heap) (below : List Value) (empty : state.stack = []) :
    Alike (SameAbove below) RunState.AgreesOffStack
      ((MachineInstr.execAll world
          (loads ++ [.invoke (construction.invocation constructed "<init>" descriptor)])).run
        (state.over (object :: below)))
      ((scope.runConstructor world construction object).run state) := by
  rcases Scope.construction_run world constructs returnsNothing owned described loadsArgs object
    (state.over below) with ⟨action, machine, paired⟩
  have onTop : state.over (object :: below) =
      { state.over below with stack := object :: (state.over below).stack } := by
    simp only [RunState.over, empty, List.nil_append]
  have performed : Alike (fun _ after _ paired => SameAbove below () after () paired)
      RunState.AgreesOffStack ((RunM.perform world.toWorld action).run (state.over below))
      ((RunM.perform world.toWorld action).run state) :=
    Alike.perform rfl (fun _ => ⟨rfl, empty⟩) rfl
  rw [onTop, machine, paired state rfl]
  exact performed.bind fun _ _ _ _ related => .ok related

/-- A neutral statement does not look at what lies below. -/
theorem Pairing.neutral_alike {instr : Instr} {isNeutral : instr.IsNeutral} {code : List MachineInstr}
    (generated : scope.statementCode instr = .ok code)
    (state : RunState Slot Value (MachineAction Value) Heap) (below : List Value) (empty : state.stack = []) :
    Alike (SameAbove below) RunState.AgreesOffStack
      ((MachineInstr.execAll world code).run (state.over below))
      (((Pairing.neutral instr isNeutral).run world scope).run state) := by
  have hasCode : (Pairing.neutral instr isNeutral).HasCode scope code := .neutral generated
  have within := (MachineInstr.execAll_within world hasCode.heightAfter?).weaken
    fun ⟨machineInstr, member, isReturn⟩ => hasCode.not_isReturn machineInstr member isReturn
  have atZero : state.stack.length = 0 := congrArg List.length empty
  simp only [Pairing.run, generated, Except.toOption, RunM.need_some, pure_bind]
  rw [within.frame state below atZero]
  cases ran : (MachineInstr.execAll world code).run state with
  | ok value after =>
    exact .ok ⟨rfl, List.length_eq_zero_iff.1 (within.height state value after atZero ran)⟩
  | error ending after =>
    refine .error ?_ rfl
    rcases within.ends state ending after atZero ran with rfl | ⟨impossible, -⟩
    · exact nofun
    · exact impossible.elim

/-- On any stack the machine code does what the statements do with their objects at hand. -/
theorem Pairing.HasCode.alike {instrs : List Instr} {pairing : Pairing instrs} {code : List MachineInstr}
    (hasCode : pairing.HasCode scope code) (state : RunState Slot Value (MachineAction Value) Heap)
    (below : List Value) (empty : state.stack = []) :
    Alike (SameAbove below) RunState.AgreesOffStack
      ((MachineInstr.execAll world code).run (state.over below))
      ((pairing.run world scope).run state) := by
  induction hasCode generalizing state below with
  | nil => exact .ok ⟨rfl, empty⟩
  | append _ _ firstHypothesis secondHypothesis =>
    rw [MachineInstr.execAll_append]
    apply (firstHypothesis state below empty).bind
    rintro _ _ _ paired ⟨rfl, stillEmpty⟩
    exact secondHypothesis paired below stillEmpty
  | neutral generated => exact Pairing.neutral_alike generated state below empty
  | @construct target allocation construction _ _ constructs returnsNothing pairingInside owner constructed
      descriptor slot kind insideCode loads owned bound hasInside ownedAgain described loadsArgs
      inductionHypothesis =>
    simp only [Pairing.run, owned, bound, Except.toOption, RunM.need_some, pure_bind]
    rw [MachineInstr.execAll_append, allocation_run, bind_assoc]
    have allocated : Alike (fun object after object' paired => object = object' ∧
        after = paired.over below ∧ paired.stack = []) RunState.AgreesOffStack
        ((RunM.perform world.toWorld (.allocate owner)).run (state.over below))
        ((RunM.perform world.toWorld (.allocate owner)).run state) :=
      Alike.perform rfl (fun _ => ⟨rfl, rfl, empty⟩) rfl
    apply allocated.bind
    rintro object _ _ ⟨locals, stack, heap, trace⟩ ⟨rfl, rfl, rfl⟩
    -- What comes in between runs above the copy of the object.
    have between := inductionHypothesis ⟨setLocal locals slot object, [], heap, trace⟩ (object :: below) rfl
    have toTheEnd : Alike (SameAbove below) RunState.AgreesOffStack
        ((MachineInstr.execAll world insideCode >>= fun _ => MachineInstr.execAll world
            (loads ++ [.invoke (construction.invocation constructed "<init>" descriptor)])).run
          (RunState.over ⟨setLocal locals slot object, [], heap, trace⟩ (object :: below)))
        ((pairingInside.run world scope >>= fun _ => scope.runConstructor world construction object).run
          ⟨setLocal locals slot object, [], heap, trace⟩) := by
      apply between.bind
      rintro _ _ _ paired ⟨rfl, stillEmpty⟩
      exact Scope.construction_alike constructs returnsNothing ownedAgain described loadsArgs object paired
        below stillEmpty
    rw [MachineInstr.execAll_append]
    exact toTheEnd

/-- What code does that pairs objects and constructor calls up through the stack. -/
structure Pairing.PairsOnStack {instrs : List Instr} (pairing : Pairing instrs) (scope : Scope)
    (world : MachineWorld Value Heap) (code : List MachineInstr)
    (state : RunState Slot Value (MachineAction Value) Heap) : Prop where
  /-- At every point the code has done what it does on an empty stack. What lay on the stack before
  is neither read nor taken. -/
  untouched : ∀ count, (MachineInstr.execAll world (code.take count)).run state =
    RunM.outcomeOver state.stack
      ((MachineInstr.execAll world (code.take count)).run { state with stack := [] })
  /-- An empty stack is enough: only an action that aborts ends the run. -/
  endsByAbort : ∀ count ending after,
    (MachineInstr.execAll world (code.take count)).run { state with stack := [] } = .error ending after →
      ending = .aborted
  restored : ∀ after, (MachineInstr.execAll world code).run state = .ok () after →
    after.stack = state.stack
  /-- The run is that of the statements with every new object at hand for its constructor. -/
  meets : Alike (SameAbove state.stack) RunState.AgreesOffStack
    ((MachineInstr.execAll world code).run state) ((pairing.run world scope).run { state with stack := [] })
  /-- No other statement calls a constructor. -/
  nowhereElse : ∀ instr ∈ instrs, instr.IsNeutral → ∀ part, scope.statementCode instr = .ok part →
    ∀ invocation, .invoke invocation ∈ part → invocation.kind ≠ .special

theorem Instr.IsNeutral.kind_ne_special {instr : Instr} (neutral : instr.IsNeutral)
    {code : List MachineInstr} (emits : scope.Emits instr code) {call : Call}
    (made : instr.call? = some call) : call.kind ≠ .special := by
  cases emits with
  | assign yields bound notReceiver hasKind =>
    cases yields with
    | call leaves calls =>
      cases made
      exact of_decide_eq_false neutral.2
    | single | binary | getField => cases made
  | call notAllocate calls =>
    cases made
    rcases neutral with kind | kind <;> simp [kind]
  | single | retVoid | ret | putField => cases made

/-- A neutral statement calls no constructor. -/
theorem Instr.IsNeutral.calls_no_constructor {instr : Instr} (neutral : instr.IsNeutral)
    {code : List MachineInstr} (generated : scope.statementCode instr = .ok code) :
    ∀ invocation, .invoke invocation ∈ code → invocation.kind ≠ .special := by
  have emits := Scope.emits_of_statementCode generated
  have each : ∀ machineInstr ∈ code, ∀ invocation, machineInstr = .invoke invocation →
      invocation.kind ≠ .special := by
    refine Scope.Emits.forall_mem ?_ emits ?_ ?_
    · rintro _ isPlain invocation rfl
      exact isPlain.elim
    · rintro _ _ isReturn invocation rfl
      exact isReturn.elim
    · rintro call owner name descriptor made - - _ ⟨⟩
      exact neutral.kind_ne_special emits made
  exact fun invocation member => each _ member invocation rfl

/-- Allocations and constructor calls pair up through the stack: whatever statements in which they
do so by their form, their code leaves the stack as it was, and calls every constructor on the very
object that was made for it. -/
theorem Pairing.code_pairs_objects {instrs : List Instr} (pairing : Pairing instrs) {methodName : String}
    {parts : List (List MachineInstr)} (accepted : scope.bodyParts methodName instrs = .ok parts)
    (world : MachineWorld Value Heap) (state : RunState Slot Value (MachineAction Value) Heap) :
    pairing.PairsOnStack scope world parts.flatten state := by
  have hasCode := pairing.hasCode (Scope.bodyParts_eq_ok_iff.1 accepted)
  have meets : Alike (SameAbove state.stack) RunState.AgreesOffStack
      ((MachineInstr.execAll world parts.flatten).run state)
      ((pairing.run world scope).run { state with stack := [] }) :=
    hasCode.alike { state with stack := [] } state.stack rfl
  constructor
  · intro count
    rcases hasCode.take_within world count with ⟨high, within⟩
    exact within.frame { state with stack := [] } state.stack rfl
  · intro count ending after ended
    rcases hasCode.take_within world count with ⟨high, within⟩
    rcases within.ends _ ending after rfl ended with aborted | ⟨impossible, -⟩
    · exact aborted
    · exact impossible.elim
  · intro after finished
    rw [finished] at meets
    generalize (pairing.run world scope).run { state with stack := [] } = outcome at meets
    cases meets with
    | ok related => rw [related.1, RunState.over, related.2, List.nil_append]
  · exact meets
  · exact fun instr _ neutral part generated => neutral.calls_no_constructor generated

end Runs

/-- The box waits while the point is made, with a sum in between. -/
def boxedPointPairing : Pairing boxedPointInstrs :=
  have sum : Pairing [.assign (.variable "y" .int)
      (.binary .add (.variable "x" .int) (.int 1) .int)] := .neutral _ ⟨rfl, rfl⟩
  .construct _ _ _ rfl rfl rfl (.construct _ _ _ rfl rfl rfl sum)

/-- A world in which a new object is called as its class is, and every other action gives the same
answer. -/
def MachineWorld.namingObjects (answer : String) : MachineWorld String Unit where
  effect := fun action heap =>
    match action with
    | .allocate owner => (heap, some owner)
    | _ => (heap, some answer)
  literal := id

/-- A frame with its parameter in slot one, and values on the stack that are none of its business. -/
def boxPointState : RunState Slot String (MachineAction String) Unit where
  locals := (["main", "4"].getD · "")
  stack := ["left", "behind"]
  heap := ()
  trace := []

theorem Pairing.code_pairs_objects_of_boxedPoint :
    (boxPointMethod.scope "Main").bodyParts "boxPoint" boxedPointInstrs = .ok boxedPointParts ∧
      boxedPointPairing.PairsOnStack (boxPointMethod.scope "Main") (.namingObjects "5")
        boxedPointParts.flatten boxPointState := by
  have accepted : (boxPointMethod.scope "Main").bodyParts "boxPoint" boxedPointInstrs =
      .ok boxedPointParts := Scope.bodyParts_eq_ok_iff.2 rfl
  exact ⟨accepted, boxedPointPairing.code_pairs_objects accepted (.namingObjects "5") boxPointState⟩

/-- The constructors are called inside out, each on the object that is called as its class. -/
example :
    (match (MachineInstr.execAll (.namingObjects "5") boxedPointParts.flatten).run boxPointState with
      | .ok _ after | .error _ after => after.trace) =
      [.allocate "Box", .allocate "Point", .operate .add "4" "1",
        .invoke ⟨.special, "Point", "<init>", "(II)V"⟩ (some "Point") ["4", "5"],
        .invoke ⟨.special, "Box", "<init>", "(LPoint;)V"⟩ (some "Box") ["Point"]] := by
  decide +kernel

end Stackwright
