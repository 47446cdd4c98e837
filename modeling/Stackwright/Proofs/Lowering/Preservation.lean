import Stackwright.Proofs.Lowering.Footprint
import Stackwright.Proofs.Semantics.Instr

/-!
Contract: lowering preserves the meaning of method bodies.

Owns: the simulation of a tree by the instructions it is lowered to. From states that
agree on all names but temporaries, both perform the same actions with the same
effects, end in the same way, and leave states that agree again; the operand of the
tree then has the value of the tree.

An operand is read late, after the instructions of the operands that follow it. Its
value is still there because these trees have values themselves: they assign nothing
but temporaries of their own.

A temporary of the receiver type is read as the receiver, not as what it was assigned.
So the value of an operator or of a call must not be needed where it has that type.
-/

namespace Stackwright

variable {Value Heap : Type} {symbols : Symbols}

/-- The value of the tree is not put into a temporary of the receiver type. -/
def Node.ResultKept (symbols : Symbols) : Node → Prop
  | .binary _ _ _ ty => ty ≠ .receiver
  | .call _ method _ => symbols.resultOf method ≠ .receiver
  | _ => True

/-- The names of trees are reserved, and the operands among their parts keep their
values. -/
structure Faithful (symbols : Symbols) (reserved names : List String) (parts : List Node) : Prop where
  reserves : ∀ name ∈ names, name ∈ reserved
  keeps : ∀ part ∈ parts, ∀ operand ∈ part.operands symbols, operand.ResultKept symbols

namespace Faithful

variable {reserved : List String}

variable {node : Node} {names : List String} {parts : List Node}

theorem inside (faithful : Faithful symbols reserved names (node :: parts)) :
    Faithful symbols reserved names parts where
  reserves := faithful.reserves
  keeps part member := faithful.keeps part (List.mem_cons_of_mem node member)

theorem append {firstNames secondNames : List String} {firstParts secondParts : List Node}
    (faithful : Faithful symbols reserved (firstNames ++ secondNames) (firstParts ++ secondParts)) :
    Faithful symbols reserved firstNames firstParts ∧
      Faithful symbols reserved secondNames secondParts := by
  have reserves := List.forall_mem_append.1 faithful.reserves
  have keeps := List.forall_mem_append.1 faithful.keeps
  exact ⟨⟨reserves.1, keeps.1⟩, reserves.2, keeps.2⟩

/-- The variable of an assignment is not needed for its value. -/
theorem assigned {name : String} (faithful : Faithful symbols reserved (name :: names) parts) :
    Faithful symbols reserved names parts where
  reserves other member := faithful.reserves other (List.mem_cons_of_mem name member)
  keeps := faithful.keeps

theorem operands (faithful : Faithful symbols reserved node.names node.parts) :
    ∀ operand ∈ node.operands symbols, operand.ResultKept symbols :=
  faithful.keeps node node.mem_parts_self

end Faithful

/-- Two states agree but for temporaries. -/
structure AgreeOff {Action : Type} (temporary : String → Prop)
    (source target : RunState String Value Action Heap) : Prop where
  locals : ∀ name, ¬temporary name → source.locals name = target.locals name
  stack : source.stack = target.stack
  heap : source.heap = target.heap
  trace : source.trace = target.trace

namespace AgreeOff

variable {Action : Type} {temporary : String → Prop}
  {source target : RunState String Value Action Heap}

theorem performed {world : World Value Action Heap} (agree : AgreeOff temporary source target)
    (action : Action) :
    AgreeOff temporary (RunM.performed world action source) (RunM.performed world action target) where
  locals := agree.locals
  stack := agree.stack
  heap := by
    show (world.effect action source.heap).1 = (world.effect action target.heap).1
    rw [agree.heap]
  trace := congrArg (· ++ [action]) agree.trace

theorem assign (agree : AgreeOff temporary source target) (name : String) (value : Value) :
    AgreeOff temporary { source with locals := setLocal source.locals name value }
      { target with locals := setLocal target.locals name value } where
  locals other notTemporary := by
    by_cases same : other = name
    · simp [setLocal, same]
    · simpa [setLocal, same] using agree.locals other notTemporary
  stack := agree.stack
  heap := agree.heap
  trace := agree.trace

theorem assignTemporary (agree : AgreeOff temporary source target) {name : String} (value : Value)
    (isTemporary : temporary name) :
    AgreeOff temporary source { target with locals := setLocal target.locals name value } where
  locals other notTemporary := by
    have different : other ≠ name := fun same => notTemporary (same ▸ isTemporary)
    show source.locals other = setLocal target.locals name value other
    rw [setLocal_other target.locals value different]
    exact agree.locals other notTemporary
  stack := agree.stack
  heap := agree.heap
  trace := agree.trace

end AgreeOff

/-- The value of an operand depends on its variable alone. -/
theorem Operand.value_congr {Action : Type} {world : InstrWorld Value Action Heap} {receiver : Value}
    {operand : Operand} {earlier later : String → Value}
    (same : ∀ name ty, operand = .variable name ty → later name = earlier name) :
    operand.value world receiver later = operand.value world receiver earlier := by
  cases operand with
  | «variable» name ty => rw [value, value, readVariable, readVariable, same name ty rfl]
  | literal | receiver => rfl

/-- A comparison with instructions may use that they change no names but those that
they assign. -/
theorem Alike.framed {α σ Action : Type} {world : InstrWorld Value Action Heap} {receiver : Value}
    {instrs : List Instr} {target : RunState String Value Action Heap} {touched : String → Prop}
    {going : α → σ → Unit → RunState String Value Action Heap → Prop}
    {ended : σ → RunState String Value Action Heap → Prop}
    {left : EStateM.Result (Ending Value) σ α}
    (alike : Alike going ended left ((Instr.execAll world receiver instrs).run target))
    (covers : ∀ name ∈ assignedNames instrs, touched name) :
    Alike (fun value s result t => going value s result t ∧
        ∀ name, ¬touched name → t.locals name = target.locals name) ended left
      ((Instr.execAll world receiver instrs).run target) := by
  apply alike.withResult
  intro _ t finished name untouched
  apply Instr.execAll_locals world receiver finished
  exact fun assigned => untouched (covers name assigned)

section Simulation

variable {world : SourceWorld Value Heap} {receiver : Value}

/-- The operand of a tree keeps its value while later trees with values are run. -/
theorem Lowers.value_later {before after last : Temps} {node : Node} {operand : Operand}
    {instrs : List Instr} {earlierLocals laterLocals : String → Value}
    (lowers : Lowers symbols before node ⟨some operand, instrs⟩ after)
    (reserves : ∀ name ∈ node.names, name ∈ before.reserved) (later : last.Extends after)
    (frame : ∀ name, ¬after.Drew last name → laterLocals name = earlierLocals name) :
    operand.value world.instrWorld receiver laterLocals =
      operand.value world.instrWorld receiver earlierLocals := by
  apply Operand.value_congr
  intro name ty isVariable
  apply frame
  exact lowers.value_settled reserves (congrArg some isVariable) later

/-- From states that agree, a tree and its instructions do the same, and afterwards the
operand of the tree has its value, if that is kept. -/
def Simulates (world : SourceWorld Value Heap) (symbols : Symbols) (receiver : Value)
    (temporary : String → Prop) (node : Node) (lowered : Lowered) : Prop :=
  ∀ ⦃source target : RunState String Value (SourceAction Value) Heap⦄,
    AgreeOff temporary source target →
      Alike (fun value? s _ t => AgreeOff temporary s t ∧ (node.ResultKept symbols →
          value? = lowered.value?.map (Operand.value world.instrWorld receiver t.locals)))
        (AgreeOff temporary) ((node.run world symbols receiver).run source)
        ((Instr.execAll world.instrWorld receiver lowered.instrs).run target)

/-- An operand is simulated: its value is there, and nothing has changed but
temporaries drawn for it. -/
theorem Simulates.operand {before after : Temps} {node : Node} {operand : Operand}
    {instrs : List Instr} {temporary : String → Prop}
    {source target : RunState String Value (SourceAction Value) Heap}
    (simulates : Simulates world symbols receiver temporary node ⟨some operand, instrs⟩)
    (lowers : Lowers symbols before node ⟨some operand, instrs⟩ after)
    (kept : node.ResultKept symbols) (agree : AgreeOff temporary source target) :
    Alike (fun value s _ t => AgreeOff temporary s t ∧
        value = operand.value world.instrWorld receiver t.locals ∧
        ∀ name, ¬before.Drew after name → t.locals name = target.locals name) (AgreeOff temporary)
      ((node.run world symbols receiver >>= RunM.need).run source)
      ((Instr.execAll world.instrWorld receiver instrs).run target) := by
  have framed := (simulates agree).framed fun _ assigned => lowers.assigned_drew rfl assigned
  apply framed.mapLeft
  intro value? s _ t related
  obtain ⟨⟨agreeAfter, holds⟩, frame⟩ := related
  refine ⟨_, ?_, agreeAfter, rfl, frame⟩
  rw [holds kept]
  rfl

/-- The callee of a lowered target, where locals are as given. -/
def LoweredTarget.callee (world : SourceWorld Value Heap) (receiver : Value)
    (locals : String → Value) (target : LoweredTarget) : Callee Value :=
  if target.kind = .static then
    .imported target.operand.ty
  else
    .object (target.operand.value world.instrWorld receiver locals)

theorem LowersTarget.callee_later {before after last : Temps} {target : Node}
    {loweredTarget : LoweredTarget} {earlierLocals laterLocals : String → Value}
    (lowersTarget : LowersTarget symbols before target loweredTarget after)
    (reserves : ∀ name ∈ target.names, name ∈ before.reserved) (later : last.Extends after)
    (frame : ∀ name, ¬after.Drew last name → laterLocals name = earlierLocals name) :
    loweredTarget.callee world receiver laterLocals =
      loweredTarget.callee world receiver earlierLocals := by
  cases lowersTarget with
  | imported names => rfl
  | object namesNone lowers =>
    exact congrArg Callee.object (lowers.value_later reserves later frame)

/-- A lowered call performs the call of its callee with its arguments. -/
theorem LowersTarget.action_invocation {before after : Temps} {target : Node}
    {loweredTarget : LoweredTarget} (lowersTarget : LowersTarget symbols before target loweredTarget after)
    (method : String) (operands : List Operand) (locals : String → Value) :
    (loweredTarget.invocation symbols method operands).action? world.instrWorld receiver locals =
      some (.call (loweredTarget.callee world receiver locals) method
        (operands.map (Operand.value world.instrWorld receiver locals))) := by
  cases lowersTarget with
  | imported names => rfl
  | object namesNone lowers => rfl

/-- An action whose value a temporary takes. The temporary then has the value, unless
it is read as the receiver. -/
theorem alike_computed {temporary : String → Prop} {action : SourceAction Value} {name : String}
    {ty : Ty} {instr : Instr} {source target : RunState String Value (SourceAction Value) Heap}
    (yields : (instr.yield world.instrWorld receiver).run target =
      (RunM.perform world.toWorld action).run target)
    (isTemporary : temporary name) (agree : AgreeOff temporary source target) :
    Alike (fun value? s _ t => AgreeOff temporary s t ∧ (ty ≠ .receiver →
        value? = some ((Operand.variable name ty).value world.instrWorld receiver t.locals)))
      (AgreeOff temporary)
      ((RunM.perform world.toWorld action >>= fun value => pure (some value)).run source)
      ((Instr.execAll world.instrWorld receiver [.assign (.variable name ty) instr]).run target) := by
  rw [Instr.execAll_cons, Instr.execAll_nil, Instr.exec, bind_assoc]
  have performed : Alike (fun value s result t => result = value ∧ AgreeOff temporary s t)
      (AgreeOff temporary) ((RunM.perform world.toWorld action).run source)
      ((instr.yield world.instrWorld receiver).run target) := by
    rw [yields]
    exact Alike.perform agree.heap (fun _ => ⟨rfl, agree.performed action⟩) (agree.performed action)
  apply performed.bind
  intro value s _ t related
  obtain ⟨rfl, agreeAfter⟩ := related
  refine .ok ⟨agreeAfter.assignTemporary _ isTemporary, ?_⟩
  intro notReceiver
  rw [Operand.value, readVariable, if_neg notReceiver]
  exact congrArg some (setLocal_same t.locals name _).symm

/-- A call that returns nothing leaves nothing. -/
theorem alike_discarded {temporary : String → Prop} {action : SourceAction Value} {call : Call}
    {source target : RunState String Value (SourceAction Value) Heap}
    (denotes : call.action? world.instrWorld receiver target.locals = some action)
    (agree : AgreeOff temporary source target) :
    Alike (fun value? s _ t => AgreeOff temporary s t ∧ value? = none) (AgreeOff temporary)
      ((RunM.perform world.toWorld action >>= fun _ => pure (none : Option Value)).run source)
      ((Instr.execAll world.instrWorld receiver [.call call]).run target) := by
  rw [Instr.execAll_cons, Instr.execAll_nil, bind_pure_unit, Instr.exec_call_of_action denotes]
  have performed : Alike (fun _ s _ t => AgreeOff temporary s t) (AgreeOff temporary)
      ((RunM.perform world.toWorld action).run source)
      ((RunM.perform world.toWorld action).run target) :=
    Alike.perform agree.heap (fun _ => agree.performed action) (agree.performed action)
  apply performed.bind
  intro _ s _ t agreeAfter
  exact .ok ⟨agreeAfter, rfl⟩

/-- The callee of a call is found, and the instructions of its target leave it there. -/
def SimulatesTarget (world : SourceWorld Value Heap) (symbols : Symbols) (receiver : Value)
    (temporary : String → Prop) (target : Node) (loweredTarget : LoweredTarget) : Prop :=
  ∀ ⦃source state : RunState String Value (SourceAction Value) Heap⦄,
    AgreeOff temporary source state →
      Alike (fun callee s _ t => AgreeOff temporary s t ∧
          callee = loweredTarget.callee world receiver t.locals)
        (AgreeOff temporary) ((target.runTarget world symbols receiver).run source)
        ((Instr.execAll world.instrWorld receiver loweredTarget.instrs).run state)

/-- The arguments of a call are evaluated, and their instructions leave the values in
the operands. -/
def SimulatesArgs (world : SourceWorld Value Heap) (symbols : Symbols) (receiver : Value)
    (temporary : String → Prop) (args : List Node) (loweredArgs : LoweredArgs) : Prop :=
  ∀ ⦃source target : RunState String Value (SourceAction Value) Heap⦄,
    AgreeOff temporary source target →
      Alike (fun values s _ t => AgreeOff temporary s t ∧
          values = loweredArgs.operands.map (Operand.value world.instrWorld receiver t.locals))
        (AgreeOff temporary) ((Node.runArgs world symbols receiver args).run source)
        ((Instr.execAll world.instrWorld receiver loweredArgs.instrs).run target)

/-- A call comes as far as its own action: callee and arguments are there. -/
theorem alike_call {before middle after : Temps} {target : Node} {args : List Node}
    {loweredTarget : LoweredTarget} {loweredArgs : LoweredArgs} {temporary : String → Prop}
    {next : Callee Value → List Value → RunM String Value (SourceAction Value) Heap (Option Value)}
    {instrs : List Instr} {source state : RunState String Value (SourceAction Value) Heap}
    {going : Option Value → RunState String Value (SourceAction Value) Heap → Unit →
      RunState String Value (SourceAction Value) Heap → Prop}
    (lowersTarget : LowersTarget symbols before target loweredTarget middle)
    (lowersArgs : LowersArgs symbols middle args loweredArgs after)
    (reserves : ∀ name ∈ target.names, name ∈ before.reserved)
    (simulatesTarget : SimulatesTarget world symbols receiver temporary target loweredTarget)
    (simulatesArgs : SimulatesArgs world symbols receiver temporary args loweredArgs)
    (agree : AgreeOff temporary source state)
    (goesOn : ∀ s t, AgreeOff temporary s t →
      Alike going (AgreeOff temporary)
        ((next (loweredTarget.callee world receiver t.locals)
          (loweredArgs.operands.map (Operand.value world.instrWorld receiver t.locals))).run s)
        ((Instr.execAll world.instrWorld receiver instrs).run t)) :
    Alike going (AgreeOff temporary)
      ((target.runTarget world symbols receiver >>= fun callee =>
        Node.runArgs world symbols receiver args >>= next callee).run source)
      ((Instr.execAll world.instrWorld receiver
        (loweredTarget.instrs ++ loweredArgs.instrs ++ instrs)).run state) := by
  rw [Instr.execAll_append, Instr.execAll_append, bind_assoc]
  apply (simulatesTarget agree).bind
  intro callee sTarget _ tTarget related
  obtain ⟨agreeTarget, rfl⟩ := related
  have framed := (simulatesArgs agreeTarget).framed fun _ assigned => lowersArgs.assigned_drew assigned
  apply framed.bind
  intro values s _ t related
  obtain ⟨⟨agreeArgs, rfl⟩, frame⟩ := related
  rw [← lowersTarget.callee_later reserves lowersArgs.extends frame]
  exact goesOn s t agreeArgs

mutual

/-- A lowered tree is simulated by its instructions, whatever else is drawn. -/
theorem Lowers.simulates {before after first last : Temps} {node : Node} {lowered : Lowered} :
    Lowers symbols before node lowered after → before.Extends first → last.Extends after →
      Faithful symbols before.reserved node.names node.parts →
        Simulates world symbols receiver (first.Drew last) node lowered
  | .int _ value, _, _, _, source, target, agree => by
    refine .ok ⟨agree, fun _ => ?_⟩
    exact congrArg some (world.literal_int value).symm
  | .bool _ value, _, _, _, source, target, agree => by
    refine .ok ⟨agree, fun _ => ?_⟩
    exact congrArg some (world.literal_bool value).symm
  | .varRef _ name ty, start, finish, faithful, source, target, agree => by
    have notTemporary : ¬first.Drew last name := by
      intro drew
      apply drew.not_reserved
      rw [finish.reserved_eq]
      exact faithful.reserves name (List.mem_singleton.2 rfl)
    refine .ok ⟨agree, fun _ => ?_⟩
    show some (readVariable receiver source.locals name ty) =
      some (readVariable receiver target.locals name ty)
    rw [readVariable, readVariable, agree.locals name notTemporary]
  | .receiver _, _, _, _, source, target, agree => .ok ⟨agree, fun _ => rfl⟩
  | .binary operator ty lowersLeft lowersRight, start, finish, faithful, source, target, agree => by
    have finishRight := finish.trans (.draw _)
    have simulatesLeft := lowersLeft.simulates start (finishRight.trans lowersRight.extends)
      faithful.inside.append.1
    have simulatesRight := lowersRight.simulates (lowersLeft.extends.trans start) finishRight
      (lowersLeft.extends.reserved_eq ▸ faithful.inside.append.2)
    have keptLeft := faithful.operands _ List.mem_cons_self
    have keptRight := faithful.operands _ (List.mem_cons_of_mem _ List.mem_cons_self)
    have isTemporary : first.Drew last _ := ((Temps.drew_draw _).extend finish).widen
      ((lowersRight.extends.trans lowersLeft.extends).trans start)
    rw [Node.run_binary, Lowered.computed, Instr.execAll_append, Instr.execAll_append,
      bind_assoc (Instr.execAll _ _ _)]
    apply (simulatesLeft.operand lowersLeft keptLeft agree).bind
    intro leftValue sLeft _ tLeft related
    obtain ⟨agreeLeft, rfl, -⟩ := related
    apply (simulatesRight.operand lowersRight keptRight agreeLeft).bind
    intro rightValue s _ t related
    obtain ⟨agreeRight, rfl, frame⟩ := related
    apply alike_computed _ isTemporary agreeRight
    rw [← lowersLeft.value_later faithful.inside.append.1.reserves lowersRight.extends frame]
    rfl
  | .callVoid lowersTarget lowersArgs void, start, finish, faithful, source, target, agree => by
    have simulatesTarget := lowersTarget.simulates start (finish.trans lowersArgs.extends)
      faithful.inside.append.1 fun notImport => faithful.operands _ (Node.target_mem_operands notImport)
    have simulatesArgs := lowersArgs.simulates (lowersTarget.extends.trans start) finish
      (lowersTarget.extends.reserved_eq ▸ faithful.inside.append.2)
      fun arg member => faithful.operands arg (Node.mem_operands_of_mem_args member)
    rw [Node.run_call, Lowered.ofInstrs]
    apply alike_call lowersTarget lowersArgs faithful.inside.append.1.reserves simulatesTarget simulatesArgs agree
    intro s t agreeBefore
    simp only [if_pos void]
    apply (alike_discarded (lowersTarget.action_invocation _ _ t.locals) agreeBefore).weaken
    intro value? s _ t related
    obtain ⟨agreeAfter, rfl⟩ := related
    exact ⟨agreeAfter, fun _ => rfl⟩
  | .callValue lowersTarget lowersArgs notVoid, start, finish, faithful, source, target, agree => by
    have finishArgs := finish.trans (.draw _)
    have simulatesTarget := lowersTarget.simulates start (finishArgs.trans lowersArgs.extends)
      faithful.inside.append.1 fun notImport => faithful.operands _ (Node.target_mem_operands notImport)
    have simulatesArgs := lowersArgs.simulates (lowersTarget.extends.trans start) finishArgs
      (lowersTarget.extends.reserved_eq ▸ faithful.inside.append.2)
      fun arg member => faithful.operands arg (Node.mem_operands_of_mem_args member)
    have isTemporary : first.Drew last _ := ((Temps.drew_draw _).extend finish).widen
      ((lowersArgs.extends.trans lowersTarget.extends).trans start)
    rw [Node.run_call, Lowered.computed]
    apply alike_call lowersTarget lowersArgs faithful.inside.append.1.reserves simulatesTarget simulatesArgs agree
    intro s t agreeBefore
    simp only [if_neg notVoid]
    apply alike_computed _ isTemporary agreeBefore
    exact Instr.yield_call_of_action (lowersTarget.action_invocation _ _ t.locals) notVoid
  | .assign name ty lowersValue, start, finish, faithful, source, target, agree => by
    have simulatesValue := lowersValue.simulates start finish faithful.inside.assigned
    have kept := faithful.operands _ List.mem_cons_self
    rw [Node.run_assign, Lowered.ofInstrs, Instr.execAll_append]
    apply (simulatesValue.operand lowersValue kept agree).bind
    intro assigned s _ t related
    obtain ⟨agreeValue, rfl, -⟩ := related
    exact .ok ⟨agreeValue.assign name _, fun _ => rfl⟩
  | .retVoid lowersValue, start, finish, faithful, source, target, agree => by
    have simulatesValue := lowersValue.simulates start finish faithful.inside
    rw [Node.run, Lowered.ofInstrs, Instr.execAll_append]
    apply (simulatesValue agree).bind
    intro value? s _ t related
    obtain ⟨agreeValue, -⟩ := related
    exact .error (by simp) agreeValue
  | .retValue notVoid lowersValue, start, finish, faithful, source, target, agree => by
    have simulatesValue := lowersValue.simulates start finish faithful.inside
    have kept := faithful.operands _ (Node.returned_mem_operands notVoid)
    rw [Node.run_ret world symbols receiver notVoid, Lowered.ofInstrs, Instr.execAll_append]
    apply (simulatesValue.operand lowersValue kept agree).bind
    intro returned s _ t related
    obtain ⟨agreeValue, rfl, -⟩ := related
    rw [Instr.execAll_cons, Instr.exec]
    simp only [if_neg notVoid]
    exact .error (by simp) agreeValue
  | .retBare _ ty, _, _, _, source, target, agree => by
    rw [Node.run, Lowered.ofInstrs, Instr.execAll_cons, Instr.exec]
    simp only [Option.map_none, ite_self]
    exact .error (by simp) agree
  | .block lowersChildren, start, finish, faithful, source, target, agree => by
    have simulatesChildren := lowersChildren.simulates start finish faithful.inside agree
    rw [Node.run]
    apply simulatesChildren.mapLeft
    intro _ s _ t agreeChildren
    exact ⟨none, rfl, agreeChildren, fun _ => rfl⟩

theorem LowersTarget.simulates {before after first last : Temps} {target : Node}
    {loweredTarget : LoweredTarget} :
    LowersTarget symbols before target loweredTarget after → before.Extends first →
      last.Extends after → Faithful symbols before.reserved target.names target.parts →
        (target.staticTarget? symbols = none → target.ResultKept symbols) →
          SimulatesTarget world symbols receiver (first.Drew last) target loweredTarget
  | .imported names, _, _, _, _, source, state, agree => by
    rw [Node.runTarget, names]
    exact .ok ⟨agree, rfl⟩
  | .object namesNone lowers, start, finish, faithful, kept, source, state, agree => by
    have simulates := lowers.simulates start finish faithful
    rw [Node.runTarget_object world symbols receiver namesNone]
    apply (simulates.operand lowers (kept namesNone) agree).mapLeft
    intro value s _ t related
    obtain ⟨agreeTarget, rfl, -⟩ := related
    exact ⟨_, rfl, agreeTarget, rfl⟩

theorem LowersArgs.simulates {before after first last : Temps} {args : List Node}
    {loweredArgs : LoweredArgs} :
    LowersArgs symbols before args loweredArgs after → before.Extends first → last.Extends after →
      Faithful symbols before.reserved (Node.namesOfList args) (Node.partsOfList args) →
        (∀ arg ∈ args, arg.ResultKept symbols) →
          SimulatesArgs world symbols receiver (first.Drew last) args loweredArgs
  | .nil _, _, _, _, _, source, target, agree => .ok ⟨agree, rfl⟩
  | .cons lowersArg lowersRest, start, finish, faithful, kept, source, target, agree => by
    have simulatesArg := lowersArg.simulates start (finish.trans lowersRest.extends) faithful.append.1
    have simulatesRest := lowersRest.simulates (lowersArg.extends.trans start) finish
      (lowersArg.extends.reserved_eq ▸ faithful.append.2)
      fun later member => kept later (List.mem_cons_of_mem _ member)
    rw [Node.runArgs_cons, Instr.execAll_append]
    apply (simulatesArg.operand lowersArg (kept _ List.mem_cons_self) agree).bind
    intro argValue sArg _ tArg related
    obtain ⟨agreeArg, rfl, -⟩ := related
    have framed := (simulatesRest agreeArg).framed fun _ assigned => lowersRest.assigned_drew assigned
    apply framed.mapLeft
    intro values s _ t related
    obtain ⟨⟨agreeRest, rfl⟩, frame⟩ := related
    refine ⟨_, rfl, agreeRest, ?_⟩
    rw [List.map_cons, lowersArg.value_later faithful.append.1.reserves lowersRest.extends frame]

/-- Lowered statements are simulated by their instructions. -/
theorem LowersAll.simulates {before after first last : Temps} {statements : List Node}
    {instrs : List Instr} {source target : RunState String Value (SourceAction Value) Heap} :
    LowersAll symbols before statements instrs after → before.Extends first → last.Extends after →
      Faithful symbols before.reserved (Node.namesOfList statements) (Node.partsOfList statements) →
        AgreeOff (first.Drew last) source target →
          Alike (fun _ s _ t => AgreeOff (first.Drew last) s t) (AgreeOff (first.Drew last))
            ((Node.runAll world symbols receiver statements).run source)
            ((Instr.execAll world.instrWorld receiver instrs).run target)
  | .nil _, _, _, _, agree => .ok agree
  | .cons lowersStatement lowersRest, start, finish, faithful, agree => by
    have simulatesStatement := lowersStatement.simulates start (finish.trans lowersRest.extends)
      faithful.append.1
    rw [Node.runAll, Instr.execAll_append]
    apply (simulatesStatement agree).bind
    intro value? s _ t related
    obtain ⟨agreeStatement, -⟩ := related
    exact lowersRest.simulates (lowersStatement.extends.trans start) finish
      (lowersStatement.extends.reserved_eq ▸ faithful.append.2) agreeStatement

end

end Simulation

theorem AgreeOff.refl {Action : Type} (temporary : String → Prop)
    (state : RunState String Value Action Heap) : AgreeOff temporary state state :=
  ⟨fun _ _ => rfl, rfl, rfl, rfl⟩

/-- Lowering preserves the meaning of method bodies. The instructions perform the
actions of the body in its order and end as it does, and they leave the heap and all
names but the temporaries that were drawn as the body leaves them. -/
theorem lowerBody_preserves_meaning {before after : Temps} {body : List Node} {instrs : List Instr}
    (accepted : (Node.lowerBody symbols body).run before = .ok instrs after)
    (kept : ∀ part ∈ Node.partsOfList body, ∀ operand ∈ part.operands symbols,
      operand.ResultKept symbols)
    (world : SourceWorld Value Heap) (receiver : Value)
    (state : RunState String Value (SourceAction Value) Heap) :
    Alike (fun _ s _ t => AgreeOff ((before.reserveAll (Node.namesOfList body)).Drew after) s t)
      (AgreeOff ((before.reserveAll (Node.namesOfList body)).Drew after))
      ((Node.runAll world symbols receiver body).run state)
      ((Instr.execAll world.instrWorld receiver instrs).run state) := by
  have lowersAll := lowerBody_eq_ok_iff.1 accepted
  have faithful : Faithful symbols (before.reserveAll (Node.namesOfList body)).reserved
      (Node.namesOfList body) (Node.partsOfList body) :=
    ⟨fun name member => (before.mem_reserved_reserveAll _ name).2 (.inl member), kept⟩
  exact lowersAll.simulates (.refl _) (.refl _) faithful (.refl _ state)

/-- A world whose values are texts with a type, where a literal means itself and
every action gives the same answer. -/
def SourceWorld.answering (answer : String × Ty) : SourceWorld (String × Ty) Unit where
  effect := fun _ heap => (heap, some answer)
  int := fun value => (toString value.toInt, .int)
  bool := fun value => (if value then "1" else "0", .boolean)
  literal := Prod.mk
  literal_int := fun _ => rfl
  literal_bool := fun _ => rfl

/-- A state in which every local has its own name as its value. -/
def RunState.ofNames (Action : Type) : RunState String (String × Ty) Action Unit where
  locals := fun name => (name, .int)
  stack := []
  heap := ()
  trace := []

/-- A class with a method that returns an integer and one that returns its receiver. -/
def fluentSymbols : Symbols where
  className := "Builder"
  signatures := [⟨"size", [.int], .int⟩, ⟨"self", [], .receiver⟩]

/-- A body whose variable is called as temporaries are: `tmp0 = this.size(tmp0) + tmp0`. -/
def sizeSumBody : List Node :=
  [.assign "tmp0" .int (.binary .add (.call .receiver "size" [.varRef "tmp0" .int])
    (.varRef "tmp0" .int) .int)]

/-- The instructions of the sum, whose temporaries pass over the name of the variable. -/
def sizeSumInstrs : List Instr :=
  [.assign (.variable "tmp1" .int) (.call
      { kind := .virtual, target := .receiver, method? := some "size",
        args := [.variable "tmp0" .int], result := .int }),
    .assign (.variable "tmp2" .int)
      (.binary .add (.variable "tmp1" .int) (.variable "tmp0" .int) .int),
    .assign (.variable "tmp0" .int) (.single (.variable "tmp2" .int))]

theorem lowerBody_preserves_meaning_of_sum :
    (Node.lowerBody fluentSymbols sizeSumBody).run {} =
      .ok sizeSumInstrs { next := 3, reserved := ["tmp0"] } ∧
    Alike (fun _ s _ t => AgreeOff ((Temps.reserveAll {} (Node.namesOfList sizeSumBody)).Drew
        { next := 3, reserved := ["tmp0"] }) s t)
      (AgreeOff ((Temps.reserveAll {} (Node.namesOfList sizeSumBody)).Drew
        { next := 3, reserved := ["tmp0"] }))
      ((Node.runAll (.answering ("7", .int)) fluentSymbols ("this", .receiver) sizeSumBody).run
        (.ofNames _))
      ((Instr.execAll (SourceWorld.answering ("7", .int)).instrWorld ("this", .receiver)
        sizeSumInstrs).run (.ofNames _)) := by
  have accepted : (Node.lowerBody fluentSymbols sizeSumBody).run {} =
      .ok sizeSumInstrs { next := 3, reserved := ["tmp0"] } := rfl
  refine ⟨accepted, lowerBody_preserves_meaning accepted ?_ _ _ _⟩
  simp [sizeSumBody, Node.partsOfList, Node.parts, Node.operands, Node.staticTarget?, Node.ResultKept,
    fluentSymbols, Symbols.resultOf, Symbols.result?, Symbols.signature?]

/-- A body that returns what a method of another object returns. -/
def otherSelfBody : List Node :=
  [.ret (.call (.varRef "other" (.classRef "Builder")) "self" []) (.classRef "Builder")]

def otherSelfInstrs : List Instr :=
  [.assign (.variable "tmp0" .receiver) (.call
      { kind := .virtual, target := .variable "other" (.classRef "Builder"),
        method? := some "self", args := [], result := .receiver }),
    .ret (.classRef "Builder") (some (.variable "tmp0" .receiver))]

/-- The result of a method that returns its receiver is lost: the temporary that takes
it is read as the receiver of the caller. -/
theorem lowerBody_loses_receiver_result :
    (Node.lowerBody fluentSymbols otherSelfBody).run {} =
      .ok otherSelfInstrs { next := 1, reserved := ["other"] } ∧
    ¬Alike (fun _ s _ t => AgreeOff ((Temps.reserveAll {} (Node.namesOfList otherSelfBody)).Drew
        { next := 1, reserved := ["other"] }) s t)
      (AgreeOff ((Temps.reserveAll {} (Node.namesOfList otherSelfBody)).Drew
        { next := 1, reserved := ["other"] }))
      ((Node.runAll (.answering ("other", .receiver)) fluentSymbols ("this", .receiver)
        otherSelfBody).run (.ofNames _))
      ((Instr.execAll (SourceWorld.answering ("other", .receiver)).instrWorld ("this", .receiver)
        otherSelfInstrs).run (.ofNames _)) := by
  refine ⟨rfl, ?_⟩
  intro alike
  have treeEnds : ∃ state, (Node.runAll (.answering ("other", .receiver)) fluentSymbols
      ("this", .receiver) otherSelfBody).run (.ofNames _) =
        .error (.returned (some ("other", .receiver))) state := ⟨_, rfl⟩
  have instrsEnd : ∃ state, (Instr.execAll (SourceWorld.answering ("other", .receiver)).instrWorld
      ("this", .receiver) otherSelfInstrs).run (.ofNames _) =
        .error (.returned (some ("this", .receiver))) state := ⟨_, rfl⟩
  rcases treeEnds with ⟨treeState, treeEnd⟩
  rcases instrsEnd with ⟨instrsState, instrsEnd⟩
  rw [treeEnd, instrsEnd] at alike
  exact absurd alike.ending_eq (by decide)

end Stackwright
