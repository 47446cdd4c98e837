import Stackwright.Proofs.Generation.Acceptance
import Stackwright.Proofs.Lowering.Footprint

/-!
Contract: exactly which lowered bodies have machine code.

Owns: the conditions on trees under which the instructions that they are lowered to have
code, and that nothing else can be wrong with these instructions. Their shape is always
right: a value that is assigned is one that can be, a target is a variable, and a call
that is used as a value returns one.

What is asked of a tree is asked of its parts one by one. That a temporary can be loaded
is not asked again, because it was stored before.
-/

namespace Stackwright

namespace Node

/-- A variable that is read has a slot and is no `void`; the receiver needs no slot. -/
def Readable (scope : Scope) : Node → Prop
  | .varRef name ty => ty = .receiver ∨ scope.Binds name ∧ ty ≠ .void
  | _ => True

/-- What is asked of a tree apart from its operands. -/
def FormCompiles (symbols : Symbols) (scope : Scope) : Node → Prop
  | .binary operator _ _ ty => operator ≠ .less ∧ ty ≠ .void ∧ ty ≠ .receiver
  | .call target method args =>
    (target.staticTarget? symbols = none → ∀ ty, target.resultType? symbols = some ty →
      (ty.resolve scope.className).OwnsMembers) ∧
    (∀ arg ∈ args, ∀ ty, arg.resultType? symbols = some ty → ¬ty.IsVoidArray) ∧
    ¬(symbols.resultOf method).IsVoidArray ∧ symbols.resultOf method ≠ .receiver
  | .assign name ty _ => scope.Binds name ∧ ty ≠ .void ∧ ty ≠ .receiver
  | .retBare ty => ty = .void
  | _ => True

/-- What is asked of a tree itself, the trees in it apart. -/
def Compiles (symbols : Symbols) (scope : Scope) (node : Node) : Prop :=
  (∀ operand ∈ node.operands symbols, operand.Readable scope) ∧ node.FormCompiles symbols scope

/-- A target that names an import is a variable, and nothing is asked of it. -/
theorem parts_of_staticTarget {symbols : Symbols} {target : Node} {path : String}
    (names : target.staticTarget? symbols = some path) : target.parts = [target] := by
  cases target with
  | varRef name ty => rfl
  | int | bool | receiver | binary | call | assign | ret | retBare | block => cases names

theorem compiles_of_staticTarget {symbols : Symbols} {scope : Scope} {target : Node} {path : String}
    (names : target.staticTarget? symbols = some path) : target.Compiles symbols scope := by
  cases target with
  | varRef name ty => exact ⟨nofun, trivial⟩
  | int | bool | receiver | binary | call | assign | ret | retBare | block => cases names

end Node

/-- What is asked of trees with all their parts, and of the temporaries drawn for them. -/
def PartsCompile (symbols : Symbols) (scope : Scope) (parts : List Node) (before after : Temps) : Prop :=
  (∀ part ∈ parts, part.Compiles symbols scope) ∧ ∀ name, before.Drew after name → scope.Binds name

section Acceptance

variable {symbols : Symbols} {scope : Scope}

theorem PartsCompile.append_iff {first second : List Node} {before middle after : Temps}
    (later : after.Extends middle) (earlier : middle.Extends before) :
    PartsCompile symbols scope (first ++ second) before after ↔
      PartsCompile symbols scope first before middle ∧ PartsCompile symbols scope second middle after := by
  unfold PartsCompile
  rw [List.forall_mem_append]
  constructor
  · intro conditions
    obtain ⟨⟨firstParts, secondParts⟩, drawn⟩ := conditions
    exact ⟨⟨firstParts, fun name drew => drawn name (drew.extend later)⟩,
      secondParts, fun name drew => drawn name (drew.widen earlier)⟩
  · intro conditions
    obtain ⟨⟨firstParts, drawnFirst⟩, secondParts, drawnSecond⟩ := conditions
    refine ⟨⟨firstParts, secondParts⟩, fun name drew => ?_⟩
    rcases drew.split later with drewFirst | drewSecond
    · exact drawnFirst name drewFirst
    · exact drawnSecond name drewSecond

theorem PartsCompile.cons_iff {node : Node} {parts : List Node} {before after : Temps} :
    PartsCompile symbols scope (node :: parts) before after ↔
      node.Compiles symbols scope ∧ PartsCompile symbols scope parts before after := by
  rw [PartsCompile, List.forall_mem_cons, and_assoc, ← PartsCompile]

theorem PartsCompile.draw_iff {parts : List Node} {before after : Temps}
    (earlier : after.Extends before) :
    PartsCompile symbols scope parts before after.draw.2 ↔
      PartsCompile symbols scope parts before after ∧ scope.Binds after.draw.1 := by
  constructor
  · intro conditions
    obtain ⟨compile, drawn⟩ := conditions
    exact ⟨⟨compile, fun name drew => drawn name (drew.extend (.draw after))⟩,
      drawn _ (after.drew_draw.widen earlier)⟩
  · intro conditions
    obtain ⟨⟨compile, drawn⟩, bound⟩ := conditions
    refine ⟨compile, fun name drew => ?_⟩
    rcases drew.split (.draw after) with drewBefore | drewLast
    · exact drawn name drewBefore
    · rw [Temps.eq_of_drew_draw drewLast]
      exact bound

theorem PartsCompile.nil (temps : Temps) : PartsCompile symbols scope [] temps temps :=
  ⟨fun _ member => absurd member List.not_mem_nil, fun name drew => absurd drew (temps.not_drew_self name)⟩

/-- An operand can be loaded if it is a variable of the tree that can be read. Any other
was stored before. -/
theorem Lowers.loadable_iff {before after : Temps} {node : Node} {operand : Operand}
    {instrs : List Instr} (lowers : Lowers symbols before node ⟨some operand, instrs⟩ after)
    (compile : PartsCompile symbols scope node.parts before after) :
    scope.Loadable operand ↔ node.Readable scope := by
  have self := compile.1 node node.mem_parts_self
  cases lowers with
  | int | bool => exact iff_of_true nofun trivial
  | varRef | receiver => exact Iff.rfl
  | binary operator ty lowersLeft lowersRight =>
    have drew := (Temps.drew_draw _).widen (lowersRight.extends.trans lowersLeft.extends)
    exact iff_of_true (.inr ⟨compile.2 _ drew, self.2.2.1⟩) trivial
  | callValue lowersTarget lowersArgs notVoid =>
    have drew := (Temps.drew_draw _).widen (lowersArgs.extends.trans lowersTarget.extends)
    exact iff_of_true (.inr ⟨compile.2 _ drew, notVoid⟩) trivial

theorem Lowers.argument_iff {before after : Temps} {node : Node} {operand : Operand}
    {instrs : List Instr} (lowers : Lowers symbols before node ⟨some operand, instrs⟩ after)
    (compile : PartsCompile symbols scope node.parts before after) :
    (scope.Loadable operand ∧ operand.ty.innermost ≠ .void) ↔
      node.Readable scope ∧ ∀ ty, node.resultType? symbols = some ty → ¬ty.IsVoidArray := by
  rw [← lowers.loadable_iff compile, ← lowers.value_ty]
  simp only [Option.map_some, Option.some.injEq, forall_eq']
  constructor
  · intro conditions
    obtain ⟨loadable, proper⟩ := conditions
    exact ⟨loadable, fun voidArray => proper voidArray.1⟩
  · intro conditions
    obtain ⟨loadable, proper⟩ := conditions
    exact ⟨loadable, fun comesToVoid => proper ⟨comesToVoid, loadable.ty_ne_void⟩⟩

theorem LowersArgs.arguments_iff {before after : Temps} {args : List Node} {loweredArgs : LoweredArgs}
    (lowersArgs : LowersArgs symbols before args loweredArgs after)
    (compile : PartsCompile symbols scope (Node.partsOfList args) before after) :
    (∀ operand ∈ loweredArgs.operands, scope.Loadable operand ∧ operand.ty.innermost ≠ .void) ↔
      ∀ arg ∈ args, arg.Readable scope ∧
        ∀ ty, arg.resultType? symbols = some ty → ¬ty.IsVoidArray := by
  induction args generalizing before loweredArgs with
  | nil =>
    cases lowersArgs
    exact iff_of_true (by simp) (by simp)
  | cons arg rest inductionHypothesis =>
    cases lowersArgs with
    | cons lowersArg lowersRest =>
      have both := (PartsCompile.append_iff lowersRest.extends lowersArg.extends).1 compile
      rw [List.forall_mem_cons, List.forall_mem_cons, lowersArg.argument_iff both.1,
        inductionHypothesis lowersRest both.2]

/-- A lowered call has code if its target and its arguments can be used. -/
theorem LowersTarget.callable_iff {before middle after : Temps} {target : Node} {args : List Node}
    {loweredTarget : LoweredTarget} {loweredArgs : LoweredArgs} {method : String}
    (lowersTarget : LowersTarget symbols before target loweredTarget middle)
    (lowersArgs : LowersArgs symbols middle args loweredArgs after)
    (compile : PartsCompile symbols scope (target.parts ++ Node.partsOfList args) before after) :
    (scope.Callable (loweredTarget.invocation symbols method loweredArgs.operands) ∧
        symbols.resultOf method ≠ .receiver) ↔
      (Node.call target method args).Compiles symbols scope := by
  have both := (PartsCompile.append_iff lowersArgs.extends lowersTarget.extends).1 compile
  have argsIff := lowersArgs.arguments_iff both.2
  cases lowersTarget with
  | imported names =>
    constructor
    · intro conditions
      obtain ⟨callable, notReceiver⟩ := conditions
      have arguments := argsIff.1 callable.args
      refine ⟨?_, ?_, ?_, callable.result, notReceiver⟩
      · simp only [Node.operands, names, Option.isSome_some, if_true]
        exact fun arg member => (arguments arg member).1
      · intro namesNone
        cases names.symm.trans namesNone
      · exact fun arg member => (arguments arg member).2
    · intro conditions
      obtain ⟨readable, -, proper, result, notReceiver⟩ := conditions
      refine ⟨⟨trivial, (fun isVirtual => by cases isVirtual), ?_, result⟩, notReceiver⟩
      apply argsIff.2
      exact fun arg member => ⟨readable arg (Node.mem_operands_of_mem_args member), proper arg member⟩
  | object namesNone lowers =>
    have loadableIff := lowers.loadable_iff both.1
    have resultTy := lowers.value_ty
    constructor
    · intro conditions
      obtain ⟨callable, notReceiver⟩ := conditions
      have arguments := argsIff.1 callable.args
      refine ⟨?_, ?_, ?_, callable.result, notReceiver⟩
      · simp only [Node.operands, namesNone, Option.isSome_none, Bool.false_eq_true, if_false,
          List.forall_mem_cons]
        exact ⟨loadableIff.1 (callable.target rfl), fun arg member => (arguments arg member).1⟩
      · intro _ ty hasTy
        cases resultTy.trans hasTy
        exact callable.owned
      · exact fun arg member => (arguments arg member).2
    · intro conditions
      obtain ⟨readable, owns, proper, result, notReceiver⟩ := conditions
      refine ⟨⟨owns namesNone _ resultTy.symm, fun _ => ?_, ?_, result⟩, notReceiver⟩
      · exact loadableIff.2 (readable target (Node.target_mem_operands namesNone))
      · apply argsIff.2
        exact fun arg member => ⟨readable arg (Node.mem_operands_of_mem_args member), proper arg member⟩

/-! The last instruction of a tree asks what is asked of the tree itself. -/

theorem Lowers.binary_compiles_iff {before middle after : Temps} {left right : Node}
    {leftOperand rightOperand : Operand} {leftInstrs rightInstrs : List Instr} {operator : Operator}
    {ty : Ty} {name : String}
    (lowersLeft : Lowers symbols before left ⟨some leftOperand, leftInstrs⟩ middle)
    (lowersRight : Lowers symbols middle right ⟨some rightOperand, rightInstrs⟩ after)
    (compile : PartsCompile symbols scope (left.parts ++ right.parts) before after) :
    ((operator ≠ .less ∧ scope.Loadable leftOperand ∧ scope.Loadable rightOperand) ∧
        scope.Storable name ty) ↔
      (Node.binary operator left right ty).Compiles symbols scope ∧ scope.Binds name := by
  have both := (PartsCompile.append_iff lowersRight.extends lowersLeft.extends).1 compile
  rw [lowersLeft.loadable_iff both.1, lowersRight.loadable_iff both.2]
  simp only [Node.Compiles, Node.FormCompiles, Node.operands, Scope.Storable, List.forall_mem_cons]
  grind

theorem LowersTarget.callVoid_compiles_iff {before middle after : Temps} {target : Node}
    {args : List Node} {loweredTarget : LoweredTarget} {loweredArgs : LoweredArgs} {method : String}
    (lowersTarget : LowersTarget symbols before target loweredTarget middle)
    (lowersArgs : LowersArgs symbols middle args loweredArgs after)
    (void : symbols.resultOf method = .void)
    (compile : PartsCompile symbols scope (target.parts ++ Node.partsOfList args) before after) :
    scope.Callable (loweredTarget.invocation symbols method loweredArgs.operands) ↔
      (Node.call target method args).Compiles symbols scope := by
  rw [← lowersTarget.callable_iff lowersArgs compile, void]
  simp

theorem LowersTarget.callValue_compiles_iff {before middle after : Temps} {target : Node}
    {args : List Node} {loweredTarget : LoweredTarget} {loweredArgs : LoweredArgs} {method name : String}
    (lowersTarget : LowersTarget symbols before target loweredTarget middle)
    (lowersArgs : LowersArgs symbols middle args loweredArgs after)
    (notVoid : symbols.resultOf method ≠ .void)
    (compile : PartsCompile symbols scope (target.parts ++ Node.partsOfList args) before after) :
    (scope.Callable (loweredTarget.invocation symbols method loweredArgs.operands) ∧
        scope.Storable name (symbols.resultOf method)) ↔
      (Node.call target method args).Compiles symbols scope ∧ scope.Binds name := by
  rw [← lowersTarget.callable_iff lowersArgs compile, Scope.Storable]
  grind

theorem Lowers.assign_compiles_iff {before after : Temps} {value : Node} {operand : Operand}
    {instrs : List Instr} {name : String} {ty : Ty}
    (lowersValue : Lowers symbols before value ⟨some operand, instrs⟩ after)
    (compile : PartsCompile symbols scope value.parts before after) :
    (scope.Loadable operand ∧ scope.Storable name ty) ↔
      (Node.assign name ty value).Compiles symbols scope := by
  rw [lowersValue.loadable_iff compile]
  simp [Node.Compiles, Node.FormCompiles, Node.operands, Scope.Storable]

theorem Lowers.ret_compiles_iff {before after : Temps} {value : Node} {operand : Operand}
    {instrs : List Instr} {ty : Ty} (notVoid : ty ≠ .void)
    (lowersValue : Lowers symbols before value ⟨some operand, instrs⟩ after)
    (compile : PartsCompile symbols scope value.parts before after) :
    scope.Loadable operand ↔ (Node.ret value ty).Compiles symbols scope := by
  rw [lowersValue.loadable_iff compile]
  simp [Node.Compiles, Node.FormCompiles, Node.operands, notVoid]

mutual

/-- The instructions of a tree have code exactly if its parts compile, and they never
have a wrong shape. -/
theorem Lowers.settles {before after : Temps} {node : Node} {lowered : Lowered} :
    Lowers symbols before node lowered after → Settles Fault.NotOfShape (scope.parts lowered.instrs)
      (PartsCompile symbols scope node.parts before after)
  | .int temps _ | .bool temps _ | .varRef temps _ _ | .receiver temps =>
    PartsCompile.cons_iff.2 ⟨⟨nofun, trivial⟩, .nil temps⟩
  | .binary operator ty lowersLeft lowersRight => by
    have earlier := lowersRight.extends.trans lowersLeft.extends
    have settlesBoth := (scope.settles_parts_append lowersLeft.settles fun _ => lowersRight.settles).congr
      (PartsCompile.append_iff lowersRight.extends lowersLeft.extends).symm
    apply Settles.congr (scope.settles_parts_append settlesBoth fun compile =>
      (scope.settles_parts_one (scope.settles_assign_binary _ ty ty operator _ _)).congr
        (lowersLeft.binary_compiles_iff lowersRight compile))
    rw [Node.parts, PartsCompile.cons_iff, PartsCompile.draw_iff earlier, and_left_comm]
  | .callVoid lowersTarget lowersArgs void => by
    have settlesBoth := (scope.settles_parts_append lowersTarget.settles fun _ => lowersArgs.settles).congr
      (PartsCompile.append_iff lowersArgs.extends lowersTarget.extends).symm
    apply Settles.congr (scope.settles_parts_append settlesBoth fun compile =>
      (scope.settles_parts_one (scope.settles_call rfl lowersTarget.kind)).congr
        (lowersTarget.callVoid_compiles_iff lowersArgs void compile))
    rw [Node.parts, PartsCompile.cons_iff, and_comm]
  | .callValue lowersTarget lowersArgs notVoid => by
    have earlier := lowersArgs.extends.trans lowersTarget.extends
    have settlesBoth := (scope.settles_parts_append lowersTarget.settles fun _ => lowersArgs.settles).congr
      (PartsCompile.append_iff lowersArgs.extends lowersTarget.extends).symm
    apply Settles.congr (scope.settles_parts_append settlesBoth fun compile =>
      (scope.settles_parts_one (scope.settles_assign_call _ _ rfl lowersTarget.kind notVoid)).congr
        (lowersTarget.callValue_compiles_iff lowersArgs notVoid compile))
    rw [Node.parts, PartsCompile.cons_iff, PartsCompile.draw_iff earlier, and_left_comm]
  | .assign name ty lowersValue => by
    apply Settles.congr (scope.settles_parts_append lowersValue.settles fun compile =>
      (scope.settles_parts_one (scope.settles_assign_single name ty _)).congr
        (lowersValue.assign_compiles_iff compile))
    rw [Node.parts, PartsCompile.cons_iff, and_comm]
  | .retVoid lowersValue => by
    apply Settles.congr (scope.settles_parts_append lowersValue.settles fun _ =>
      scope.settles_parts_one (scope.settles_ret_void none))
    rw [Node.parts, PartsCompile.cons_iff]
    simp [Node.Compiles, Node.FormCompiles, Node.operands]
  | .retValue notVoid lowersValue => by
    apply Settles.congr (scope.settles_parts_append lowersValue.settles fun compile =>
      (scope.settles_parts_one (scope.settles_ret_value notVoid _)).congr
        (lowersValue.ret_compiles_iff notVoid compile))
    rw [Node.parts, PartsCompile.cons_iff, and_comm]
  | .retBare temps ty => by
    apply Settles.congr (scope.settles_parts_one (scope.settles_ret_bare ty))
    rw [Node.parts, PartsCompile.cons_iff]
    simp [Node.Compiles, Node.FormCompiles, Node.operands, PartsCompile.nil]
  | .block lowersChildren => by
    apply lowersChildren.settles.congr
    rw [Node.parts, PartsCompile.cons_iff]
    simp [Node.Compiles, Node.FormCompiles, Node.operands]

theorem LowersTarget.settles {before after : Temps} {target : Node} {loweredTarget : LoweredTarget} :
    LowersTarget symbols before target loweredTarget after →
      Settles Fault.NotOfShape (scope.parts loweredTarget.instrs)
        (PartsCompile symbols scope target.parts before after)
  | .imported names => by
    rw [Node.parts_of_staticTarget names]
    exact PartsCompile.cons_iff.2 ⟨Node.compiles_of_staticTarget names, .nil _⟩
  | .object _ lowers => lowers.settles

theorem LowersArgs.settles {before after : Temps} {args : List Node} {loweredArgs : LoweredArgs} :
    LowersArgs symbols before args loweredArgs after →
      Settles Fault.NotOfShape (scope.parts loweredArgs.instrs)
        (PartsCompile symbols scope (Node.partsOfList args) before after)
  | .nil temps => .nil temps
  | .cons lowersArg lowersRest =>
    (scope.settles_parts_append lowersArg.settles fun _ => lowersRest.settles).congr
      (PartsCompile.append_iff lowersRest.extends lowersArg.extends).symm

/-- The instructions of statements have code exactly if the parts of these compile. -/
theorem LowersAll.settles {before after : Temps} {statements : List Node} {instrs : List Instr} :
    LowersAll symbols before statements instrs after →
      Settles Fault.NotOfShape (scope.parts instrs)
        (PartsCompile symbols scope (Node.partsOfList statements) before after)
  | .nil temps => .nil temps
  | .cons lowersStatement lowersRest =>
    (scope.settles_parts_append lowersStatement.settles fun _ => lowersRest.settles).congr
      (PartsCompile.append_iff lowersRest.extends lowersStatement.extends).symm

end

end Acceptance

/-- The tree is an operand in a body: a part of the body uses its value. -/
def Node.IsOperandIn (symbols : Symbols) (body : List Node) (node : Node) : Prop :=
  ∃ part ∈ Node.partsOfList body, node ∈ part.operands symbols

/-- What a body needs to have machine code once it is lowered, with the temporaries that
were drawn for it. -/
structure HasCode (symbols : Symbols) (scope : Scope) (temporary : String → Prop)
    (body : List Node) : Prop where
  noLess : ∀ left right ty, .binary .less left right ty ∉ Node.partsOfList body
  assignedBound : ∀ name ty value, .assign name ty value ∈ Node.partsOfList body → scope.Binds name
  temporariesBound : ∀ name, temporary name → scope.Binds name
  readBound : ∀ name ty, (Node.varRef name ty).IsOperandIn symbols body → ty ≠ .receiver →
    scope.Binds name
  readNotVoid : ∀ name ty, (Node.varRef name ty).IsOperandIn symbols body → ty ≠ .void
  assignedTy : ∀ name ty value, .assign name ty value ∈ Node.partsOfList body →
    ty ≠ .void ∧ ty ≠ .receiver
  binaryTy : ∀ operator left right ty, .binary operator left right ty ∈ Node.partsOfList body →
    ty ≠ .void ∧ ty ≠ .receiver
  resultNotReceiver : ∀ target method args, .call target method args ∈ Node.partsOfList body →
    symbols.resultOf method ≠ .receiver
  receiverOwns : ∀ target method args ty, .call target method args ∈ Node.partsOfList body →
    target.staticTarget? symbols = none → target.resultType? symbols = some ty →
      (ty.resolve scope.className).OwnsMembers
  argumentEncodable : ∀ target method args, .call target method args ∈ Node.partsOfList body →
    ∀ arg ∈ args, ∀ ty, arg.resultType? symbols = some ty → ¬ty.IsVoidArray
  resultEncodable : ∀ target method args, .call target method args ∈ Node.partsOfList body →
    ¬(symbols.resultOf method).IsVoidArray
  returnHasValue : ∀ ty, .retBare ty ∈ Node.partsOfList body → ty = .void

/-- The conditions on a body are those on its parts, one by one. -/
theorem partsCompile_iff_hasCode {symbols : Symbols} {scope : Scope} {body : List Node}
    {before after : Temps} :
    PartsCompile symbols scope (Node.partsOfList body) before after ↔
      HasCode symbols scope (before.Drew after) body := by
  constructor
  · intro conditions
    obtain ⟨compile, drawn⟩ := conditions
    have readable : ∀ name ty, (Node.varRef name ty).IsOperandIn symbols body →
        ty = .receiver ∨ scope.Binds name ∧ ty ≠ .void := by
      intro name ty isRead
      obtain ⟨part, member, isOperand⟩ := isRead
      exact (compile part member).1 _ isOperand
    exact {
      noLess := fun left right ty member => (compile _ member).2.1 rfl
      assignedBound := fun name ty value member => (compile _ member).2.1
      temporariesBound := drawn
      readBound := fun name ty isOperand notReceiver =>
        ((readable name ty isOperand).resolve_left notReceiver).1
      readNotVoid := by
        rintro name ty isOperand rfl
        rcases readable name .void isOperand with isReceiver | ⟨-, notVoid⟩
        · cases isReceiver
        · exact notVoid rfl
      assignedTy := fun name ty value member => (compile _ member).2.2
      binaryTy := fun operator left right ty member => (compile _ member).2.2
      resultNotReceiver := fun target method args member => (compile _ member).2.2.2.2
      receiverOwns := fun target method args ty member namesNone hasTy =>
        (compile _ member).2.1 namesNone ty hasTy
      argumentEncodable := fun target method args member => (compile _ member).2.2.1
      resultEncodable := fun target method args member => (compile _ member).2.2.2.1
      returnHasValue := fun ty member => (compile _ member).2 }
  · intro hasCode
    refine ⟨fun part member => ⟨fun operand isOperand => ?_, ?_⟩, hasCode.temporariesBound⟩
    · cases operand with
      | varRef name ty =>
        have inBody : (Node.varRef name ty).IsOperandIn symbols body := ⟨part, member, isOperand⟩
        by_cases isReceiver : ty = .receiver
        · exact .inl isReceiver
        · exact .inr ⟨hasCode.readBound name ty inBody isReceiver, hasCode.readNotVoid name ty inBody⟩
      | int | bool | receiver | binary | call | assign | ret | retBare | block => exact trivial
    · cases part with
      | binary operator left right ty =>
        refine ⟨?_, hasCode.binaryTy _ _ _ _ member⟩
        rintro rfl
        exact hasCode.noLess _ _ _ member
      | call target method args =>
        exact ⟨fun namesNone ty hasTy => hasCode.receiverOwns _ _ _ ty member namesNone hasTy,
          hasCode.argumentEncodable _ _ _ member, hasCode.resultEncodable _ _ _ member,
          hasCode.resultNotReceiver _ _ _ member⟩
      | assign name ty value =>
        exact ⟨hasCode.assignedBound _ _ _ member, hasCode.assignedTy _ _ _ member⟩
      | retBare ty => exact hasCode.returnHasValue ty member
      | int | bool | varRef | receiver | ret | block => exact trivial

/-- Lowering and code generation agree on the language between them. Code generation
never finds a shape that it does not know in lowered instructions, and it succeeds
exactly if the body has what it needs. -/
theorem Method.code_lowered_iff {symbols : Symbols} {body : List Node} {before after : Temps}
    {instrs : List Instr}
    (accepted : (Node.lowerBody symbols body).run before = .ok instrs after)
    (method : Method) (className : String) :
    (∀ fault, ({ method with instrs } : Method).code className = .error fault →
        ∀ defect, fault.root ≠ .unsupportedShape defect) ∧
      ((∃ code, ({ method with instrs } : Method).code className = .ok code) ↔
        HasCode symbols (method.scope className)
          ((before.reserveAll (Node.namesOfList body)).Drew after) body) := by
  have lowersAll := lowerBody_eq_ok_iff.1 accepted
  have settles : Settles Fault.NotOfShape (({ method with instrs } : Method).code className)
      (PartsCompile symbols (method.scope className) (Node.partsOfList body)
        (before.reserveAll (Node.namesOfList body)) after) :=
    Method.settles_code lowersAll.settles
  exact ⟨fun fault failed => settles.form_of_error failed,
    settles.ok_iff.trans partsCompile_iff_hasCode⟩

/-- The symbols of a class that prints to an imported console. -/
def greeterSymbols : Symbols where
  className := "Greeter"
  imports := ["io.Console"]
  signatures := [⟨"length", [.string], .int⟩]

/-- A body that prints the length of a name, increased by one. -/
def greetBody : List Node :=
  [.call (.varRef "Console" (.classRef "Console")) "print"
    [.binary .add (.call .receiver "length" [.varRef "name" .string]) (.int 1) .int]]

/-- The method of that body, with slots for its two temporaries. -/
def greetMethod : Method where
  name := "greet"
  params := [⟨"name", .string⟩]
  result := .void
  table := FrameTable.layout false [⟨"name", .string⟩] [⟨"tmp0", .int⟩, ⟨"tmp1", .int⟩]

theorem Method.code_lowered_iff_of_greet :
    (Node.lowerBody greeterSymbols greetBody).run {} =
      .ok [.assign (.variable "tmp0" .int) (.call
          { kind := .virtual, target := .receiver, method? := some "length",
            args := [.variable "name" .string], result := .int }),
        .assign (.variable "tmp1" .int) (.binary .add (.variable "tmp0" .int) (.int 1) .int),
        .call
          { kind := .static, target := .variable "io.Console" (.classRef "io.Console"),
            method? := some "print", args := [.variable "tmp1" .int], result := .void }]
        { next := 2, reserved := ["name", "Console"] } ∧
    HasCode greeterSymbols (greetMethod.scope "Greeter")
      ((Temps.reserveAll {} (Node.namesOfList greetBody)).Drew
        { next := 2, reserved := ["name", "Console"] }) greetBody := by
  refine ⟨rfl, ?_⟩
  exact (Method.code_lowered_iff rfl greetMethod "Greeter").2.1 ⟨_, rfl⟩

end Stackwright
