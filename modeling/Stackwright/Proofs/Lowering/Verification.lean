import Stackwright.Proofs.Generation.Verification
import Stackwright.Proofs.Lowering.Footprint
import Stackwright.Proofs.Machine.Depth
import Stackwright.Proofs.Tree.Kinds

/-!
Contract: kinds survive lowering and code generation.

Owns:
- the instructions of trees that use values by their kinds fit what is known of the
  variables;
- the code of a kind-correct body passes the verifier.

What is known of a variable is carried along a body from where it is assigned. The
temporaries need no such care, since each is read right after the tree it was drawn for.
-/

namespace Stackwright

/-- Variables that are known hold values of their kinds. One whose name is not reserved
may have lost it to a temporary. -/
def KnowsKinds (kinds : String → Kind) (reserved known : List String) (held : String → Option Kind) :
    Prop :=
  ∀ name ∈ known, name ∈ reserved → held name = some (kinds name)

/-- An assignment to a temporary leaves everything known. -/
theorem KnowsKinds.draw {kinds : String → Kind} {reserved known : List String}
    {held : String → Option Kind} (knows : KnowsKinds kinds reserved known held) {temp : String}
    (free : temp ∉ reserved) (kind? : Option Kind) :
    KnowsKinds kinds reserved known (setLocal held temp kind?) := by
  intro name isKnown isReserved
  have different : name ≠ temp := fun same => free (same ▸ isReserved)
  rw [setLocal_other held kind? different]
  exact knows name isKnown isReserved

/-- An assignment by kind makes its variable known. -/
theorem KnowsKinds.assign {kinds : String → Kind} {reserved known : List String}
    {held : String → Option Kind} (knows : KnowsKinds kinds reserved known held) {assigned : String}
    {kind? : Option Kind} (hasKind : kind? = some (kinds assigned)) :
    KnowsKinds kinds reserved (assigned :: known) (setLocal held assigned kind?) := by
  intro name isKnown isReserved
  by_cases same : name = assigned
  · rw [same, setLocal_same]
    exact hasKind
  · rw [setLocal_other held kind? same]
    exact knows name ((List.mem_cons.1 isKnown).resolve_left same) isReserved

/-- What lowering needs of trees, by their parts, names and accesses: values are used by
their kinds, every type of a value is of a given form, names are reserved, and variables
are known where they are read. -/
structure KindReady (symbols : Symbols) (kinds : String → Kind) (formed : Ty → Prop) (result : Ty)
    (reserved known : List String) (parts : List Node) (names : List String)
    (accesses : List VariableAccess) : Prop where
  keepsKinds : ∀ part ∈ parts, part.KeepsKinds symbols kinds result
  typesFormed : ∀ part ∈ parts, ∀ ty, part.resultType? symbols = some ty → formed ty
  voidFormed : formed .void
  namesReserved : ∀ name ∈ names, name ∈ reserved
  readsKnown : ReadsKnown known accesses

section Lowering

variable {symbols : Symbols} {kinds : String → Kind} {formed : Ty → Prop} {result : Ty}
  {reserved known : List String} {held heldAfter : String → Option Kind}

namespace KindReady

theorem append {firstParts secondParts : List Node} {firstNames secondNames : List String}
    {firstAccesses secondAccesses : List VariableAccess}
    (ready : KindReady symbols kinds formed result reserved known (firstParts ++ secondParts)
      (firstNames ++ secondNames) (firstAccesses ++ secondAccesses)) :
    KindReady symbols kinds formed result reserved known firstParts firstNames firstAccesses ∧
      KindReady symbols kinds formed result reserved (knownAfter known firstAccesses) secondParts
        secondNames secondAccesses := by
  have keepsKinds := List.forall_mem_append.1 ready.keepsKinds
  have typesFormed := List.forall_mem_append.1 ready.typesFormed
  have namesReserved := List.forall_mem_append.1 ready.namesReserved
  have readsKnown := (readsKnown_append known firstAccesses secondAccesses).1 ready.readsKnown
  exact ⟨⟨keepsKinds.1, typesFormed.1, ready.voidFormed, namesReserved.1, readsKnown.1⟩,
    keepsKinds.2, typesFormed.2, ready.voidFormed, namesReserved.2, readsKnown.2⟩

theorem inside {node : Node} {parts : List Node} {names : List String} {accesses : List VariableAccess}
    (ready : KindReady symbols kinds formed result reserved known (node :: parts) names accesses) :
    KindReady symbols kinds formed result reserved known parts names accesses where
  keepsKinds part member := ready.keepsKinds part (List.mem_cons_of_mem node member)
  typesFormed part member := ready.typesFormed part (List.mem_cons_of_mem node member)
  voidFormed := ready.voidFormed
  namesReserved := ready.namesReserved
  readsKnown := ready.readsKnown

/-- A tree that is ready as an operand is ready in itself, and known if it is a variable. -/
theorem operand {node : Node}
    (ready : KindReady symbols kinds formed result reserved known node.parts node.names
      (node.accessesAsOperand (node.accesses symbols))) :
    KindReady symbols kinds formed result reserved known node.parts node.names (node.accesses symbols) ∧
      node.IsKnown known := by
  have both := (node.readsKnown_accessesAsOperand symbols known).1 ready.readsKnown
  exact ⟨{ ready with readsKnown := both.1 }, both.2⟩

theorem assigned {name : String} {ty : Ty} {value : Node}
    (ready : KindReady symbols kinds formed result reserved known (Node.assign name ty value).parts
      (Node.assign name ty value).names ((Node.assign name ty value).accesses symbols)) :
    KindReady symbols kinds formed result reserved known value.parts value.names
      (value.accessesAsOperand (value.accesses symbols)) where
  keepsKinds := ready.inside.keepsKinds
  typesFormed := ready.inside.typesFormed
  voidFormed := ready.voidFormed
  namesReserved other member := ready.namesReserved other (List.mem_cons_of_mem name member)
  readsKnown := ((readsKnown_append known _ [.write name ty]).1 ready.readsKnown).1

theorem resultFormed {target : Node} {method : String} {args parts : List Node}
    {names : List String} {accesses : List VariableAccess}
    (ready : KindReady symbols kinds formed result reserved known (.call target method args :: parts)
      names accesses) : formed (symbols.resultOf method) := by
  by_cases void : symbols.resultOf method = .void
  · rw [void]
    exact ready.voidFormed
  · exact ready.typesFormed _ List.mem_cons_self _ (if_neg void)

end KindReady

/-! ### Operands -/

/-- The operand of a tree fits after the instructions of the tree, if the tree is no
variable or a known one. -/
theorem Lowers.value_fits {before after : Temps} {node : Node} {operand : Operand} {instrs : List Instr}
    (lowers : Lowers symbols before node ⟨some operand, instrs⟩ after) (isKnown : node.IsKnown known)
    (ready : KindReady symbols kinds formed result reserved known node.parts node.names
      (node.accesses symbols))
    (reads : node.ReadsKind kinds) (knows : KnowsKinds kinds reserved known held)
    (fitsAll : FitsAll formed result.kind? held instrs heldAfter) : operand.Fits heldAfter := by
  cases lowers with
  | int _ value => exact literalKind_int value.toInt
  | bool _ value => exact literalKind_bool value
  | receiver => exact trivial
  | varRef _ name ty =>
    cases fitsAll
    rcases isKnown with isReceiver | isKnown
    · exact .inl isReceiver
    · have isReserved := ready.namesReserved name List.mem_cons_self
      exact .inr ((knows name isKnown isReserved).trans reads.symm)
  | binary operator ty lowersLeft lowersRight =>
    rcases fitsAll.exists_of_snoc with ⟨heldMiddle, rfl⟩
    exact .inr (setLocal_same heldMiddle _ ty.kind?)
  | callValue lowersTarget lowersArgs notVoid =>
    rcases fitsAll.exists_of_snoc with ⟨heldMiddle, rfl⟩
    exact .inr (setLocal_same heldMiddle _ _)

/-- The operand of a tree still fits after instructions of later trees with values. -/
theorem Lowers.value_stays {before after last : Temps} {node : Node} {operand : Operand}
    {instrs laterInstrs : List Instr} (lowers : Lowers symbols before node ⟨some operand, instrs⟩ after)
    (namesReserved : ∀ name ∈ node.names, name ∈ before.reserved) (later : last.Extends after)
    (drawn : ∀ name ∈ assignedNames laterInstrs, after.Drew last name)
    (fitsLater : FitsAll formed result.kind? held laterInstrs heldAfter) (fits : operand.Fits held) :
    operand.Fits heldAfter := by
  cases operand with
  | literal | receiver => exact fits
  | «variable» name ty =>
    rcases fits with isReceiver | holds
    · exact .inl isReceiver
    · have untouched : name ∉ assignedNames laterInstrs :=
        fun assigned => lowers.value_settled namesReserved rfl later (drawn name assigned)
      exact .inr ((fitsLater.kinds_eq untouched).trans holds)

theorem Lowers.value_kind {before after : Temps} {node : Node} {operand : Operand} {instrs : List Instr}
    (lowers : Lowers symbols before node ⟨some operand, instrs⟩ after) :
    operand.ty.kind? = node.resultKind? symbols := by
  rw [Node.resultKind?, ← lowers.value_ty]
  rfl

/-- To evaluate an operand takes its instructions, and it fits afterwards. -/
theorem Lowers.operand_fits {before after : Temps} {node : Node} {operand : Operand}
    {instrs : List Instr} (lowers : Lowers symbols before node ⟨some operand, instrs⟩ after)
    (fits : KindReady symbols kinds formed result reserved known node.parts node.names
        (node.accesses symbols) →
      ∃ heldAfter, FitsAll formed result.kind? held instrs heldAfter ∧
        KnowsKinds kinds reserved (knownAfter known (node.accesses symbols)) heldAfter)
    (ready : KindReady symbols kinds formed result reserved known node.parts node.names
      (node.accessesAsOperand (node.accesses symbols)))
    (reads : node.ReadsKind kinds) (knows : KnowsKinds kinds reserved known held) :
    ∃ heldAfter, FitsAll formed result.kind? held instrs heldAfter ∧
      KnowsKinds kinds reserved
        (knownAfter known (node.accessesAsOperand (node.accesses symbols))) heldAfter ∧
      operand.Fits heldAfter := by
  rcases ready.operand with ⟨readyInside, isKnown⟩
  rcases fits readyInside with ⟨heldAfter, fitsAll, knowsAfter⟩
  rw [Node.knownAfter_accessesAsOperand]
  exact ⟨heldAfter, fitsAll, knowsAfter, lowers.value_fits isKnown readyInside reads knows fitsAll⟩

/-- The target of a call still fits after the instructions of the arguments. -/
theorem LowersTarget.target_stays {before middle after : Temps} {target : Node} {args : List Node}
    {loweredTarget : LoweredTarget} {loweredArgs : LoweredArgs}
    (lowersTarget : LowersTarget symbols before target loweredTarget middle)
    (lowersArgs : LowersArgs symbols middle args loweredArgs after)
    (namesReserved : ∀ name ∈ target.names, name ∈ before.reserved)
    (fitsArgs : FitsAll formed result.kind? held loweredArgs.instrs heldAfter)
    (targetFits : loweredTarget.kind = .virtual →
      loweredTarget.operand.Fits held ∧ loweredTarget.operand.ty.kind? = some .reference) :
    loweredTarget.kind = .virtual →
      loweredTarget.operand.Fits heldAfter ∧ loweredTarget.operand.ty.kind? = some .reference := by
  intro isVirtual
  cases lowersTarget with
  | imported names => cases isVirtual
  | object namesNone lowers =>
    have drawn : ∀ name ∈ assignedNames loweredArgs.instrs, middle.Drew after name :=
      fun name assigned => lowersArgs.assigned_drew assigned
    have stays := lowers.value_stays namesReserved lowersArgs.extends drawn fitsArgs (targetFits rfl).1
    exact ⟨stays, (targetFits rfl).2⟩

/-- A call fits if its target, where it has one, and its arguments do. -/
theorem LowersTarget.invocation_fits {before middle after : Temps} {target : Node} {args : List Node}
    {loweredTarget : LoweredTarget} {loweredArgs : LoweredArgs} {method : String}
    (lowersTarget : LowersTarget symbols before target loweredTarget middle)
    (lowersArgs : LowersArgs symbols middle args loweredArgs after)
    (namesReserved : ∀ name ∈ target.names, name ∈ before.reserved)
    (fitsArgs : FitsAll formed result.kind? held loweredArgs.instrs heldAfter)
    (targetFits : loweredTarget.kind = .virtual →
      loweredTarget.operand.Fits held ∧ loweredTarget.operand.ty.kind? = some .reference)
    (argsFit : ∀ operand ∈ loweredArgs.operands, operand.Fits heldAfter ∧ formed operand.ty)
    (resultFormed : formed (symbols.resultOf method)) :
    (loweredTarget.invocation symbols method loweredArgs.operands).Fits formed heldAfter where
  makesNoObject := by
    unfold Instr.MakesNoObject LoweredTarget.invocation
    rcases lowersTarget.kind with isVirtual | isStatic
    · rw [isVirtual]
      exact ⟨nofun, nofun⟩
    · rw [isStatic]
      exact ⟨nofun, nofun⟩
  target := lowersTarget.target_stays lowersArgs namesReserved fitsArgs targetFits
  args := argsFit
  result := resultFormed

/-! ### Trees -/

mutual

/-- The instructions of a tree fit, and make known what is assigned in it. -/
theorem Lowers.fits {before after : Temps} {node : Node} {lowered : Lowered} {known : List String}
    {held : String → Option Kind} :
    Lowers symbols before node lowered after → before.reserved = reserved →
      KindReady symbols kinds formed result reserved known node.parts node.names
        (node.accesses symbols) →
      KnowsKinds kinds reserved known held →
      ∃ heldAfter, FitsAll formed result.kind? held lowered.instrs heldAfter ∧
        KnowsKinds kinds reserved (knownAfter known (node.accesses symbols)) heldAfter
  | .int _ _, _, _, knows | .bool _ _, _, _, knows | .varRef _ _ _, _, _, knows
  | .receiver _, _, _, knows => ⟨held, .nil held, knows⟩
  | .binary operator ty lowersLeft lowersRight, sameReserved, ready, knows => by
    rcases ready.keepsKinds _ List.mem_cons_self with ⟨reads, isInt, leftInt, rightInt⟩
    rw [Node.operands, List.forall_mem_cons, List.forall_mem_cons] at reads
    rcases ready.inside.append with ⟨readyLeft, readyRight⟩
    have sameMiddle := lowersLeft.extends.reserved_eq.trans sameReserved
    have sameAfter := lowersRight.extends.reserved_eq.trans sameMiddle
    rcases lowersLeft.operand_fits (fun ready => lowersLeft.fits sameReserved ready knows) readyLeft
      reads.1 knows with ⟨heldLeft, fitsLeft, knowsLeft, leftFits⟩
    rcases lowersRight.operand_fits (fun ready => lowersRight.fits sameMiddle ready knowsLeft) readyRight
      reads.2.1 knowsLeft with ⟨heldRight, fitsRight, knowsRight, rightFits⟩
    have leftStays := lowersLeft.value_stays (sameReserved ▸ readyLeft.namesReserved)
      lowersRight.extends (fun name assigned => lowersRight.assigned_drew rfl assigned) fitsRight leftFits
    rw [← lowersLeft.value_kind] at leftInt
    rw [← lowersRight.value_kind] at rightInt
    refine ⟨_, (fitsLeft.append fitsRight).snoc ⟨⟨leftStays, leftInt⟩, ⟨rightFits, rightInt⟩, isInt⟩, ?_⟩
    rw [Node.accesses, knownAfter_append]
    exact knowsRight.draw (sameAfter ▸ Temps.draw_not_reserved _) ty.kind?
  | .callVoid lowersTarget lowersArgs void, sameReserved, ready, knows => by
    have keepsKinds := ready.keepsKinds _ List.mem_cons_self
    rcases ready.inside.append with ⟨readyTarget, readyArgs⟩
    have sameMiddle := lowersTarget.extends.reserved_eq.trans sameReserved
    rcases lowersTarget.fits sameReserved readyTarget keepsKinds knows with
      ⟨heldTarget, fitsTarget, knowsTarget, targetFits⟩
    rcases lowersArgs.fits sameMiddle readyArgs
      (fun arg member => keepsKinds.reads arg (Node.mem_operands_of_mem_args member)) knowsTarget with
      ⟨heldArgs, fitsArgs, knowsArgs, argsFit⟩
    have callFits := lowersTarget.invocation_fits lowersArgs (sameReserved ▸ readyTarget.namesReserved)
      fitsArgs targetFits argsFit ready.resultFormed
    refine ⟨heldArgs, (fitsTarget.append fitsArgs).snoc callFits, ?_⟩
    rw [Node.accesses, knownAfter_append]
    exact knowsArgs
  | .callValue lowersTarget lowersArgs notVoid, sameReserved, ready, knows => by
    have keepsKinds := ready.keepsKinds _ List.mem_cons_self
    rcases ready.inside.append with ⟨readyTarget, readyArgs⟩
    have sameMiddle := lowersTarget.extends.reserved_eq.trans sameReserved
    have sameAfter := lowersArgs.extends.reserved_eq.trans sameMiddle
    rcases lowersTarget.fits sameReserved readyTarget keepsKinds knows with
      ⟨heldTarget, fitsTarget, knowsTarget, targetFits⟩
    rcases lowersArgs.fits sameMiddle readyArgs
      (fun arg member => keepsKinds.reads arg (Node.mem_operands_of_mem_args member)) knowsTarget with
      ⟨heldArgs, fitsArgs, knowsArgs, argsFit⟩
    have callFits := lowersTarget.invocation_fits lowersArgs (sameReserved ▸ readyTarget.namesReserved)
      fitsArgs targetFits argsFit ready.resultFormed
    refine ⟨_, (fitsTarget.append fitsArgs).snoc ⟨callFits, rfl⟩, ?_⟩
    rw [Node.accesses, knownAfter_append]
    exact knowsArgs.draw (sameAfter ▸ Temps.draw_not_reserved _) _
  | .assign name ty lowersValue, sameReserved, ready, knows => by
    rcases ready.keepsKinds _ List.mem_cons_self with ⟨reads, hasKind, valueKind⟩
    rcases lowersValue.operand_fits (fun ready => lowersValue.fits sameReserved ready knows)
      ready.assigned (reads _ List.mem_cons_self) knows with ⟨heldValue, fitsValue, knowsValue, valueFits⟩
    rw [← lowersValue.value_kind] at valueKind
    refine ⟨_, fitsValue.snoc ⟨valueFits, valueKind.trans hasKind.symm⟩, ?_⟩
    rw [Node.accesses, knownAfter_append]
    exact knowsValue.assign hasKind
  | .retVoid lowersValue, sameReserved, ready, knows => by
    have isResult := (ready.keepsKinds _ List.mem_cons_self).form.ret_kind
    rcases lowersValue.fits sameReserved ready.inside knows with ⟨heldValue, fitsValue, knowsValue⟩
    exact ⟨heldValue, fitsValue.snoc ⟨isResult.1, nofun⟩, knowsValue⟩
  | .retValue notVoid lowersValue, sameReserved, ready, knows => by
    rcases ready.keepsKinds _ List.mem_cons_self with ⟨reads, form⟩
    have isResult := form.ret_kind
    have readyValue := ready.inside
    rw [Node.accesses, if_neg notVoid] at readyValue ⊢
    rcases lowersValue.operand_fits (fun ready => lowersValue.fits sameReserved ready knows) readyValue
      (reads _ (Node.returned_mem_operands notVoid)) knows with
      ⟨heldValue, fitsValue, knowsValue, valueFits⟩
    have valueKind := lowersValue.value_kind.trans (isResult.2 notVoid)
    refine ⟨heldValue, fitsValue.snoc ⟨isResult.1, ?_⟩, knowsValue⟩
    intro value isValue
    cases isValue
    exact ⟨valueFits, valueKind⟩
  | .retBare temps ty, sameReserved, ready, knows => by
    have isVoid := (ready.keepsKinds _ List.mem_cons_self).form
    refine ⟨held, .cons ⟨?_, nofun⟩ (.nil held), knows⟩
    rw [isVoid.1, isVoid.2]
  | .block lowersChildren, sameReserved, ready, knows =>
    lowersChildren.fits sameReserved ready.inside knows

theorem LowersTarget.fits {before after : Temps} {target : Node} {loweredTarget : LoweredTarget}
    {method : String} {args : List Node} {known : List String} {held : String → Option Kind} :
    LowersTarget symbols before target loweredTarget after → before.reserved = reserved →
      KindReady symbols kinds formed result reserved known target.parts target.names
        (if (target.staticTarget? symbols).isSome then []
          else target.accessesAsOperand (target.accesses symbols)) →
      (Node.call target method args).KeepsKinds symbols kinds result →
      KnowsKinds kinds reserved known held →
      ∃ heldAfter, FitsAll formed result.kind? held loweredTarget.instrs heldAfter ∧
        KnowsKinds kinds reserved (knownAfter known
          (if (target.staticTarget? symbols).isSome then []
            else target.accessesAsOperand (target.accesses symbols))) heldAfter ∧
        (loweredTarget.kind = .virtual →
          loweredTarget.operand.Fits heldAfter ∧ loweredTarget.operand.ty.kind? = some .reference)
  | .imported names, _, ready, _, knows => by
    refine ⟨held, .nil held, ?_, nofun⟩
    rw [if_pos (Option.isSome_of_eq_some names)]
    exact knows
  | .object namesNone lowers, sameReserved, ready, keepsKinds, knows => by
    have notImport : ¬(target.staticTarget? symbols).isSome := by
      rw [namesNone]
      exact Bool.false_ne_true
    rw [if_neg notImport] at ready ⊢
    have reads := keepsKinds.reads target (Node.target_mem_operands namesNone)
    rcases lowers.operand_fits (fun ready => lowers.fits sameReserved ready knows) ready reads knows with
      ⟨heldAfter, fitsAll, knowsAfter, fits⟩
    refine ⟨heldAfter, fitsAll, knowsAfter, fun _ => ⟨fits, ?_⟩⟩
    rw [lowers.value_kind]
    exact keepsKinds.form namesNone

theorem LowersArgs.fits {before after : Temps} {args : List Node} {loweredArgs : LoweredArgs}
    {known : List String} {held : String → Option Kind} :
    LowersArgs symbols before args loweredArgs after → before.reserved = reserved →
      KindReady symbols kinds formed result reserved known (Node.partsOfList args)
        (Node.namesOfList args) (Node.accessesOfArgs symbols args) →
      (∀ arg ∈ args, arg.ReadsKind kinds) → KnowsKinds kinds reserved known held →
      ∃ heldAfter, FitsAll formed result.kind? held loweredArgs.instrs heldAfter ∧
        KnowsKinds kinds reserved (knownAfter known (Node.accessesOfArgs symbols args)) heldAfter ∧
        ∀ operand ∈ loweredArgs.operands, operand.Fits heldAfter ∧ formed operand.ty
  | .nil _, _, _, _, knows => ⟨held, .nil held, knows, nofun⟩
  | .cons lowersArg lowersRest, sameReserved, ready, reads, knows => by
    rw [List.forall_mem_cons] at reads
    rcases ready.append with ⟨readyArg, readyRest⟩
    have sameMiddle := lowersArg.extends.reserved_eq.trans sameReserved
    rcases lowersArg.operand_fits (fun ready => lowersArg.fits sameReserved ready knows) readyArg reads.1
      knows with ⟨heldArg, fitsArg, knowsArg, argFits⟩
    rcases lowersRest.fits sameMiddle readyRest reads.2 knowsArg with
      ⟨heldRest, fitsRest, knowsRest, restFits⟩
    have argStays := lowersArg.value_stays (sameReserved ▸ readyArg.namesReserved) lowersRest.extends
      (fun name assigned => lowersRest.assigned_drew assigned) fitsRest argFits
    have argFormed := readyArg.typesFormed _ (Node.mem_parts_self _) _ lowersArg.value_ty.symm
    refine ⟨heldRest, fitsArg.append fitsRest, ?_, List.forall_mem_cons.2 ⟨⟨argStays, argFormed⟩, restFits⟩⟩
    rw [Node.accessesOfArgs, knownAfter_append]
    exact knowsRest

/-- The instructions of statements fit, and make known what is assigned in them. -/
theorem LowersAll.fits {before after : Temps} {statements : List Node} {instrs : List Instr}
    {known : List String} {held : String → Option Kind} :
    LowersAll symbols before statements instrs after → before.reserved = reserved →
      KindReady symbols kinds formed result reserved known (Node.partsOfList statements)
        (Node.namesOfList statements) (Node.accessesOfList symbols statements) →
      KnowsKinds kinds reserved known held →
      ∃ heldAfter, FitsAll formed result.kind? held instrs heldAfter ∧
        KnowsKinds kinds reserved (knownAfter known (Node.accessesOfList symbols statements)) heldAfter
  | .nil _, _, _, knows => ⟨held, .nil held, knows⟩
  | .cons lowersStatement lowersRest, sameReserved, ready, knows => by
    rcases ready.append with ⟨readyStatement, readyRest⟩
    rcases lowersStatement.fits sameReserved readyStatement knows with
      ⟨heldStatement, fitsStatement, knowsStatement⟩
    have sameMiddle := lowersStatement.extends.reserved_eq.trans sameReserved
    rcases lowersRest.fits sameMiddle readyRest knowsStatement with ⟨heldRest, fitsRest, knowsRest⟩
    refine ⟨heldRest, fitsStatement.append fitsRest, ?_⟩
    rw [Node.accessesOfList, knownAfter_append]
    exact knowsRest

end

end Lowering

/-! ### Methods -/

/-- What is known of the slots where a method of an object starts: they hold the object,
then the arguments in order. -/
def entrySlots (params : List Variable) (slot : Slot) : Option Kind :=
  match (slot : Nat) with
  | 0 => some .reference
  | index + 1 => params[index]?.bind fun param => param.ty.kind?

/-- A table has the parameters in the slots in which the arguments come. -/
def FrameTable.PlacesParams (table : FrameTable) (params : List Variable) : Prop :=
  ∀ index param, params[index]? = some param →
    ∃ slot, table.slot? param.name = some slot ∧ (slot : Nat) = index + 1

/-- What is known of a variable from its slot. -/
def FrameTable.heldIn (table : FrameTable) (slots : Slot → Option Kind) (name : String) : Option Kind :=
  (table.slot? name).bind slots

theorem knowsKinds_entry {table : FrameTable} {params : List Variable} {kinds : String → Kind}
    (places : table.PlacesParams params)
    (paramKinds : ∀ param ∈ params, param.ty.kind? = some (kinds param.name)) (reserved : List String) :
    KnowsKinds kinds reserved (params.map Variable.name) (table.heldIn (entrySlots params)) := by
  intro name isParam _
  rcases List.mem_map.1 isParam with ⟨param, member, rfl⟩
  rcases List.mem_iff_getElem?.1 member with ⟨index, isAt⟩
  rcases places index param isAt with ⟨slot, bound, numbered⟩
  have inSlot : entrySlots params slot = param.ty.kind? := by
    simp only [entrySlots, numbered, isAt, Option.bind_some]
  rw [FrameTable.heldIn, bound, Option.bind_some, inSlot]
  exact paramKinds param member

/-- The first frame mirrors what is known from the start. -/
theorem mirrors_entry (table : FrameTable) (params : List Variable) (instrs : List Instr) :
    table.Mirrors instrs (some .reference) (table.heldIn (entrySlots params)) (entrySlots params) where
  inSlots name _ slot bound := by rw [FrameTable.heldIn, bound, Option.bind_some]
  receiver _ := rfl

/-- The code of a body that ends in a return does so too. -/
theorem Scope.EmitsAll.endsInReturn {scope : Scope} {instrs : List Instr} {code : List MachineInstr}
    (emitsAll : scope.EmitsAll instrs code) (ends : instrs.getLast?.map Instr.form = some .ret) :
    ∃ last, code.getLast? = some last ∧ last.IsReturn := by
  induction emitsAll with
  | nil => cases ends
  | @cons instr rest code restCode emits emitsRest inductionHypothesis =>
    cases rest with
    | nil =>
      cases emitsRest
      cases emits with
      | retVoid | ret => exact ⟨_, rfl, trivial⟩
      | assign | single | call | putField => cases ends
    | cons next others =>
      rw [List.getLast?_cons_cons] at ends
      rcases inductionHypothesis ends with ⟨last, isLast, isReturn⟩
      exact ⟨last, by rw [List.getLast?_append, isLast, Option.some_or], isReturn⟩

/-- The return that a body leaves out checks, and the frame stays as it is. -/
theorem Method.checks_impliedReturn (method : Method) (isName : List Char → Prop) (frame : KindFrame) :
    ChecksAll isName method.result.kind? method.impliedReturn frame frame := by
  unfold Method.impliedReturn
  split
  · next leftOut =>
    rw [leftOut.1]
    exact .one (.retVoid rfl)
  · exact .nil frame

/-- The code of a method without a result ends in a return, and so does that of a method
whose last instruction is one. -/
theorem Method.endsInReturn_of_code {method : Method} {className : String} {code : List MachineInstr}
    (generated : method.code className = .ok code)
    (returns : method.result = .void ∨ method.EndsInReturn) :
    ∃ last, code.getLast? = some last ∧ last.IsReturn := by
  rcases Method.emitsAll_of_code generated with ⟨bodyCode, emitsAll, rfl⟩
  by_cases ends : method.EndsInReturn
  · rw [Method.impliedReturn, if_neg (fun leftOut => leftOut.2 ends), List.append_nil]
    exact emitsAll.endsInReturn ends
  · rw [Method.impliedReturn, if_pos ⟨returns.resolve_right ends, ends⟩, List.getLast?_concat]
    exact ⟨_, rfl, trivial⟩

/-- The code of a kind-correct body passes the verifier: it checks from the first frame of
a method of an object, leaves nothing on the stack, and ends in a return unless the body
itself should have ended in one. -/
theorem Method.code_passes_verifier {symbols : Symbols} {kinds : String → Kind} {body : List Node}
    {before after : Temps} {instrs : List Instr} {method : Method} {className : String}
    {code : List MachineInstr}
    (correct : KindCorrect symbols kinds method.params method.result body)
    (accepted : (Node.lowerBody symbols body).run before = .ok instrs after)
    (places : method.table.PlacesParams method.params) (suits : method.table.Suits instrs)
    (generated : ({ method with instrs } : Method).code className = .ok code) :
    (∀ isName : List Char → Prop,
      (∀ part ∈ Node.partsOfList body, ∀ ty, part.resultType? symbols = some ty →
        (ty.resolve className).NamesClasses isName) →
      ∃ slots, ChecksAll isName method.result.kind? code ⟨entrySlots method.params, []⟩ ⟨slots, []⟩) ∧
    (method.result = .void ∨ ({ method with instrs } : Method).EndsInReturn →
      ∃ last, code.getLast? = some last ∧ last.IsReturn) := by
  refine ⟨fun isName named => ?_, Method.endsInReturn_of_code generated⟩
  have lowersAll := lowerBody_eq_ok_iff.1 accepted
  have ready : KindReady symbols kinds (fun ty => (ty.resolve className).NamesClasses isName) method.result
      (before.reserveAll (Node.namesOfList body)).reserved (method.params.map Variable.name)
      (Node.partsOfList body) (Node.namesOfList body) (Node.accessesOfList symbols body) := {
    keepsKinds := correct.keepsKinds
    typesFormed := named
    voidFormed := trivial
    namesReserved := fun name member => (Temps.mem_reserved_reserveAll before _ name).2 (.inl member)
    readsKnown := correct.readsKnown }
  have knows := knowsKinds_entry places correct.paramKinds
    (before.reserveAll (Node.namesOfList body)).reserved
  rcases lowersAll.fits rfl ready knows with ⟨heldAfter, fitsAll, -⟩
  rcases Method.emitsAll_of_code generated with ⟨bodyCode, emitsAll, rfl⟩
  have mirrors := mirrors_entry method.table method.params instrs
  rcases emitsAll.checks (List.Subset.refl instrs) suits mirrors fitsAll (fun _ formed => formed) [] with
    ⟨slots, checks⟩
  have checksReturn := Method.checks_impliedReturn { method with instrs } isName ⟨slots, []⟩
  exact ⟨slots, checks.append checksReturn⟩

/-- The symbols of a class that counts. -/
def counterSymbols : Symbols where
  className := "Counter"
  signatures := [⟨"next", [.int], .int⟩]

/-- A body that adds a later count to a given one. -/
def countBody : List Node :=
  [.assign "total" .int
    (.binary .add (.varRef "start" .int) (.call .receiver "next" [.int 1]) .int),
    .ret (.varRef "total" .int) .int]

/-- The method of that body, with slots for its local and its two temporaries. -/
def countMethod : Method where
  name := "count"
  params := [⟨"start", .int⟩]
  result := .int
  table := FrameTable.layout false [⟨"start", .int⟩] [⟨"total", .int⟩, ⟨"tmp0", .int⟩, ⟨"tmp1", .int⟩]

def countInstrs : List Instr :=
  [.assign (.variable "tmp0" .int) (.call
      { kind := .virtual, target := .receiver, method? := some "next", args := [.int 1],
        result := .int }),
    .assign (.variable "tmp1" .int)
      (.binary .add (.variable "start" .int) (.variable "tmp0" .int) .int),
    .assign (.variable "total" .int) (.single (.variable "tmp1" .int)),
    .ret .int (some (.variable "total" .int))]

def countCode : List MachineInstr :=
  [.load .reference 0, .ldc "1",
    .invoke
      { kind := .virtual, owner := "Counter", name := "next", descriptor := "(I)I", argCount := 1,
        hasReceiver := true, returnsValue := true },
    .store .int 3, .load .int 1, .load .int 3, .iadd, .store .int 4, .load .int 4, .store .int 2,
    .load .int 2, .ret .int]

/-- No type in that body names a class by a text with a semicolon. -/
theorem namesClasses_countBody : ∀ part ∈ Node.partsOfList countBody, ∀ ty,
    part.resultType? counterSymbols = some ty →
      (ty.resolve "Counter").NamesClasses fun name => ';' ∉ name := by
  have classNamed : ';' ∉ (slashed "Counter").toList := by decide
  intro part member ty hasTy
  simp only [countBody, Node.partsOfList, Node.parts, List.cons_append, List.nil_append, List.append_nil,
    List.mem_cons, List.not_mem_nil, or_false] at member
  rcases member with rfl | rfl | rfl | rfl | rfl | rfl | rfl | rfl
  all_goals cases hasTy
  all_goals trivial

theorem Method.code_passes_verifier_of_count :
    KindCorrect counterSymbols (fun _ => .int) countMethod.params countMethod.result countBody ∧
    (Node.lowerBody counterSymbols countBody).run {} =
      .ok countInstrs { next := 2, reserved := ["start", "total"] } ∧
    ({ countMethod with instrs := countInstrs } : Method).code "Counter" = .ok countCode ∧
    (∃ slots, ChecksAll (fun name => ';' ∉ name) (some .int) countCode
      ⟨entrySlots [⟨"start", .int⟩], []⟩ ⟨slots, []⟩) ∧
    ∃ last, countCode.getLast? = some last ∧ last.IsReturn := by
  have correct : KindCorrect counterSymbols (fun _ => .int) countMethod.params countMethod.result
      countBody := by decide
  have accepted : (Node.lowerBody counterSymbols countBody).run {} =
      .ok countInstrs { next := 2, reserved := ["start", "total"] } := rfl
  have generated : ({ countMethod with instrs := countInstrs } : Method).code "Counter" = .ok countCode :=
    rfl
  have places : countMethod.table.PlacesParams countMethod.params := by
    intro index param isAt
    cases index with
    | zero =>
      cases isAt
      exact ⟨1, by decide, rfl⟩
    | succ later => cases isAt
  have suits : countMethod.table.Suits countInstrs := by decide
  have passes := Method.code_passes_verifier correct accepted places suits generated
  exact ⟨correct, accepted, generated, passes.1 _ namesClasses_countBody, passes.2 (.inr (by decide))⟩

end Stackwright
