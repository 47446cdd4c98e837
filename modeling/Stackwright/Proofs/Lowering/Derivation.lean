import Stackwright.Lowering.Basic

/-!
Contract: successful lowering as a derivation.

Owns:
- derivations that a tree, a call target, arguments or statements are lowered, from
  one state of the supply to another;
- that lowering succeeds with a result exactly if there is a derivation of it.

A derivation has one rule for each kind of tree, and no rule says anything of failed
lowerings: a value that is needed is there by the form of the premise. What holds of
every successful lowering is shown by induction on derivations.
-/

namespace Stackwright

/-- The instruction that calls a lowered target with lowered arguments. -/
def LoweredTarget.invocation (target : LoweredTarget) (symbols : Symbols) (method : String)
    (operands : List Operand) : Call where
  kind := target.kind
  target := target.operand
  method? := some method
  args := operands
  result := symbols.resultOf method

/-- A value that was computed into a temporary by the last of the instructions. -/
def Lowered.computed (temp : String) (ty : Ty) (before : List Instr) (source : Instr) : Lowered where
  value? := some (.variable temp ty)
  instrs := before ++ [.assign (.variable temp ty) source]

mutual

/-- A tree is lowered. -/
inductive Lowers (symbols : Symbols) : Temps → Node → Lowered → Temps → Prop where
  | int (temps : Temps) (value : Int32) :
      Lowers symbols temps (.int value) (.ofValue (.int value)) temps
  | bool (temps : Temps) (value : Bool) :
      Lowers symbols temps (.bool value) (.ofValue (.bool value)) temps
  | varRef (temps : Temps) (name : String) (ty : Ty) :
      Lowers symbols temps (.varRef name ty) (.ofValue (.variable name ty)) temps
  | receiver (temps : Temps) :
      Lowers symbols temps .receiver (.ofValue .receiver) temps
  | binary {before middle after : Temps} {left right : Node} {leftOperand rightOperand : Operand}
      {leftInstrs rightInstrs : List Instr} (operator : Operator) (ty : Ty)
      (lowersLeft : Lowers symbols before left ⟨some leftOperand, leftInstrs⟩ middle)
      (lowersRight : Lowers symbols middle right ⟨some rightOperand, rightInstrs⟩ after) :
      Lowers symbols before (.binary operator left right ty)
        (.computed after.draw.1 ty (leftInstrs ++ rightInstrs)
          (.binary operator leftOperand rightOperand ty)) after.draw.2
  | callVoid {before middle after : Temps} {target : Node} {args : List Node} {method : String}
      {loweredTarget : LoweredTarget} {loweredArgs : LoweredArgs}
      (lowersTarget : LowersTarget symbols before target loweredTarget middle)
      (lowersArgs : LowersArgs symbols middle args loweredArgs after)
      (void : symbols.resultOf method = .void) :
      Lowers symbols before (.call target method args)
        (.ofInstrs (loweredTarget.instrs ++ loweredArgs.instrs ++
          [.call (loweredTarget.invocation symbols method loweredArgs.operands)])) after
  | callValue {before middle after : Temps} {target : Node} {args : List Node} {method : String}
      {loweredTarget : LoweredTarget} {loweredArgs : LoweredArgs}
      (lowersTarget : LowersTarget symbols before target loweredTarget middle)
      (lowersArgs : LowersArgs symbols middle args loweredArgs after)
      (notVoid : symbols.resultOf method ≠ .void) :
      Lowers symbols before (.call target method args)
        (.computed after.draw.1 (symbols.resultOf method) (loweredTarget.instrs ++ loweredArgs.instrs)
          (.call (loweredTarget.invocation symbols method loweredArgs.operands))) after.draw.2
  | assign {before after : Temps} {value : Node} {operand : Operand} {instrs : List Instr}
      (name : String) (ty : Ty)
      (lowersValue : Lowers symbols before value ⟨some operand, instrs⟩ after) :
      Lowers symbols before (.assign name ty value)
        (.ofInstrs (instrs ++ [.assign (.variable name ty) (.single operand)])) after
  | retVoid {before after : Temps} {value : Node} {lowered : Lowered}
      (lowersValue : Lowers symbols before value lowered after) :
      Lowers symbols before (.ret value .void)
        (.ofInstrs (lowered.instrs ++ [.ret .void none])) after
  | retValue {before after : Temps} {value : Node} {operand : Operand} {instrs : List Instr} {ty : Ty}
      (notVoid : ty ≠ .void)
      (lowersValue : Lowers symbols before value ⟨some operand, instrs⟩ after) :
      Lowers symbols before (.ret value ty) (.ofInstrs (instrs ++ [.ret ty (some operand)])) after
  | retBare (temps : Temps) (ty : Ty) :
      Lowers symbols temps (.retBare ty) (.ofInstrs [.ret ty none]) temps
  | block {before after : Temps} {children : List Node} {instrs : List Instr}
      (lowersChildren : LowersAll symbols before children instrs after) :
      Lowers symbols before (.block children) (.ofInstrs instrs) after

/-- The target of a call is lowered, or stands for a class. -/
inductive LowersTarget (symbols : Symbols) : Temps → Node → LoweredTarget → Temps → Prop where
  | imported {temps : Temps} {target : Node} {path : String}
      (names : target.staticTarget? symbols = some path) :
      LowersTarget symbols temps target (.ofImport path) temps
  | object {before after : Temps} {target : Node} {operand : Operand} {instrs : List Instr}
      (namesNone : target.staticTarget? symbols = none)
      (lowers : Lowers symbols before target ⟨some operand, instrs⟩ after) :
      LowersTarget symbols before target ⟨.virtual, operand, instrs⟩ after

/-- The arguments of a call are lowered. -/
inductive LowersArgs (symbols : Symbols) : Temps → List Node → LoweredArgs → Temps → Prop where
  | nil (temps : Temps) : LowersArgs symbols temps [] {} temps
  | cons {before middle after : Temps} {arg : Node} {rest : List Node} {operand : Operand}
      {instrs : List Instr} {loweredRest : LoweredArgs}
      (lowersArg : Lowers symbols before arg ⟨some operand, instrs⟩ middle)
      (lowersRest : LowersArgs symbols middle rest loweredRest after) :
      LowersArgs symbols before (arg :: rest)
        ⟨operand :: loweredRest.operands, instrs ++ loweredRest.instrs⟩ after

/-- Statements are lowered. -/
inductive LowersAll (symbols : Symbols) : Temps → List Node → List Instr → Temps → Prop where
  | nil (temps : Temps) : LowersAll symbols temps [] [] temps
  | cons {before middle after : Temps} {statement : Node} {rest : List Node} {lowered : Lowered}
      {instrs : List Instr} (lowersStatement : Lowers symbols before statement lowered middle)
      (lowersRest : LowersAll symbols middle rest instrs after) :
      LowersAll symbols before (statement :: rest) (lowered.instrs ++ instrs) after

end

/-! ### What steps of lowering give when they succeed -/

namespace LowerM

variable {α β : Type}

theorem bind_eq_ok_iff {step : LowerM α} {next : α → LowerM β} {before after : Temps} {result : β} :
    (step >>= next).run before = .ok result after ↔
      ∃ value middle, step.run before = .ok value middle ∧ (next value).run middle = .ok result after := by
  rw [EStateM.run_bind]
  cases step.run before with
  | ok value middle =>
    constructor
    · intro finished
      exact ⟨value, middle, rfl, finished⟩
    · intro finishes
      obtain ⟨_, _, same, finished⟩ := finishes
      cases same
      exact finished
  | error fault middle => simp

theorem pure_eq_ok_iff {value result : α} {before after : Temps} :
    (pure value : LowerM α).run before = .ok result after ↔ value = result ∧ before = after := by
  rw [EStateM.run_pure, EStateM.Result.ok.injEq]

theorem valueAt_eq_ok_iff {lowered : Lowered} {site : ValueSite} {before after : Temps}
    {operand : Operand} :
    (lowered.valueAt site).run before = .ok operand after ↔
      (∃ instrs, lowered = ⟨some operand, instrs⟩) ∧ before = after := by
  obtain ⟨value?, instrs⟩ := lowered
  cases value? with
  | none =>
    refine iff_of_false nofun ?_
    intro finishes
    obtain ⟨⟨others, same⟩, -⟩ := finishes
    cases same
  | some value => simp [Lowered.valueAt]

theorem drawTemp_eq_ok_iff {ty : Ty} {before after : Temps} {operand : Operand} :
    (drawTemp ty).run before = .ok operand after ↔
      .variable before.draw.1 ty = operand ∧ before.draw.2 = after := by
  show EStateM.Result.ok _ _ = _ ↔ _
  rw [EStateM.Result.ok.injEq]

end LowerM

theorem LoweredTarget.call_eq_ok_iff {target : LoweredTarget} {symbols : Symbols} {method : String}
    {args : LoweredArgs} {before after : Temps} {lowered : Lowered} :
    (target.call symbols method args).run before = .ok lowered after ↔
      (symbols.resultOf method = .void ∧ before = after ∧
        lowered = .ofInstrs (target.instrs ++ args.instrs ++
          [.call (target.invocation symbols method args.operands)])) ∨
      (symbols.resultOf method ≠ .void ∧ before.draw.2 = after ∧
        lowered = .computed before.draw.1 (symbols.resultOf method) (target.instrs ++ args.instrs)
          (.call (target.invocation symbols method args.operands))) := by
  unfold LoweredTarget.call
  by_cases void : symbols.resultOf method = .void
  · simp only [void, if_true, LowerM.pure_eq_ok_iff, invocation]
    grind
  · simp only [void, if_false, LowerM.bind_eq_ok_iff, LowerM.drawTemp_eq_ok_iff,
      LowerM.pure_eq_ok_iff, invocation, Lowered.computed]
    grind

namespace Node

/-- The target of a call, evaluated unless it names an import. -/
def lowerTarget (symbols : Symbols) (target : Node) : LowerM LoweredTarget :=
  match target.staticTarget? symbols with
  | some path => pure (LoweredTarget.ofImport path)
  | none => do
    let lowered ← target.lower symbols
    let operand ← lowered.valueAt .callReceiver
    return ⟨.virtual, operand, lowered.instrs⟩

/-- A call lowers its target, then its arguments. -/
theorem lower_call (symbols : Symbols) (target : Node) (method : String) (args : List Node) :
    (Node.call target method args).lower symbols = target.lowerTarget symbols >>= fun loweredTarget =>
      lowerArgs symbols method 0 args >>= fun loweredArgs =>
        loweredTarget.call symbols method loweredArgs := by
  rw [lower, lowerTarget]
  cases target.staticTarget? symbols with
  | some path => rfl
  | none => simp only [bind_assoc, pure_bind]

/-! ### Lowering succeeds exactly where there is a derivation -/

mutual

theorem lowers_of_lower {symbols : Symbols} :
    ∀ (node : Node) {before after : Temps} {lowered : Lowered},
      (node.lower symbols).run before = .ok lowered after →
        Lowers symbols before node lowered after
  | .int value, before, after, lowered, finished => by
    rw [lower, LowerM.pure_eq_ok_iff] at finished
    rcases finished with ⟨rfl, rfl⟩
    exact .int before value
  | .bool value, before, after, lowered, finished => by
    rw [lower, LowerM.pure_eq_ok_iff] at finished
    rcases finished with ⟨rfl, rfl⟩
    exact .bool before value
  | .varRef name ty, before, after, lowered, finished => by
    rw [lower, LowerM.pure_eq_ok_iff] at finished
    rcases finished with ⟨rfl, rfl⟩
    exact .varRef before name ty
  | .receiver, before, after, lowered, finished => by
    rw [lower, LowerM.pure_eq_ok_iff] at finished
    rcases finished with ⟨rfl, rfl⟩
    exact .receiver before
  | .binary operator left right ty, before, after, lowered, finished => by
    simp only [lower, LowerM.bind_eq_ok_iff, LowerM.valueAt_eq_ok_iff, LowerM.drawTemp_eq_ok_iff,
      LowerM.pure_eq_ok_iff] at finished
    rcases finished with ⟨_, _, leftFinished, _, _, ⟨⟨leftInstrs, rfl⟩, rfl⟩, _, _, rightFinished, _, _,
      ⟨⟨rightInstrs, rfl⟩, rfl⟩, _, _, ⟨rfl, rfl⟩, rfl, rfl⟩
    exact .binary operator ty (lowers_of_lower left leftFinished) (lowers_of_lower right rightFinished)
  | .call target method args, before, after, lowered, finished => by
    simp only [lower_call, LowerM.bind_eq_ok_iff] at finished
    rcases finished with ⟨loweredTarget, middle, targetFinished, loweredArgs, afterArgs, argsFinished,
      finished⟩
    have lowersArgs := lowersArgs_of_lowerArgs args argsFinished
    have lowersTarget : LowersTarget symbols before target loweredTarget middle := by
      unfold lowerTarget at targetFinished
      cases named : target.staticTarget? symbols with
      | some path =>
        simp only [named, LowerM.pure_eq_ok_iff] at targetFinished
        rcases targetFinished with ⟨rfl, rfl⟩
        exact .imported named
      | none =>
        simp only [named, LowerM.bind_eq_ok_iff, LowerM.valueAt_eq_ok_iff,
          LowerM.pure_eq_ok_iff] at targetFinished
        rcases targetFinished with ⟨_, _, objectFinished, _, _, ⟨⟨instrs, rfl⟩, rfl⟩, rfl, rfl⟩
        exact .object named (lowers_of_lower target objectFinished)
    rcases LoweredTarget.call_eq_ok_iff.1 finished with ⟨void, rfl, rfl⟩ | ⟨notVoid, rfl, rfl⟩
    · exact .callVoid lowersTarget lowersArgs void
    · exact .callValue lowersTarget lowersArgs notVoid
  | .assign name ty value, before, after, lowered, finished => by
    simp only [lower, LowerM.bind_eq_ok_iff, LowerM.valueAt_eq_ok_iff, LowerM.pure_eq_ok_iff] at finished
    rcases finished with ⟨_, _, valueFinished, _, _, ⟨⟨instrs, rfl⟩, rfl⟩, rfl, rfl⟩
    exact .assign name ty (lowers_of_lower value valueFinished)
  | .ret value ty, before, after, lowered, finished => by
    rw [lower, LowerM.bind_eq_ok_iff] at finished
    rcases finished with ⟨loweredValue, middle, valueFinished, finished⟩
    by_cases void : ty = .void
    · rw [if_pos void, LowerM.pure_eq_ok_iff] at finished
      rcases finished with ⟨rfl, rfl⟩
      subst void
      exact .retVoid (lowers_of_lower value valueFinished)
    · simp only [if_neg void, LowerM.bind_eq_ok_iff, LowerM.valueAt_eq_ok_iff,
        LowerM.pure_eq_ok_iff] at finished
      rcases finished with ⟨_, _, ⟨⟨instrs, rfl⟩, rfl⟩, rfl, rfl⟩
      exact .retValue void (lowers_of_lower value valueFinished)
  | .retBare ty, before, after, lowered, finished => by
    rw [lower, LowerM.pure_eq_ok_iff] at finished
    rcases finished with ⟨rfl, rfl⟩
    exact .retBare before ty
  | .block children, before, after, lowered, finished => by
    simp only [lower, LowerM.bind_eq_ok_iff, LowerM.pure_eq_ok_iff] at finished
    rcases finished with ⟨_, _, childrenFinished, rfl, rfl⟩
    exact .block (lowersAll_of_lowerAll children childrenFinished)

theorem lowersArgs_of_lowerArgs {symbols : Symbols} {method : String} :
    ∀ (args : List Node) {index : Nat} {before after : Temps} {loweredArgs : LoweredArgs},
      (lowerArgs symbols method index args).run before = .ok loweredArgs after →
        LowersArgs symbols before args loweredArgs after
  | [], index, before, after, loweredArgs, finished => by
    rw [lowerArgs, LowerM.pure_eq_ok_iff] at finished
    rcases finished with ⟨rfl, rfl⟩
    exact .nil before
  | arg :: rest, index, before, after, loweredArgs, finished => by
    simp only [lowerArgs, LowerM.bind_eq_ok_iff, LowerM.valueAt_eq_ok_iff,
      LowerM.pure_eq_ok_iff] at finished
    rcases finished with ⟨_, _, argFinished, _, _, ⟨⟨instrs, rfl⟩, rfl⟩, _, _, restFinished, rfl, rfl⟩
    exact .cons (lowers_of_lower arg argFinished) (lowersArgs_of_lowerArgs rest restFinished)

theorem lowersAll_of_lowerAll {symbols : Symbols} :
    ∀ (statements : List Node) {before after : Temps} {instrs : List Instr},
      (lowerAll symbols statements).run before = .ok instrs after →
        LowersAll symbols before statements instrs after
  | [], before, after, instrs, finished => by
    rw [lowerAll, LowerM.pure_eq_ok_iff] at finished
    rcases finished with ⟨rfl, rfl⟩
    exact .nil before
  | statement :: rest, before, after, instrs, finished => by
    simp only [lowerAll, LowerM.bind_eq_ok_iff, LowerM.pure_eq_ok_iff] at finished
    rcases finished with ⟨_, _, firstFinished, _, _, restFinished, rfl, rfl⟩
    exact .cons (lowers_of_lower statement firstFinished) (lowersAll_of_lowerAll rest restFinished)

end

end Node

mutual

theorem Lowers.lower {symbols : Symbols} {before after : Temps} {node : Node} {lowered : Lowered} :
    Lowers symbols before node lowered after →
      (node.lower symbols).run before = .ok lowered after
  | .int _ _ | .bool _ _ | .varRef _ _ _ | .receiver _ | .retBare _ _ => rfl
  | .binary operator ty lowersLeft lowersRight => by
    simp only [Node.lower, LowerM.bind_eq_ok_iff, LowerM.valueAt_eq_ok_iff,
      LowerM.drawTemp_eq_ok_iff, LowerM.pure_eq_ok_iff]
    exact ⟨_, _, lowersLeft.lower, _, _, ⟨⟨_, rfl⟩, rfl⟩, _, _, lowersRight.lower, _, _,
      ⟨⟨_, rfl⟩, rfl⟩, _, _, ⟨rfl, rfl⟩, rfl, rfl⟩
  | .callVoid lowersTarget lowersArgs void => by
    simp only [Node.lower_call, LowerM.bind_eq_ok_iff]
    refine ⟨_, _, lowersTarget.lower, _, _, lowersArgs.lower, ?_⟩
    exact LoweredTarget.call_eq_ok_iff.2 (.inl ⟨void, rfl, rfl⟩)
  | .callValue lowersTarget lowersArgs notVoid => by
    simp only [Node.lower_call, LowerM.bind_eq_ok_iff]
    refine ⟨_, _, lowersTarget.lower, _, _, lowersArgs.lower, ?_⟩
    exact LoweredTarget.call_eq_ok_iff.2 (.inr ⟨notVoid, rfl, rfl⟩)
  | .assign name ty lowersValue => by
    simp only [Node.lower, LowerM.bind_eq_ok_iff, LowerM.valueAt_eq_ok_iff, LowerM.pure_eq_ok_iff]
    exact ⟨_, _, lowersValue.lower, _, _, ⟨⟨_, rfl⟩, rfl⟩, rfl, rfl⟩
  | .retVoid lowersValue => by
    simp only [Node.lower, if_true, LowerM.bind_eq_ok_iff, LowerM.pure_eq_ok_iff]
    exact ⟨_, _, lowersValue.lower, rfl, rfl⟩
  | .retValue notVoid lowersValue => by
    simp only [Node.lower, if_neg notVoid, LowerM.bind_eq_ok_iff, LowerM.valueAt_eq_ok_iff,
      LowerM.pure_eq_ok_iff]
    exact ⟨_, _, lowersValue.lower, _, _, ⟨⟨_, rfl⟩, rfl⟩, rfl, rfl⟩
  | .block lowersChildren => by
    simp only [Node.lower, LowerM.bind_eq_ok_iff, LowerM.pure_eq_ok_iff]
    exact ⟨_, _, lowersChildren.lower, rfl, rfl⟩

theorem LowersTarget.lower {symbols : Symbols} {before after : Temps} {target : Node}
    {loweredTarget : LoweredTarget} : LowersTarget symbols before target loweredTarget after →
      (target.lowerTarget symbols).run before = .ok loweredTarget after
  | .imported named => by
    rw [Node.lowerTarget, named]
    rfl
  | .object namesNone lowers => by
    simp only [Node.lowerTarget, namesNone, LowerM.bind_eq_ok_iff, LowerM.valueAt_eq_ok_iff,
      LowerM.pure_eq_ok_iff]
    exact ⟨_, _, lowers.lower, _, _, ⟨⟨_, rfl⟩, rfl⟩, rfl, rfl⟩

theorem LowersArgs.lower {symbols : Symbols} {method : String} {index : Nat} {before after : Temps}
    {args : List Node} {loweredArgs : LoweredArgs} : LowersArgs symbols before args loweredArgs after →
      (Node.lowerArgs symbols method index args).run before = .ok loweredArgs after
  | .nil _ => rfl
  | .cons lowersArg lowersRest => by
    simp only [Node.lowerArgs, LowerM.bind_eq_ok_iff, LowerM.valueAt_eq_ok_iff, LowerM.pure_eq_ok_iff]
    exact ⟨_, _, lowersArg.lower, _, _, ⟨⟨_, rfl⟩, rfl⟩, _, _, lowersRest.lower, rfl, rfl⟩

theorem LowersAll.lower {symbols : Symbols} {before after : Temps} {statements : List Node}
    {instrs : List Instr} : LowersAll symbols before statements instrs after →
      (Node.lowerAll symbols statements).run before = .ok instrs after
  | .nil _ => rfl
  | .cons lowersStatement lowersRest => by
    simp only [Node.lowerAll, LowerM.bind_eq_ok_iff, LowerM.pure_eq_ok_iff]
    exact ⟨_, _, lowersStatement.lower, _, _, lowersRest.lower, rfl, rfl⟩

end

/-- Lowering succeeds with a result exactly if there is a derivation of it. -/
theorem lower_eq_ok_iff {symbols : Symbols} {node : Node} {before after : Temps} {lowered : Lowered} :
    (node.lower symbols).run before = .ok lowered after ↔ Lowers symbols before node lowered after :=
  ⟨Node.lowers_of_lower node, Lowers.lower⟩

theorem lowerBody_eq_ok_iff {symbols : Symbols} {body : List Node} {before after : Temps}
    {instrs : List Instr} :
    (Node.lowerBody symbols body).run before = .ok instrs after ↔
      LowersAll symbols (before.reserveAll (Node.namesOfList body)) body instrs after :=
  ⟨Node.lowersAll_of_lowerAll body, LowersAll.lower⟩

end Stackwright
