import Stackwright.Proofs.Lowering.Course
import Stackwright.Proofs.Lowering.Outline

/-!
Contract: lowering writes the outline of its tree.

Owns:
- instructions that are the outline along several stops, with names filled in;
- whatever a derivation gives is written along the walk through its tree, with the names that were
  drawn filled in by number;
- lowering gives one instruction for each part that computes, assigns or returns, in postorder, and
  two runs from different supplies fail alike or differ in nothing but the names that are filled in.
-/

namespace Stackwright

/-! ### Lowering writes the outline -/

/-- Instructions are an outline along several stops, with names filled in. -/
def Stop.Writes (symbols : Symbols) (names : Nat → String) (stops : List Stop) (instrs : List Instr) : Prop :=
  ∃ outline, List.Forall₂ (Visit.HasInstr symbols) (emitting stops) outline ∧
    outline.map (OpenInstr.fill names) = instrs

variable {symbols : Symbols}

namespace Stop.Writes

variable {names : Nat → String} {stops more : List Stop} {instrs moreInstrs : List Instr}

theorem nil : Stop.Writes symbols names [] [] :=
  ⟨[], .nil, rfl⟩

theorem append (writes : Stop.Writes symbols names stops instrs)
    (writesMore : Stop.Writes symbols names more moreInstrs) :
    Stop.Writes symbols names (stops ++ more) (instrs ++ moreInstrs) := by
  obtain ⟨outline, outlined, rfl⟩ := writes
  obtain ⟨moreOutline, moreOutlined, rfl⟩ := writesMore
  refine ⟨outline ++ moreOutline, ?_, List.map_append⟩
  rw [emitting, visits_append, List.filter_append]
  exact List.rel_append outlined moreOutlined

theorem ask (writes : Stop.Writes symbols names stops instrs) (site : ValueSite) (operand : Node) :
    Stop.Writes symbols names (stops ++ [.ask site operand]) instrs := by
  rw [← List.append_nil instrs]
  exact writes.append ⟨[], .nil, rfl⟩

theorem askUnless (writes : Stop.Writes symbols names stops instrs) (skip : Prop) [Decidable skip]
    (site : ValueSite) (operand : Node) :
    Stop.Writes symbols names (stops ++ Stop.askUnless skip site operand) instrs := by
  unfold Stop.askUnless
  split
  · rwa [List.append_nil]
  · exact writes.ask site operand

/-- A part without an instruction of its own adds none. -/
theorem leaveSilent (writes : Stop.Writes symbols names stops instrs) {visit : Visit}
    (silent : visit.node.emits = false) :
    Stop.Writes symbols names (stops ++ [.leave visit]) instrs := by
  rw [← List.append_nil instrs]
  refine writes.append ⟨[], ?_, rfl⟩
  simp [emitting, silent]

/-- The instruction of a part comes after those of all parts inside it. -/
theorem leave (writes : Stop.Writes symbols names stops instrs) {visit : Visit} {openInstr : OpenInstr}
    {instr : Instr} (own : visit.HasInstr symbols openInstr) (filled : openInstr.fill names = instr) :
    Stop.Writes symbols names (stops ++ [.leave visit]) (instrs ++ [instr]) := by
  have emits : visit.node.emits = true := by cases own <;> rfl
  refine writes.append ⟨[openInstr], ?_, ?_⟩
  · simp [emitting, emits, own]
  · rw [List.map_singleton, filled]

end Stop.Writes

/-- What lowering gives for a part, as far as the part and the draws before it tell. -/
structure Lowered.Outlined (symbols : Symbols) (root : Temps) (visit : Visit) (lowered : Lowered)
    (after : Temps) : Prop where
  value_eq : lowered.value? = (visit.operand? symbols).map (OpenOperand.fill root.drawnName)
  after_eq : after = root.afterDraws (visit.drawn + visit.node.draws symbols)
  writes : Stop.Writes symbols root.drawnName (visit.node.walk symbols visit.drawn) lowered.instrs

theorem Lowered.Outlined.operand {root after : Temps} {visit : Visit} {operand : Operand} {instrs : List Instr}
    (outlined : Lowered.Outlined symbols root visit ⟨some operand, instrs⟩ after) :
    ∃ openOperand, visit.operand? symbols = some openOperand ∧ openOperand.fill root.drawnName = operand :=
  Option.map_eq_some_iff.1 outlined.value_eq.symm

/-- What lowering gives for the target of a call. A target that names an import writes nothing. -/
structure LoweredTarget.Outlined (symbols : Symbols) (root : Temps) (visit : Visit)
    (loweredTarget : LoweredTarget) (after : Temps) : Prop where
  target : ∃ openOperand, visit.target? symbols = some (loweredTarget.kind, openOperand) ∧
    openOperand.fill root.drawnName = loweredTarget.operand
  after_eq : after = root.afterDraws (visit.drawn + visit.node.draws symbols)
  writes : Stop.Writes symbols root.drawnName (visit.node.walk symbols visit.drawn) loweredTarget.instrs

/-- What lowering gives for arguments. Their texts in reports do not matter. -/
structure LoweredArgs.Outlined (symbols : Symbols) (root : Temps) (drawn : Nat) (args : List Node)
    (loweredArgs : LoweredArgs) (after : Temps) : Prop where
  operands : ∃ openOperands, Visit.operandsFrom? symbols drawn args = some openOperands ∧
    openOperands.map (OpenOperand.fill root.drawnName) = loweredArgs.operands
  after_eq : after = root.afterDraws (drawn + Node.drawsOfList symbols args)
  writes (method : String) (index : Nat) :
    Stop.Writes symbols root.drawnName (Node.walkArgs symbols method index drawn args) loweredArgs.instrs

/-- What lowering gives for statements. -/
structure AllOutlined (symbols : Symbols) (root : Temps) (drawn : Nat) (statements : List Node)
    (instrs : List Instr) (after : Temps) : Prop where
  after_eq : after = root.afterDraws (drawn + Node.drawsOfList symbols statements)
  writes : Stop.Writes symbols root.drawnName (Node.walkAll symbols drawn statements) instrs

mutual

/-- A derivation goes along the walk through its tree. Every supply in it is the one after as many
draws from the first as the walk has numbered. -/
theorem Lowers.outlined {root before after : Temps} {drawn : Nat} {node : Node} {lowered : Lowered} :
    Lowers symbols before node lowered after → before = root.afterDraws drawn →
      lowered.Outlined symbols root ⟨node, drawn⟩ after
  | .int _ _, start | .bool _ _, start | .varRef _ _ _, start | .receiver _, start => by
    refine ⟨rfl, start, ?_⟩
    rw [Node.walk, ← List.nil_append [_]]
    exact Stop.Writes.nil.leaveSilent rfl
  | .binary operator ty lowersLeft lowersRight, start => by
    have ofLeft := lowersLeft.outlined start
    have ofRight := lowersRight.outlined ofLeft.after_eq
    obtain ⟨openLeft, leftOpen, leftFilled⟩ := ofLeft.operand
    obtain ⟨openRight, rightOpen, rightFilled⟩ := ofRight.operand
    obtain rfl := ofRight.after_eq
    refine ⟨rfl, ?_, ?_⟩
    · rw [← Temps.afterDraws_succ, Node.draws]
      simp only [Nat.add_assoc]
    · rw [Node.walk]
      refine (((ofLeft.writes.ask _ _).append ofRight.writes).ask _ _).leave
        (.binary operator ty drawn leftOpen rightOpen) ?_
      rw [OpenInstr.fill, leftFilled, rightFilled]
      rfl
  | .callVoid lowersTarget lowersArgs void, start => by
    have ofTarget := lowersTarget.outlined start
    have ofArgs := lowersArgs.outlined ofTarget.after_eq
    obtain ⟨openTarget, targetOpen, targetFilled⟩ := ofTarget.target
    obtain ⟨openArgs, argsOpen, argsFilled⟩ := ofArgs.operands
    refine ⟨?_, ?_, ?_⟩
    · simp [Visit.operand?, Visit.temp?, void, Lowered.ofInstrs]
    · rw [ofArgs.after_eq]
      simp [Node.draws, void, Nat.add_assoc]
    · rw [Node.walk]
      refine ((ofTarget.writes.askUnless _ _ _).append (ofArgs.writes _ 0)).leave
        (.call _ drawn targetOpen argsOpen) ?_
      simp [Visit.temp?, void, OpenInstr.fill, targetFilled, argsFilled, LoweredTarget.invocation]
  | .callValue lowersTarget lowersArgs notVoid, start => by
    have ofTarget := lowersTarget.outlined start
    have ofArgs := lowersArgs.outlined ofTarget.after_eq
    obtain ⟨openTarget, targetOpen, targetFilled⟩ := ofTarget.target
    obtain ⟨openArgs, argsOpen, argsFilled⟩ := ofArgs.operands
    obtain rfl := ofArgs.after_eq
    refine ⟨?_, ?_, ?_⟩
    · simp [Visit.operand?, Visit.temp?, notVoid, Lowered.computed, OpenOperand.fill, Temps.drawnName]
    · rw [← Temps.afterDraws_succ, Node.draws, if_neg notVoid]
      simp only [Nat.add_assoc]
    · rw [Node.walk]
      refine ((ofTarget.writes.askUnless _ _ _).append (ofArgs.writes _ 0)).leave
        (.call _ drawn targetOpen argsOpen) ?_
      simp [Visit.temp?, notVoid, OpenInstr.fill, targetFilled, argsFilled, LoweredTarget.invocation,
        Temps.drawnName]
  | .assign name ty lowersValue, start => by
    have ofValue := lowersValue.outlined start
    obtain ⟨openValue, valueOpen, valueFilled⟩ := ofValue.operand
    refine ⟨rfl, ofValue.after_eq, ?_⟩
    rw [Node.walk]
    refine (ofValue.writes.ask _ _).leave (.assign name ty drawn valueOpen) ?_
    rw [OpenInstr.fill, valueFilled]
  | .retVoid lowersValue, start => by
    have ofValue := lowersValue.outlined start
    refine ⟨rfl, ofValue.after_eq, ?_⟩
    rw [Node.walk]
    exact (ofValue.writes.askUnless _ _ _).leave (.retVoid _ drawn) rfl
  | .retValue notVoid lowersValue, start => by
    have ofValue := lowersValue.outlined start
    obtain ⟨openValue, valueOpen, valueFilled⟩ := ofValue.operand
    refine ⟨rfl, ofValue.after_eq, ?_⟩
    rw [Node.walk]
    refine (ofValue.writes.askUnless _ _ _).leave (.retValue drawn notVoid valueOpen) ?_
    rw [OpenInstr.fill, Option.map_some, valueFilled]
  | .retBare _ ty, start => by
    refine ⟨rfl, start, ?_⟩
    rw [Node.walk, ← List.nil_append [_]]
    exact Stop.Writes.nil.leave (.retBare ty drawn) rfl
  | .block lowersChildren, start => by
    have ofChildren := lowersChildren.outlined start
    refine ⟨rfl, ofChildren.after_eq, ?_⟩
    rw [Node.walk]
    exact ofChildren.writes.leaveSilent rfl

theorem LowersTarget.outlined {root before after : Temps} {drawn : Nat} {target : Node}
    {loweredTarget : LoweredTarget} :
    LowersTarget symbols before target loweredTarget after → before = root.afterDraws drawn →
      loweredTarget.Outlined symbols root ⟨target, drawn⟩ after
  | .imported named, start => by
    cases target with
    | varRef name ty =>
      refine ⟨⟨.source (LoweredTarget.ofImport _).operand, ?_, rfl⟩, start, ?_⟩
      · simp [Visit.target?, named, LoweredTarget.ofImport]
      · rw [Node.walk, ← List.nil_append [_]]
        exact Stop.Writes.nil.leaveSilent rfl
    | _ => cases named
  | .object namesNone lowers, start => by
    have ofTarget := lowers.outlined start
    obtain ⟨openTarget, targetOpen, targetFilled⟩ := ofTarget.operand
    refine ⟨⟨openTarget, ?_, targetFilled⟩, ofTarget.after_eq, ofTarget.writes⟩
    simp [Visit.target?, namesNone, targetOpen]

theorem LowersArgs.outlined {root before after : Temps} {drawn : Nat} {args : List Node}
    {loweredArgs : LoweredArgs} :
    LowersArgs symbols before args loweredArgs after → before = root.afterDraws drawn →
      loweredArgs.Outlined symbols root drawn args after
  | .nil _, start => ⟨⟨[], rfl, rfl⟩, start, fun _ _ => .nil⟩
  | .cons lowersArg lowersRest, start => by
    have ofArg := lowersArg.outlined start
    have ofRest := lowersRest.outlined ofArg.after_eq
    obtain ⟨openArg, argOpen, argFilled⟩ := ofArg.operand
    obtain ⟨openRest, restOpen, restFilled⟩ := ofRest.operands
    refine ⟨⟨openArg :: openRest, ?_, ?_⟩, ?_, ?_⟩
    · simp [Visit.operandsFrom?, argOpen, restOpen]
    · rw [List.map_cons, argFilled, restFilled]
    · rw [ofRest.after_eq, Node.drawsOfList, Nat.add_assoc]
    · intro method index
      rw [Node.walkArgs]
      exact (ofArg.writes.ask _ _).append (ofRest.writes method (index + 1))

theorem LowersAll.outlined {root before after : Temps} {drawn : Nat} {statements : List Node}
    {instrs : List Instr} :
    LowersAll symbols before statements instrs after → before = root.afterDraws drawn →
      AllOutlined symbols root drawn statements instrs after
  | .nil _, start => ⟨start, .nil⟩
  | .cons lowersStatement lowersRest, start => by
    have ofStatement := lowersStatement.outlined start
    have ofRest := lowersRest.outlined ofStatement.after_eq
    refine ⟨?_, ?_⟩
    · rw [ofRest.after_eq, Node.drawsOfList, Nat.add_assoc]
    · rw [Node.walkAll]
      exact ofStatement.writes.append ofRest.writes

end

/-- What lowering gives is the outline of the tree, with the names filled in that were drawn. -/
theorem Node.hasOutline_of_lower {node : Node} {temps after : Temps} {lowered : Lowered}
    (accepted : (node.lower symbols).run temps = .ok lowered after) :
    after = temps.afterDraws (node.draws symbols) ∧
      ∃ outline, node.HasOutline symbols outline ∧ lowered = outline.fill temps.drawnName := by
  have outlined : lowered.Outlined symbols temps ⟨node, 0⟩ after :=
    (Node.lowers_of_lower node accepted).outlined rfl
  refine ⟨by simpa using outlined.after_eq, ?_⟩
  obtain ⟨instrs, instrsOutlined, filled⟩ := outlined.writes
  refine ⟨⟨Visit.operand? symbols ⟨node, 0⟩, instrs⟩, ⟨rfl, instrsOutlined⟩, ?_⟩
  obtain ⟨value?, others⟩ := lowered
  exact congrArg₂ Lowered.mk outlined.value_eq filled.symm

/-- Lowering writes one instruction for each part that computes, assigns or returns, in postorder,
and nothing but the names of temporaries depends on the supply. -/
structure LowersInPostorder (symbols : Symbols) (node : Node) : Prop where
  /-- The parts with an instruction of their own are left in postorder. -/
  inPostorder : (Stop.emitting (node.walk symbols 0)).map Visit.node = node.postorder.filter Node.emits
  /-- Whatever is accepted has an outline, and is lowered to it. -/
  outlined : ∀ temps lowered after, (node.lower symbols).run temps = .ok lowered after →
    ∃ outline, node.HasOutline symbols outline ∧ lowered = outline.fill temps.drawnName ∧
      after = temps.afterDraws (node.draws symbols)
  /-- The temporaries of an outline are those that are drawn, numbered in the order of the draws. -/
  numbered : ∀ outline, node.HasOutline symbols outline →
    outline.instrs.filterMap OpenInstr.temp? = List.range (node.draws symbols) ∧
      ∀ number ∈ outline.numbers, number < node.draws symbols
  /-- Two runs fail alike, or differ in the names that are filled in. -/
  twoRuns : ∀ first second,
    (∃ fault afterFirst afterSecond,
      (node.lower symbols).run first = .error fault afterFirst ∧
      (node.lower symbols).run second = .error fault afterSecond) ∨
    ∃ outline, node.HasOutline symbols outline ∧
      (node.lower symbols).run first =
        .ok (outline.fill first.drawnName) (first.afterDraws (node.draws symbols)) ∧
      (node.lower symbols).run second =
        .ok (outline.fill second.drawnName) (second.afterDraws (node.draws symbols))

theorem lower_in_postorder (symbols : Symbols) (node : Node) : LowersInPostorder symbols node where
  inPostorder := by
    rw [Stop.emitting, ← Node.visits_walk 0 node, List.filter_map]
    rfl
  outlined temps lowered after accepted := by
    obtain ⟨after_eq, outline, has, filled⟩ := Node.hasOutline_of_lower accepted
    exact ⟨outline, has, filled, after_eq⟩
  numbered outline has := ⟨has.temps_eq, fun _ member => has.numbers_lt member⟩
  twoRuns first second := by
    cases ran : (node.lower symbols).run first with
    | error fault afterFirst =>
      obtain ⟨afterSecond, failed⟩ := lower_fails_alike ran second
      exact .inl ⟨fault, afterFirst, afterSecond, rfl, failed⟩
    | ok lowered afterFirst =>
      obtain ⟨rfl, outline, has, rfl⟩ := Node.hasOutline_of_lower ran
      refine .inr ⟨outline, has, rfl, ?_⟩
      cases ranSecond : (node.lower symbols).run second with
      | error fault afterSecond =>
        obtain ⟨_, failed⟩ := lower_fails_alike ranSecond first
        rw [ran] at failed
        cases failed
      | ok other afterSecond =>
        obtain ⟨rfl, otherOutline, hasOther, rfl⟩ := Node.hasOutline_of_lower ranSecond
        cases has.unique hasOther
        rfl

/-- A variable that is named like a temporary of one run keeps its name in every run. -/
example :
    let sum : Node := .binary .add (.binary .add (.int 1) (.int 2) .int) (.varRef "tmp0" .int) .int
    let instrs (first second : String) : List Instr :=
      [.assign (.variable first .int) (.binary .add (.int 1) (.int 2) .int),
        .assign (.variable second .int)
          (.binary .add (.variable first .int) (.variable "tmp0" .int) .int)]
    (sum.lower { className := "Point" }).run {} =
        .ok ⟨some (.variable "tmp1" .int), instrs "tmp0" "tmp1"⟩ { next := 2 } ∧
      (sum.lower { className := "Point" }).run { next := 5 } =
        .ok ⟨some (.variable "tmp6" .int), instrs "tmp5" "tmp6"⟩ { next := 7 } :=
  ⟨rfl, rfl⟩

end Stackwright
