import Stackwright.Proofs.Lowering.Progress
import Stackwright.Proofs.Lowering.SingleUse
import Stackwright.Proofs.Tree.Positions

/-!
Contract: the temporaries of one lowerer, over everything it is asked to lower.

Owns:
- the calls of a lowerer, of trees and of bodies in any order, each going on from the supply
  that the one before left, whether that one failed or not;
- the draws of a call: the trees they are for, and the supply that each is made from;
- the soundness of temporaries: over all calls no name is drawn twice or while it is reserved, and
  in the instructions of a body each drawn name is assigned once, used at most once after that,
  and is no variable of the body.

A draw of a failed call counts as any other: the supply does not go back.
-/

namespace Stackwright

/-! ### Draws that are known by their supplies -/

/-- A temporary is drawn for a tree from a supply. -/
structure Drawing where
  node : Node
  supply : Temps

namespace Drawing

def name (drawing : Drawing) : String :=
  drawing.supply.draw.1

/-- The draws for several trees, each from the supply that the one before leaves. -/
def inTurn (temps : Temps) : List Node → List Drawing
  | [] => []
  | node :: rest => { node, supply := temps } :: inTurn temps.draw.2 rest

@[simp] theorem map_name_inTurn (temps : Temps) (nodes : List Node) :
    (inTurn temps nodes).map name = temps.drawnNames nodes.length := by
  induction nodes generalizing temps with
  | nil => rfl
  | cons node rest inductionHypothesis =>
    rw [inTurn, List.map_cons, inductionHypothesis, List.length_cons, Temps.drawnNames, name]

@[simp] theorem map_node_inTurn (temps : Temps) (nodes : List Node) :
    (inTurn temps nodes).map node = nodes := by
  induction nodes generalizing temps with
  | nil => rfl
  | cons node rest inductionHypothesis => rw [inTurn, List.map_cons, inductionHypothesis]

/-- Nothing is reserved between two draws in turn. -/
theorem reserved_of_mem_inTurn {temps : Temps} {nodes : List Node} {drawing : Drawing}
    (member : drawing ∈ inTurn temps nodes) : drawing.supply.reserved = temps.reserved := by
  induction nodes generalizing temps with
  | nil => exact absurd member List.not_mem_nil
  | cons node rest inductionHypothesis =>
    rcases List.mem_cons.1 member with rfl | later
    · rfl
    · exact (inductionHypothesis later).trans (Temps.Extends.draw temps).reserved_eq

end Drawing

/-! ### Trees that draw -/

theorem Progress.mem_andThen {first second : Progress} {node : Node}
    (member : node ∈ (first.andThen second).drew) : node ∈ first.drew ∨ node ∈ second.drew := by
  unfold andThen at member
  split at member
  · exact List.mem_append.1 member
  · exact .inl member

namespace Node

variable {symbols : Symbols} {drawn : Node}

mutual

/-- Whatever draws a temporary is a part of the tree, and computes a value. -/
theorem computes_of_mem_progress :
    (node : Node) → drawn ∈ (node.progress symbols).drew → drawn ∈ node.parts ∧ drawn.Computes symbols
  | .int _, member | .bool _, member | .varRef _ _, member | .receiver, member | .retBare _, member => by
    rw [progress] at member
    exact absurd member List.not_mem_nil
  | .binary operator left right ty, member => by
    rw [progress] at member
    rw [parts, List.mem_cons, List.mem_append]
    rcases Progress.mem_andThen member with ofLeft | later
    · have inLeft := computes_of_mem_progress left ofLeft
      exact ⟨.inr (.inl inLeft.1), inLeft.2⟩
    rcases Progress.mem_andThen later with ofNeed | later
    · exact absurd ofNeed List.not_mem_nil
    rcases Progress.mem_andThen later with ofRight | later
    · have inRight := computes_of_mem_progress right ofRight
      exact ⟨.inr (.inr inRight.1), inRight.2⟩
    rcases Progress.mem_andThen later with ofNeed | itself
    · exact absurd ofNeed List.not_mem_nil
    · cases List.mem_singleton.1 itself
      exact ⟨.inl rfl, trivial⟩
  | .call target method args, member => by
    rw [progress] at member
    rw [parts, List.mem_cons, List.mem_append]
    rcases Progress.mem_andThen member with ofTarget | later
    · split at ofTarget
      · exact absurd ofTarget List.not_mem_nil
      · rcases Progress.mem_andThen ofTarget with inside | ofNeed
        · have inTarget := computes_of_mem_progress target inside
          exact ⟨.inr (.inl inTarget.1), inTarget.2⟩
        · exact absurd ofNeed List.not_mem_nil
    rcases Progress.mem_andThen later with ofArgs | itself
    · have inArgs := computes_of_mem_progressOfArgs args ofArgs
      exact ⟨.inr (.inr inArgs.1), inArgs.2⟩
    · split at itself
      · exact absurd itself List.not_mem_nil
      · next notVoid =>
        cases List.mem_singleton.1 itself
        exact ⟨.inl rfl, notVoid⟩
  | .assign name ty value, member => by
    rw [progress] at member
    rcases Progress.mem_andThen member with inside | ofNeed
    · have inValue := computes_of_mem_progress value inside
      exact ⟨List.mem_cons_of_mem _ inValue.1, inValue.2⟩
    · exact absurd ofNeed List.not_mem_nil
  | .ret value ty, member => by
    rw [progress] at member
    rcases Progress.mem_andThen member with inside | ofNeed
    · have inValue := computes_of_mem_progress value inside
      exact ⟨List.mem_cons_of_mem _ inValue.1, inValue.2⟩
    · split at ofNeed <;> exact absurd ofNeed List.not_mem_nil
  | .block children, member => by
    rw [progress] at member
    have inChildren := computes_of_mem_progressOfAll children member
    exact ⟨List.mem_cons_of_mem _ inChildren.1, inChildren.2⟩

theorem computes_of_mem_progressOfArgs :
    (args : List Node) → drawn ∈ (progressOfArgs symbols args).drew →
      drawn ∈ partsOfList args ∧ drawn.Computes symbols
  | [], member => absurd member List.not_mem_nil
  | arg :: rest, member => by
    rw [progressOfArgs] at member
    rw [partsOfList, List.mem_append]
    rcases Progress.mem_andThen member with ofArg | later
    · have inArg := computes_of_mem_progress arg ofArg
      exact ⟨.inl inArg.1, inArg.2⟩
    rcases Progress.mem_andThen later with ofNeed | ofRest
    · exact absurd ofNeed List.not_mem_nil
    · have inRest := computes_of_mem_progressOfArgs rest ofRest
      exact ⟨.inr inRest.1, inRest.2⟩

theorem computes_of_mem_progressOfAll :
    (statements : List Node) → drawn ∈ (progressOfAll symbols statements).drew →
      drawn ∈ partsOfList statements ∧ drawn.Computes symbols
  | [], member => absurd member List.not_mem_nil
  | statement :: rest, member => by
    rw [progressOfAll] at member
    rw [partsOfList, List.mem_append]
    rcases Progress.mem_andThen member with ofStatement | ofRest
    · have inStatement := computes_of_mem_progress statement ofStatement
      exact ⟨.inl inStatement.1, inStatement.2⟩
    · have inRest := computes_of_mem_progressOfAll rest ofRest
      exact ⟨.inr inRest.1, inRest.2⟩

end

end Node

/-! ### Calls of a lowerer -/

/-- What a lowerer is asked to lower: one tree, or a method body. -/
inductive LowererCall where
  | tree (node : Node)
  | body (statements : List Node)

namespace LowererCall

/-- The statements of a call. -/
def nodes : LowererCall → List Node
  | .tree node => [node]
  | .body statements => statements

/-- The instructions that a call gives, if it succeeds. -/
def lower (symbols : Symbols) : LowererCall → LowerM (List Instr)
  | .tree node => do return (← node.lower symbols).instrs
  | .body statements => Node.lowerBody symbols statements

/-- The supply that the first draw of a call is made from. -/
def start (call : LowererCall) (temps : Temps) : Temps :=
  match call with
  | .tree _ => temps
  | .body statements => temps.reserveAll (Node.namesOfList statements)

def progress (symbols : Symbols) : LowererCall → Progress
  | .tree node => node.progress symbols
  | .body statements => Node.progressOfAll symbols statements

/-- What a call draws from a supply, in order. -/
def drawings (symbols : Symbols) (call : LowererCall) (temps : Temps) : List Drawing :=
  Drawing.inTurn (call.start temps) (call.progress symbols).drew

theorem next_start (call : LowererCall) (temps : Temps) : (call.start temps).next = temps.next := by
  cases call with
  | tree node => rfl
  | body statements => exact temps.next_reserveAll _

variable {symbols : Symbols}

/-- A call leaves the supply after its draws, also when it fails. -/
theorem supplyAfter_eq (call : LowererCall) (temps : Temps) :
    (call.lower symbols).supplyAfter temps =
      (call.start temps).afterDraws (call.drawings symbols temps).length := by
  have count : (call.drawings symbols temps).length = (call.progress symbols).drew.length := by
    rw [← List.length_map Drawing.node, drawings, Drawing.map_node_inTurn]
  rw [count]
  cases call with
  | tree node => exact ((Node.makes_lower node).map Lowered.instrs).supplyAfter_eq temps
  | body statements => exact (Node.makes_lowerAll statements).supplyAfter_eq _

/-- A call fails exactly where a value is missing. -/
theorem succeeds_iff (call : LowererCall) (temps : Temps) :
    (∃ instrs after, (call.lower symbols).run temps = .ok instrs after) ↔
      (call.progress symbols).finished = true := by
  cases call with
  | tree node => exact ((Node.makes_lower node).map Lowered.instrs).succeeds_iff temps
  | body statements => exact (Node.makes_lowerAll statements).succeeds_iff _

/-- The names that a call draws, in order. -/
theorem draws (symbols : Symbols) (call : LowererCall) (temps : Temps) :
    (call.start temps).Draws ((call.drawings symbols temps).map Drawing.name)
      ((call.lower symbols).supplyAfter temps) where
  names_eq := by rw [List.length_map, drawings, Drawing.map_name_inTurn, ← List.length_map Drawing.node,
    Drawing.map_node_inTurn]
  after_eq := by rw [List.length_map, supplyAfter_eq]

theorem computes_of_mem_drawings {call : LowererCall} {temps : Temps} {drawing : Drawing}
    (member : drawing ∈ call.drawings symbols temps) :
    drawing.node ∈ Node.partsOfList call.nodes ∧ drawing.node.Computes symbols := by
  have drew : drawing.node ∈ (call.progress symbols).drew := by
    have drawn := List.mem_map_of_mem (f := Drawing.node) member
    rw [drawings, Drawing.map_node_inTurn] at drawn
    exact drawn
  cases call with
  | tree node =>
    rw [nodes, Node.partsOfList, Node.partsOfList, List.append_nil]
    exact Node.computes_of_mem_progress node drew
  | body statements => exact Node.computes_of_mem_progressOfAll statements drew

/-- The calls of a lowerer, each with the supply that it starts from. -/
def history (symbols : Symbols) (temps : Temps) : List LowererCall → List (LowererCall × Temps)
  | [] => []
  | call :: rest => (call, temps) :: history symbols ((call.lower symbols).supplyAfter temps) rest

/-- Everything that is drawn over the calls of a lowerer, in order. -/
def drawnOver (symbols : Symbols) (temps : Temps) (calls : List LowererCall) : List Drawing :=
  (history symbols temps calls).flatMap fun (call, before) => call.drawings symbols before

/-- Over the calls of a lowerer, no index is passed twice: whatever is drawn is the name of an
index that the supply has not passed before. -/
theorem index_of_mem_drawnOver {temps : Temps} {calls : List LowererCall} {name : String}
    (member : name ∈ (drawnOver symbols temps calls).map Drawing.name) :
    ∃ index, temps.next ≤ index ∧ name = tempName index := by
  induction calls generalizing temps with
  | nil => exact absurd member List.not_mem_nil
  | cons call rest inductionHypothesis =>
    rw [drawnOver, history, List.flatMap_cons, List.map_append, List.mem_append] at member
    have draws := call.draws symbols temps
    rcases member with here | later
    · rcases draws.drew here with ⟨-, index, fromStart, -, named⟩
      rw [next_start] at fromStart
      exact ⟨index, fromStart, named⟩
    · rcases inductionHypothesis later with ⟨index, fromAfter, named⟩
      have forward := draws.after_eq ▸ Temps.next_add_le_afterDraws (call.start temps) _
      rw [next_start] at forward
      exact ⟨index, by omega, named⟩

theorem nodup_drawnOver (temps : Temps) (calls : List LowererCall) :
    ((drawnOver symbols temps calls).map Drawing.name).Nodup := by
  induction calls generalizing temps with
  | nil => exact List.nodup_nil
  | cons call rest inductionHypothesis =>
    have draws := call.draws symbols temps
    rw [drawnOver, history, List.flatMap_cons, List.map_append, List.nodup_append]
    refine ⟨draws.nodup, inductionHypothesis _, ?_⟩
    intro name here _ later same
    cases same
    rcases draws.drew here with ⟨-, index, -, passed, named⟩
    rcases index_of_mem_drawnOver later with ⟨again, notPassed, namedAgain⟩
    have sameIndex := tempName_injective (named.symm.trans namedAgain)
    omega

end LowererCall

/-! ### The temporaries of a lowerer -/

/-- What a body makes of a name drawn for it: the name is assigned once and used at most once
after that, and no variable of the body, however deeply nested, has it. -/
structure DrawnFor (statements : List Node) (instrs : List Instr) (name : String) : Prop where
  assignedThenUsed : AssignedThenUsed instrs name
  notInSource : ∀ part ∈ Node.partsOfList statements, part.variableName? ≠ some name

theorem drawnFor_of_lowerBody {symbols : Symbols} {before after : Temps} {statements : List Node}
    {instrs : List Instr}
    (accepted : (Node.lowerBody symbols statements).run before = .ok instrs after) {drawing : Drawing}
    (member : drawing ∈ (LowererCall.body statements).drawings symbols before) :
    DrawnFor statements instrs drawing.name := by
  have lowersAll := lowerBody_eq_ok_iff.1 accepted
  have left : ((LowererCall.body statements).lower symbols).supplyAfter before = after :=
    LowerM.supplyAfter_of_ok accepted
  have draws := left ▸ (LowererCall.body statements).draws symbols before
  have drawn := List.mem_map_of_mem (f := Drawing.name) member
  have areReserved : ∀ name ∈ Node.namesOfList statements,
      name ∈ (before.reserveAll (Node.namesOfList statements)).reserved :=
    fun name inBody => (Temps.mem_reserved_reserveAll before _ name).2 (.inl inBody)
  constructor
  · exact lowersAll.assignedThenUsed areReserved draws drawn
  · intro part inside named
    have notReserved := (draws.drew drawn).not_reserved
    rw [lowersAll.extends.reserved_eq] at notReserved
    exact notReserved (areReserved _ (Node.mem_names_of_mem_partsOfList named statements inside))

/-- The temporaries over the calls of a lowerer. -/
structure SoundTemporaries (symbols : Symbols) (temps : Temps) (calls : List LowererCall) : Prop where
  /-- Every call moves the supply by its draws, succeeding or not. -/
  complete : ∀ step ∈ LowererCall.history symbols temps calls,
    (step.1.lower symbols).supplyAfter step.2 =
      (step.1.start step.2).afterDraws (step.1.drawings symbols step.2).length
  /-- Draws are for operators applied and for calls that return something. -/
  forValues : ∀ step ∈ LowererCall.history symbols temps calls,
    ∀ drawing ∈ step.1.drawings symbols step.2,
      drawing.node ∈ Node.partsOfList step.1.nodes ∧ drawing.node.Computes symbols
  distinct : ((LowererCall.drawnOver symbols temps calls).map Drawing.name).Nodup
  notReserved : ∀ step ∈ LowererCall.history symbols temps calls,
    ∀ drawing ∈ step.1.drawings symbols step.2,
      drawing.supply.reserved = (step.1.start step.2).reserved ∧
        drawing.name ∉ drawing.supply.reserved
  inBodies : ∀ statements before instrs after,
    (.body statements, before) ∈ LowererCall.history symbols temps calls →
    (Node.lowerBody symbols statements).run before = .ok instrs after →
    ∀ drawing ∈ (LowererCall.body statements).drawings symbols before,
      DrawnFor statements instrs drawing.name

/-- Temporaries are single-assignment, and none of them captures a variable of the source. -/
theorem lowerer_temporaries_sound (symbols : Symbols) (temps : Temps) (calls : List LowererCall) :
    SoundTemporaries symbols temps calls where
  complete step _ := step.1.supplyAfter_eq step.2
  forValues _ _ _ member := LowererCall.computes_of_mem_drawings member
  distinct := LowererCall.nodup_drawnOver temps calls
  notReserved _ _ drawing member :=
    ⟨Drawing.reserved_of_mem_inTurn member, drawing.supply.draw_not_reserved⟩
  inBodies _ _ _ _ _ accepted _ member := drawnFor_of_lowerBody accepted member

/-- A sum whose right side has no value is not lowered, and its left side has drawn a name by
then. The body after it draws the next name that it does not use itself. -/
example :
    let sum : Node := .binary .add (.int 1) (.int 2) .int
    (LowererCall.drawnOver { className := "Point" } {}
      [.tree (.binary .add sum (.retBare .void) .int), .body [.assign "tmp1" .int sum]]).map
        Drawing.name = ["tmp0", "tmp2"] := by
  decide

end Stackwright
