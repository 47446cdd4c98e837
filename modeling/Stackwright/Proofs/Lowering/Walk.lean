import Stackwright.Proofs.Tree.Positions

/-!
Contract: the order in which lowering goes through a tree.

Owns:
- the number of temporaries that a tree takes, read off the tree alone;
- the walk through a tree: where each part is left, and where a value is asked for;
- the parts are left in postorder, and an operand is asked for its value right after it was left;
- a value is asked for exactly where an operand stands;
- the temporaries of a walk are numbered in the order in which their trees are left.

The walk says nothing of supplies and names. A part is known by the tree itself and by the
number of temporaries that were taken before it was entered, since equal trees may stand in
several places.
-/

namespace Stackwright

namespace Node

mutual

/-- The temporaries that a tree takes: one for every operator that is applied, and one for
every call that returns something. -/
def draws (symbols : Symbols) : Node → Nat
  | .int _ | .bool _ | .varRef _ _ | .receiver | .retBare _ => 0
  | .binary _ left right _ => left.draws symbols + right.draws symbols + 1
  | .call target method args =>
    target.draws symbols + drawsOfList symbols args + (if symbols.resultOf method = .void then 0 else 1)
  | .assign _ _ value => value.draws symbols
  | .ret value _ => value.draws symbols
  | .block children => drawsOfList symbols children

def drawsOfList (symbols : Symbols) : List Node → Nat
  | [] => 0
  | node :: rest => node.draws symbols + drawsOfList symbols rest

end

mutual

/-- The parts of a tree, from left to right, each after all parts inside it. -/
def postorder : Node → List Node
  | .binary operator left right ty =>
    left.postorder ++ right.postorder ++ [.binary operator left right ty]
  | .call target method args =>
    target.postorder ++ postorderOfList args ++ [.call target method args]
  | .assign name ty value => value.postorder ++ [.assign name ty value]
  | .ret value ty => value.postorder ++ [.ret value ty]
  | .block children => postorderOfList children ++ [.block children]
  | .int value => [.int value]
  | .bool value => [.bool value]
  | .varRef name ty => [.varRef name ty]
  | .receiver => [.receiver]
  | .retBare ty => [.retBare ty]

def postorderOfList : List Node → List Node
  | [] => []
  | node :: rest => node.postorder ++ postorderOfList rest

end

end Node

/-- A place in a tree: the part that stands there, and how many temporaries were taken before
it was entered. -/
structure Visit where
  node : Node
  drawn : Nat

/-- The number of the temporary that a part takes for itself, after all parts inside it. -/
def Visit.temp? (symbols : Symbols) (visit : Visit) : Option Nat :=
  match visit.node with
  | .binary _ left right _ => some (visit.drawn + left.draws symbols + right.draws symbols)
  | .call target method args =>
    if symbols.resultOf method = .void then none
    else some (visit.drawn + target.draws symbols + Node.drawsOfList symbols args)
  | _ => none

/-- What happens on the way: a part is left, or a value is asked for. -/
inductive Stop where
  | leave (visit : Visit)
  | ask (site : ValueSite) (operand : Node)

namespace Stop

/-- A value is asked for, unless there is no use for it. -/
def askUnless (skip : Prop) [Decidable skip] (site : ValueSite) (operand : Node) : List Stop :=
  if skip then [] else [.ask site operand]

/-- The part that is left. -/
def visit? : Stop → Option Visit
  | .leave visit => some visit
  | .ask _ _ => none

/-- The part that is asked for its value. -/
def operand? : Stop → Option Node
  | .leave _ => none
  | .ask _ operand => some operand

/-- The parts that are left, in order. -/
def visits (stops : List Stop) : List Visit :=
  stops.filterMap visit?

/-- The parts that are asked for their values, in order. -/
def asked (stops : List Stop) : List Node :=
  stops.filterMap operand?

/-- The numbers of the temporaries that are taken, in order. -/
def temps (symbols : Symbols) (stops : List Stop) : List Nat :=
  (visits stops).filterMap (Visit.temp? symbols)

section Lists

variable (symbols : Symbols) (first second stops : List Stop) (visit : Visit) (skip : Prop) [Decidable skip]
  (site : ValueSite) (operand : Node)

@[simp] theorem visits_nil : visits [] = [] := rfl

@[simp] theorem visits_leave : visits (.leave visit :: stops) = visit :: visits stops := rfl

@[simp] theorem visits_ask : visits (.ask site operand :: stops) = visits stops := rfl

@[simp] theorem visits_askUnless : visits (askUnless skip site operand) = [] := by
  unfold askUnless
  split <;> rfl

@[simp] theorem visits_append : visits (first ++ second) = visits first ++ visits second :=
  List.filterMap_append

@[simp] theorem asked_nil : asked [] = [] := rfl

@[simp] theorem asked_leave : asked (.leave visit :: stops) = asked stops := rfl

@[simp] theorem asked_ask : asked (.ask site operand :: stops) = operand :: asked stops := rfl

@[simp] theorem asked_askUnless : asked (askUnless skip site operand) = if skip then [] else [operand] := by
  unfold askUnless
  split <;> rfl

@[simp] theorem asked_append : asked (first ++ second) = asked first ++ asked second :=
  List.filterMap_append

@[simp] theorem temps_nil : temps symbols [] = [] := rfl

@[simp] theorem temps_leave :
    temps symbols (.leave visit :: stops) = (visit.temp? symbols).toList ++ temps symbols stops := by
  unfold temps
  rw [visits_leave, List.filterMap_cons]
  cases visit.temp? symbols <;> rfl

@[simp] theorem temps_ask : temps symbols (.ask site operand :: stops) = temps symbols stops := rfl

@[simp] theorem temps_askUnless : temps symbols (askUnless skip site operand) = [] := by
  unfold askUnless
  split <;> rfl

@[simp] theorem temps_append :
    temps symbols (first ++ second) = temps symbols first ++ temps symbols second := by
  unfold temps
  rw [visits_append, List.filterMap_append]

end Lists

theorem mem_visits {stops : List Stop} {visit : Visit} : visit ∈ visits stops ↔ .leave visit ∈ stops := by
  induction stops with
  | nil => simp
  | cons stop rest inductionHypothesis => cases stop <;> simp [inductionHypothesis]

theorem mem_asked {stops : List Stop} {operand : Node} :
    operand ∈ asked stops ↔ ∃ site, .ask site operand ∈ stops := by
  induction stops with
  | nil => simp
  | cons stop rest inductionHypothesis => cases stop <;> simp [inductionHypothesis, exists_or]

end Stop

/-- Every part that is asked for its value has just been left. -/
inductive Stop.AsksInTurn : List Stop → Prop where
  | nil : AsksInTurn []
  | leave {stops : List Stop} (visit : Visit) (rest : AsksInTurn stops) : AsksInTurn (.leave visit :: stops)
  | ask {stops : List Stop} (visit : Visit) (site : ValueSite) (rest : AsksInTurn stops) :
      AsksInTurn (.leave visit :: .ask site visit.node :: stops)

namespace Stop

theorem AsksInTurn.append {first second : List Stop} (inTurn : AsksInTurn first)
    (inTurnAfter : AsksInTurn second) : AsksInTurn (first ++ second) := by
  induction inTurn with
  | nil => exact inTurnAfter
  | leave visit _ inductionHypothesis => exact .leave visit inductionHypothesis
  | ask visit site _ inductionHypothesis => exact .ask visit site inductionHypothesis

/-- The stops of a walk end where its tree is left. -/
def EndsAt (stops : List Stop) (visit : Visit) : Prop :=
  ∃ inside, stops = inside ++ [.leave visit] ∧ AsksInTurn inside

namespace EndsAt

variable {stops : List Stop} {visit : Visit}

theorem inTurn (ends : EndsAt stops visit) : AsksInTurn stops := by
  obtain ⟨inside, rfl, inTurn⟩ := ends
  exact inTurn.append (.leave visit .nil)

theorem ask (ends : EndsAt stops visit) (site : ValueSite) : AsksInTurn (stops ++ [.ask site visit.node]) := by
  obtain ⟨inside, rfl, inTurn⟩ := ends
  rw [List.append_assoc]
  exact inTurn.append (.ask visit site .nil)

theorem askUnless (ends : EndsAt stops visit) (skip : Prop) [Decidable skip] (site : ValueSite) :
    AsksInTurn (stops ++ Stop.askUnless skip site visit.node) := by
  unfold Stop.askUnless
  split
  · rw [List.append_nil]
    exact ends.inTurn
  · exact ends.ask site

end EndsAt

end Stop

namespace Node

mutual

/-- The walk through a tree of which `drawn` temporaries were taken before. Every operand is
asked for its value as soon as it has been left itself. -/
def walk (symbols : Symbols) (drawn : Nat) : Node → List Stop
  | .int value => [.leave ⟨.int value, drawn⟩]
  | .bool value => [.leave ⟨.bool value, drawn⟩]
  | .varRef name ty => [.leave ⟨.varRef name ty, drawn⟩]
  | .receiver => [.leave ⟨.receiver, drawn⟩]
  | .retBare ty => [.leave ⟨.retBare ty, drawn⟩]
  | .binary operator left right ty =>
    left.walk symbols drawn ++ [.ask .leftOperand left] ++
      right.walk symbols (drawn + left.draws symbols) ++ [.ask .rightOperand right] ++
      [.leave ⟨.binary operator left right ty, drawn⟩]
  | .call target method args =>
    target.walk symbols drawn ++
      Stop.askUnless (target.staticTarget? symbols).isSome .callReceiver target ++
      walkArgs symbols method 0 (drawn + target.draws symbols) args ++
      [.leave ⟨.call target method args, drawn⟩]
  | .assign name ty value =>
    value.walk symbols drawn ++ [.ask (.assigned name) value] ++ [.leave ⟨.assign name ty value, drawn⟩]
  | .ret value ty =>
    value.walk symbols drawn ++ Stop.askUnless (ty = .void) .returned value ++
      [.leave ⟨.ret value ty, drawn⟩]
  | .block children => walkAll symbols drawn children ++ [.leave ⟨.block children, drawn⟩]

/-- The walk through the arguments of a call, from the one at `index` on. -/
def walkArgs (symbols : Symbols) (method : String) (index drawn : Nat) : List Node → List Stop
  | [] => []
  | arg :: rest =>
    arg.walk symbols drawn ++ [.ask (.argument index method) arg] ++
      walkArgs symbols method (index + 1) (drawn + arg.draws symbols) rest

/-- The walk through statements, none of which is asked for a value. -/
def walkAll (symbols : Symbols) (drawn : Nat) : List Node → List Stop
  | [] => []
  | statement :: rest =>
    statement.walk symbols drawn ++ walkAll symbols (drawn + statement.draws symbols) rest

end

variable {symbols : Symbols}

/-! ### Parts are left in postorder -/

mutual

/-- The parts of a tree are left in postorder. -/
theorem visits_walk (drawn : Nat) :
    (node : Node) → (Stop.visits (node.walk symbols drawn)).map Visit.node = node.postorder
  | .int _ | .bool _ | .varRef _ _ | .receiver | .retBare _ => rfl
  | .binary operator left right ty => by
    simp [walk, postorder, visits_walk _ left, visits_walk _ right]
  | .call target method args => by
    simp [walk, postorder, visits_walk _ target, visits_walkArgs _ _ _ args]
  | .assign name ty value => by simp [walk, postorder, visits_walk _ value]
  | .ret value ty => by simp [walk, postorder, visits_walk _ value]
  | .block children => by simp [walk, postorder, visits_walkAll _ children]

theorem visits_walkArgs (method : String) (index drawn : Nat) :
    (args : List Node) →
      (Stop.visits (walkArgs symbols method index drawn args)).map Visit.node = postorderOfList args
  | [] => rfl
  | arg :: rest => by
    simp [walkArgs, postorderOfList, visits_walk _ arg, visits_walkArgs _ _ _ rest]

theorem visits_walkAll (drawn : Nat) :
    (statements : List Node) →
      (Stop.visits (walkAll symbols drawn statements)).map Visit.node = postorderOfList statements
  | [] => rfl
  | statement :: rest => by
    simp [walkAll, postorderOfList, visits_walk _ statement, visits_walkAll _ rest]

end

/-! ### Operands are asked for their values after their own parts -/

mutual

/-- The last stop of a walk is its own tree, and before that every operand is asked for its value
right after its own walk. -/
theorem walk_endsAt (drawn : Nat) : (node : Node) → Stop.EndsAt (node.walk symbols drawn) ⟨node, drawn⟩
  | .int _ | .bool _ | .varRef _ _ | .receiver | .retBare _ => ⟨[], rfl, .nil⟩
  | .binary operator left right ty => by
    have ofLeft := (walk_endsAt drawn left).ask .leftOperand
    have ofRight := (walk_endsAt (drawn + left.draws symbols) right).ask .rightOperand
    refine ⟨_, rfl, ?_⟩
    rw [List.append_assoc]
    exact ofLeft.append ofRight
  | .call target method args => by
    have ofTarget := (walk_endsAt drawn target).askUnless (target.staticTarget? symbols).isSome .callReceiver
    exact ⟨_, rfl, ofTarget.append (walkArgs_inTurn method 0 _ args)⟩
  | .assign name ty value => ⟨_, rfl, (walk_endsAt drawn value).ask (.assigned name)⟩
  | .ret value ty => ⟨_, rfl, (walk_endsAt drawn value).askUnless (ty = .void) .returned⟩
  | .block children => ⟨_, rfl, walkAll_inTurn drawn children⟩

theorem walkArgs_inTurn (method : String) (index drawn : Nat) :
    (args : List Node) → Stop.AsksInTurn (walkArgs symbols method index drawn args)
  | [] => .nil
  | arg :: rest =>
    ((walk_endsAt drawn arg).ask (.argument index method)).append (walkArgs_inTurn method (index + 1) _ rest)

theorem walkAll_inTurn (drawn : Nat) :
    (statements : List Node) → Stop.AsksInTurn (walkAll symbols drawn statements)
  | [] => .nil
  | statement :: rest => (walk_endsAt drawn statement).inTurn.append (walkAll_inTurn _ rest)

end

/-! ### Values are asked for where operands stand -/

section Asked

variable {asked : Node}

mutual

/-- The parts that are asked for their values are the operands of all parts. -/
theorem mem_asked_walk (drawn : Nat) :
    (node : Node) → (asked ∈ Stop.asked (node.walk symbols drawn) ↔
      asked ∈ node.parts.flatMap (operands symbols))
  | .int _ | .bool _ | .varRef _ _ | .receiver | .retBare _ => by simp [walk, parts, operands]
  | .binary operator left right ty => by
    have ofLeft := mem_asked_walk drawn left
    have ofRight := mem_asked_walk (drawn + left.draws symbols) right
    simp only [walk, parts, operands, Stop.asked_append, Stop.asked_ask, Stop.asked_leave, Stop.asked_nil,
      List.flatMap_cons, List.flatMap_append, List.mem_append, List.mem_cons, ofLeft, ofRight]
    grind
  | .call target method args => by
    have ofTarget := mem_asked_walk drawn target
    have ofArgs := mem_asked_walkArgs method 0 (drawn + target.draws symbols) args
    simp only [walk, parts, operands, Stop.asked_append, Stop.asked_askUnless, Stop.asked_leave, Stop.asked_nil,
      List.flatMap_cons, List.flatMap_append, List.mem_append, ofTarget, ofArgs]
    grind
  | .assign name ty value => by
    simp [walk, parts, operands, mem_asked_walk drawn value, or_comm]
  | .ret value ty => by
    have ofValue := mem_asked_walk drawn value
    simp only [walk, parts, operands, Stop.asked_append, Stop.asked_askUnless, Stop.asked_leave, Stop.asked_nil,
      List.flatMap_cons, List.mem_append, ofValue]
    grind
  | .block children => by
    simp [walk, parts, operands, mem_asked_walkAll drawn children]

theorem mem_asked_walkArgs (method : String) (index drawn : Nat) :
    (args : List Node) → (asked ∈ Stop.asked (walkArgs symbols method index drawn args) ↔
      asked ∈ args ∨ asked ∈ (partsOfList args).flatMap (operands symbols))
  | [] => by simp [walkArgs, partsOfList]
  | arg :: rest => by
    have ofArg := mem_asked_walk drawn arg
    have ofRest := mem_asked_walkArgs method (index + 1) (drawn + arg.draws symbols) rest
    simp only [walkArgs, partsOfList, Stop.asked_append, Stop.asked_ask, Stop.asked_nil,
      List.flatMap_append, List.mem_append, List.mem_cons, ofArg, ofRest]
    grind

theorem mem_asked_walkAll (drawn : Nat) :
    (statements : List Node) → (asked ∈ Stop.asked (walkAll symbols drawn statements) ↔
      asked ∈ (partsOfList statements).flatMap (operands symbols))
  | [] => by simp [walkAll, partsOfList]
  | statement :: rest => by
    simp only [walkAll, partsOfList, Stop.asked_append, List.flatMap_append, List.mem_append,
      mem_asked_walk drawn statement, mem_asked_walkAll _ rest]

end

end Asked

/-! ### Temporaries are numbered in the order of the walk -/

mutual

/-- A walk takes the temporaries from `drawn` on, as many as the tree takes. -/
theorem temps_walk (drawn : Nat) :
    (node : Node) → Stop.temps symbols (node.walk symbols drawn) = List.range' drawn (node.draws symbols)
  | .int _ | .bool _ | .varRef _ _ | .receiver | .retBare _ => by simp [walk, draws, Visit.temp?]
  | .binary operator left right ty => by
    simp [walk, draws, Visit.temp?, temps_walk _ left, temps_walk _ right, ← List.range'_append_1,
      Nat.add_assoc]
  | .call target method args => by
    have ofTarget := temps_walk drawn target
    have ofArgs := temps_walkArgs method 0 (drawn + target.draws symbols) args
    simp only [walk, draws, Visit.temp?, Stop.temps_append, Stop.temps_askUnless, Stop.temps_leave,
      Stop.temps_nil, List.append_nil, ofTarget, ofArgs]
    split <;> simp [← List.range'_append_1, Nat.add_assoc]
  | .assign name ty value => by simp [walk, draws, Visit.temp?, temps_walk _ value]
  | .ret value ty => by
    simp [walk, draws, Visit.temp?, temps_walk _ value]
  | .block children => by simp [walk, draws, Visit.temp?, temps_walkAll _ children]

theorem temps_walkArgs (method : String) (index drawn : Nat) :
    (args : List Node) → Stop.temps symbols (walkArgs symbols method index drawn args) =
      List.range' drawn (drawsOfList symbols args)
  | [] => rfl
  | arg :: rest => by
    simp [walkArgs, drawsOfList, temps_walk _ arg, temps_walkArgs _ _ _ rest, List.range'_append_1]

theorem temps_walkAll (drawn : Nat) :
    (statements : List Node) → Stop.temps symbols (walkAll symbols drawn statements) =
      List.range' drawn (drawsOfList symbols statements)
  | [] => rfl
  | statement :: rest => by
    simp [walkAll, drawsOfList, temps_walk _ statement, temps_walkAll _ rest, List.range'_append_1]

end

/-! ### No part takes more temporaries than the whole -/

section Within

variable {visit : Visit}

mutual

/-- When a part is left, no more temporaries were taken than in the end. -/
theorem le_of_mem_visits_walk (drawn : Nat) :
    (node : Node) → visit ∈ Stop.visits (node.walk symbols drawn) →
      visit.drawn + visit.node.draws symbols ≤ drawn + node.draws symbols
  | .int _, member | .bool _, member | .varRef _ _, member | .receiver, member | .retBare _, member => by
    cases List.mem_singleton.1 member
    exact Nat.le_refl _
  | .binary operator left right ty, member => by
    simp only [walk, Stop.visits_append, Stop.visits_ask, Stop.visits_leave, Stop.visits_nil, List.mem_append,
      List.mem_singleton, List.not_mem_nil, or_false] at member
    rcases member with (ofLeft | ofRight) | rfl
    · have bound := le_of_mem_visits_walk drawn left ofLeft
      rw [draws]
      omega
    · have bound := le_of_mem_visits_walk (drawn + left.draws symbols) right ofRight
      rw [draws]
      omega
    · exact Nat.le_refl _
  | .call target method args, member => by
    simp only [walk, Stop.visits_append, Stop.visits_askUnless, Stop.visits_leave, Stop.visits_nil,
      List.append_nil, List.mem_append, List.mem_singleton] at member
    rcases member with (ofTarget | ofArgs) | rfl
    · have bound := le_of_mem_visits_walk drawn target ofTarget
      rw [draws]
      omega
    · have bound := le_of_mem_visits_walkArgs method 0 (drawn + target.draws symbols) args ofArgs
      rw [draws]
      omega
    · exact Nat.le_refl _
  | .assign name ty value, member => by
    simp only [walk, Stop.visits_append, Stop.visits_ask, Stop.visits_leave, Stop.visits_nil, List.append_nil,
      List.mem_append, List.mem_singleton] at member
    rcases member with ofValue | rfl
    · exact le_of_mem_visits_walk drawn value ofValue
    · exact Nat.le_refl _
  | .ret value ty, member => by
    simp only [walk, Stop.visits_append, Stop.visits_askUnless, Stop.visits_leave, Stop.visits_nil,
      List.append_nil, List.mem_append, List.mem_singleton] at member
    rcases member with ofValue | rfl
    · exact le_of_mem_visits_walk drawn value ofValue
    · exact Nat.le_refl _
  | .block children, member => by
    simp only [walk, Stop.visits_append, Stop.visits_leave, Stop.visits_nil, List.mem_append,
      List.mem_singleton] at member
    rcases member with ofChildren | rfl
    · exact le_of_mem_visits_walkAll drawn children ofChildren
    · exact Nat.le_refl _

theorem le_of_mem_visits_walkArgs (method : String) (index drawn : Nat) :
    (args : List Node) → visit ∈ Stop.visits (walkArgs symbols method index drawn args) →
      visit.drawn + visit.node.draws symbols ≤ drawn + drawsOfList symbols args
  | [], member => absurd member List.not_mem_nil
  | arg :: rest, member => by
    simp only [walkArgs, Stop.visits_append, Stop.visits_ask, Stop.visits_nil, List.mem_append,
      List.not_mem_nil, or_false] at member
    rw [drawsOfList]
    rcases member with ofArg | ofRest
    · have bound := le_of_mem_visits_walk drawn arg ofArg
      omega
    · have bound := le_of_mem_visits_walkArgs method (index + 1) (drawn + arg.draws symbols) rest ofRest
      omega

theorem le_of_mem_visits_walkAll (drawn : Nat) :
    (statements : List Node) → visit ∈ Stop.visits (walkAll symbols drawn statements) →
      visit.drawn + visit.node.draws symbols ≤ drawn + drawsOfList symbols statements
  | [], member => absurd member List.not_mem_nil
  | statement :: rest, member => by
    simp only [walkAll, Stop.visits_append, List.mem_append] at member
    rw [drawsOfList]
    rcases member with ofStatement | ofRest
    · have bound := le_of_mem_visits_walk drawn statement ofStatement
      omega
    · have bound := le_of_mem_visits_walkAll (drawn + statement.draws symbols) rest ofRest
      omega

end

end Within

end Node

end Stackwright
