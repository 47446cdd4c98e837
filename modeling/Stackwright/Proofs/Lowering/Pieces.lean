import Stackwright.Proofs.Lowering.Postorder
import Stackwright.Proofs.Lowering.Requests
import Stackwright.Proofs.Lowering.Session

/-!
Contract: bodies that are lowered piece by piece.

Owns:
- bodies in which a block that stands as a statement is opened, which are lowered to the same;
- draws from a supply in which further names are reserved: nothing changes if none of these names
  is drawn;
- a body in two pieces is lowered as one if no name of the second piece is drawn for the first.

A body reserves its names before it draws anything. What is left to show of two pieces is that the
names of the second one are reserved earlier than they would be for the pieces on their own.
-/

namespace Stackwright

/-! ### Open blocks -/

/-- The other body is the same with one block opened, which stands as a statement: in the body
itself or in a block that stands as a statement. -/
inductive Spliced : List Node → List Node → Prop where
  | here (before children after : List Node) :
      Spliced (before ++ .block children :: after) (before ++ (children ++ after))
  | inside {children opened : List Node} (before after : List Node) (ofChildren : Spliced children opened) :
      Spliced (before ++ .block children :: after) (before ++ .block opened :: after)

namespace Node

variable {symbols : Symbols}

theorem namesOfList_append (first second : List Node) :
    namesOfList (first ++ second) = namesOfList first ++ namesOfList second := by
  induction first with
  | nil => rfl
  | cons node rest inductionHypothesis =>
    rw [List.cons_append, namesOfList, namesOfList, inductionHypothesis, List.append_assoc]

/-- Statements in two parts are lowered one part after the other. -/
theorem lowerAll_append (symbols : Symbols) (first second : List Node) :
    lowerAll symbols (first ++ second) = do
      let instrs ← lowerAll symbols first
      return instrs ++ (← lowerAll symbols second) := by
  induction first with
  | nil => simp [lowerAll]
  | cons statement rest inductionHypothesis =>
    simp only [List.cons_append, lowerAll, inductionHypothesis, bind_assoc, pure_bind, List.append_assoc]

theorem lowerAll_block_cons (symbols : Symbols) (children rest : List Node) :
    lowerAll symbols (.block children :: rest) = do
      let instrs ← lowerAll symbols children
      return instrs ++ (← lowerAll symbols rest) := by
  simp only [lowerAll, lower, Lowered.ofInstrs, bind_assoc, pure_bind]

end Node

namespace Spliced

variable {body opened : List Node}

theorem namesOfList_eq (spliced : Spliced body opened) : Node.namesOfList body = Node.namesOfList opened := by
  induction spliced with
  | here before children after =>
    rw [Node.namesOfList_append, Node.namesOfList_append, Node.namesOfList_append, Node.namesOfList,
      Node.names]
  | inside before after _ inductionHypothesis =>
    rw [Node.namesOfList_append, Node.namesOfList_append, Node.namesOfList, Node.namesOfList, Node.names,
      Node.names, inductionHypothesis]

theorem lowerAll_eq (symbols : Symbols) (spliced : Spliced body opened) :
    Node.lowerAll symbols body = Node.lowerAll symbols opened := by
  induction spliced with
  | here before children after =>
    rw [Node.lowerAll_append, Node.lowerAll_append, Node.lowerAll_block_cons,
      Node.lowerAll_append symbols children]
  | inside before after _ inductionHypothesis =>
    rw [Node.lowerAll_append, Node.lowerAll_append, Node.lowerAll_block_cons, Node.lowerAll_block_cons,
      inductionHypothesis]

/-- An open block is lowered like a closed one: neither names nor statements change. -/
theorem lowerBody_eq (symbols : Symbols) (spliced : Spliced body opened) :
    Node.lowerBody symbols body = Node.lowerBody symbols opened := by
  rw [Node.lowerBody, Node.lowerBody, spliced.namesOfList_eq, spliced.lowerAll_eq]

end Spliced

/-! ### Further names reserved -/

namespace Temps

/-- Reservations do not depend on the counter. -/
theorem reserved_reserveAll_congr {first second : Temps} (same : first.reserved = second.reserved)
    (names : List String) : (first.reserveAll names).reserved = (second.reserveAll names).reserved := by
  induction names generalizing first second with
  | nil => exact same
  | cons name rest inductionHypothesis =>
    exact inductionHypothesis (congrArg (List.insert name) same)

variable {temps : Temps} {names : List String}

/-- A free name is still the next one if it is not reserved itself. -/
theorem draw_reserveAll (free : temps.draw.1 ∉ names) :
    (temps.reserveAll names).draw = (temps.draw.1, temps.draw.2.reserveAll names) := by
  have nextFree_eq : (temps.reserveAll names).nextFree = temps.nextFree := by
    refine (temps.reserveAll names).isLeast_nextFree.unique ⟨⟨?_, ?_⟩, ?_⟩
    · rw [next_reserveAll]
      exact temps.next_le_nextFree
    · rw [mem_reserved_reserveAll, not_or]
      exact ⟨free, temps.draw_not_reserved⟩
    · rintro index ⟨fromNext, isFree⟩
      rw [next_reserveAll] at fromNext
      rw [mem_reserved_reserveAll, not_or] at isFree
      exact temps.isLeast_nextFree.2 ⟨fromNext, isFree.2⟩
  have left : temps.draw.2.reserveAll names =
      { temps.reserveAll names with next := temps.nextFree + 1 } := by
    have same : temps.draw.2.reserved = temps.reserved := rfl
    rw [reserveAll_eq temps.draw.2, reserved_reserveAll_congr same]
    rfl
  rw [left, draw, nextFree_eq]
  rfl

/-- Draws that give none of the names are the same with these names reserved. -/
theorem draws_reserveAll {count : Nat} (free : ∀ name ∈ temps.drawnNames count, name ∉ names) :
    (temps.reserveAll names).drawnNames count = temps.drawnNames count ∧
      (temps.reserveAll names).afterDraws count = (temps.afterDraws count).reserveAll names := by
  induction count generalizing temps with
  | zero => exact ⟨rfl, rfl⟩
  | succ count inductionHypothesis =>
    rw [drawnNames, List.forall_mem_cons] at free
    obtain ⟨names_eq, after_eq⟩ := inductionHypothesis free.2
    rw [drawnNames, afterDraws, draw_reserveAll free.1, names_eq, after_eq]
    exact ⟨rfl, rfl⟩

theorem drawnName_reserveAll {count number : Nat} (free : ∀ name ∈ temps.drawnNames count, name ∉ names)
    (below : number < count) : (temps.reserveAll names).drawnName number = temps.drawnName number := by
  have names_eq := (draws_reserveAll free).1
  rw [drawnNames_eq_map, drawnNames_eq_map] at names_eq
  exact List.map_inj_left.1 names_eq number (List.mem_range.2 below)

end Temps

/-- The same outcome, with further names reserved in the supply that is left. -/
def LowerM.reserving {α : Type} (names : List String) :
    EStateM.Result Fault Temps α → EStateM.Result Fault Temps α
  | .ok value after => .ok value (after.reserveAll names)
  | .error fault after => .error fault (after.reserveAll names)

namespace Node

variable {symbols : Symbols} {temps : Temps} {names : List String}

/-- Reservations change nothing for a tree that none of the names is drawn for. -/
theorem lower_reserveAll {node : Node}
    (free : ∀ name ∈ temps.drawnNames (node.progress symbols).drew.length, name ∉ names) :
    (node.lower symbols).run (temps.reserveAll names) =
      LowerM.reserving names ((node.lower symbols).run temps) := by
  have left : (node.lower symbols).supplyAfter (temps.reserveAll names) =
      ((node.lower symbols).supplyAfter temps).reserveAll names := by
    rw [(makes_lower node).supplyAfter_eq, (makes_lower node).supplyAfter_eq, (Temps.draws_reserveAll free).2]
  cases ran : (node.lower symbols).run temps with
  | error fault after =>
    obtain ⟨afterOther, failed⟩ := lower_fails_alike ran (temps.reserveAll names)
    rw [LowerM.supplyAfter_of_error ran, LowerM.supplyAfter_of_error failed] at left
    rw [failed, left]
    rfl
  | ok lowered after =>
    cases ranOther : (node.lower symbols).run (temps.reserveAll names) with
    | error fault afterOther =>
      obtain ⟨_, failed⟩ := lower_fails_alike ranOther temps
      rw [ran] at failed
      cases failed
    | ok other afterOther =>
      rw [LowerM.supplyAfter_of_ok ran, LowerM.supplyAfter_of_ok ranOther] at left
      obtain ⟨after_eq, outline, has, rfl⟩ := hasOutline_of_lower ran
      obtain ⟨-, otherOutline, hasOther, rfl⟩ := hasOutline_of_lower ranOther
      cases has.unique hasOther
      have count : node.draws symbols = (node.progress symbols).drew.length := by
        refine @Temps.afterDraws_injective temps _ _ ?_
        rw [← after_eq, ← (makes_lower node).supplyAfter_eq, LowerM.supplyAfter_of_ok ran]
      have filled : outline.fill (temps.reserveAll names).drawnName = outline.fill temps.drawnName := by
        refine Outline.fill_congr fun number used => Temps.drawnName_reserveAll free ?_
        rw [← count]
        exact has.numbers_lt used
      rw [filled, left]
      rfl

/-- The same for statements, which are lowered like a block of them. -/
theorem lowerAll_reserveAll {statements : List Node}
    (free : ∀ name ∈ temps.drawnNames (progressOfAll symbols statements).drew.length, name ∉ names) :
    (lowerAll symbols statements).run (temps.reserveAll names) =
      LowerM.reserving names ((lowerAll symbols statements).run temps) := by
  have asBlock : lowerAll symbols statements =
      (Node.block statements).lower symbols >>= fun lowered => pure lowered.instrs := by
    simp only [lower, Lowered.ofInstrs, bind_assoc, pure_bind, bind_pure]
  have ofBlock : ((Node.block statements).lower symbols).run (temps.reserveAll names) =
      LowerM.reserving names (((Node.block statements).lower symbols).run temps) := by
    refine lower_reserveAll ?_
    rw [progress]
    exact free
  rw [asBlock, EStateM.run_bind, EStateM.run_bind, ofBlock]
  cases ((Node.block statements).lower symbols).run temps <;> rfl

/-- The names that are drawn for a body, in order. -/
def namesDrawn (symbols : Symbols) (temps : Temps) (body : List Node) : List String :=
  ((LowererCall.body body).drawings symbols temps).map Drawing.name

/-- A body in two pieces, the second of which mentions nothing that is drawn for the first. -/
theorem lowerBody_append {first second : List Node}
    (apart : ∀ name ∈ namesOfList second, name ∉ namesDrawn symbols temps first) :
    (lowerBody symbols (first ++ second)).run temps =
      match (lowerBody symbols first).run temps with
      | .error fault after => .error fault (after.reserveAll (namesOfList second))
      | .ok instrs middle =>
        match (lowerBody symbols second).run middle with
        | .error fault after => .error fault after
        | .ok others after => .ok (instrs ++ others) after := by
  have free : ∀ name ∈ (temps.reserveAll (namesOfList first)).drawnNames
      (progressOfAll symbols first).drew.length, name ∉ namesOfList second := by
    intro name drawn mentioned
    refine apart name mentioned ?_
    rw [namesDrawn, LowererCall.drawings, Drawing.map_name_inTurn]
    exact drawn
  have ofFirst := lowerAll_reserveAll free
  have run_eq (body : List Node) (before : Temps) : (lowerBody symbols body).run before =
      (lowerAll symbols body).run (before.reserveAll (namesOfList body)) := rfl
  rw [run_eq, run_eq, namesOfList_append, Temps.reserveAll_append, lowerAll_append, EStateM.run_bind, ofFirst]
  cases (lowerAll symbols first).run (temps.reserveAll (namesOfList first)) with
  | error fault after => rfl
  | ok instrs middle =>
    show (lowerAll symbols second >>= fun others => pure (instrs ++ others)).run
      (middle.reserveAll (namesOfList second)) = _
    rw [EStateM.run_bind]
    simp only [run_eq]
    cases (lowerAll symbols second).run (middle.reserveAll (namesOfList second)) <;> rfl

end Node

/-- Blocks are only structure, and bodies may be lowered in pieces. -/
structure LowersPiecewise (symbols : Symbols) (temps : Temps) : Prop where
  /-- To open a block that stands as a statement changes neither the outcome nor the supply. -/
  opens : ∀ body opened, Spliced body opened →
    (Node.lowerBody symbols opened).run temps = (Node.lowerBody symbols body).run temps
  /-- The names drawn for a body are those between the supply with the names of the body reserved and
  the supply that is left, whether the body is lowered or not. -/
  draws : ∀ body, (temps.reserveAll (Node.namesOfList body)).Draws (Node.namesDrawn symbols temps body)
    ((Node.lowerBody symbols body).supplyAfter temps)
  /-- Two pieces are lowered as one: the instructions of both and the supply after the second piece, or
  the first failure. -/
  pieces : ∀ first second, (∀ name ∈ Node.namesOfList second, name ∉ Node.namesDrawn symbols temps first) →
    (Node.lowerBody symbols (first ++ second)).run temps =
      match (Node.lowerBody symbols first).run temps with
      | .error fault after => .error fault (after.reserveAll (Node.namesOfList second))
      | .ok instrs middle =>
        match (Node.lowerBody symbols second).run middle with
        | .error fault after => .error fault after
        | .ok others after => .ok (instrs ++ others) after

theorem lowers_piecewise (symbols : Symbols) (temps : Temps) : LowersPiecewise symbols temps where
  opens body opened spliced := by rw [spliced.lowerBody_eq]
  draws body := (LowererCall.body body).draws symbols temps
  pieces _ _ apart := Node.lowerBody_append apart

/-- A second piece that mentions a name drawn for the first makes the first one draw another name. -/
example :
    let symbols : Symbols := { className := "Point" }
    let first : List Node := [.assign "x" .int (.binary .add (.int 1) (.int 2) .int)]
    let second : List Node := [.assign "tmp0" .int (.int 3)]
    Node.namesDrawn symbols {} first = ["tmp0"] ∧
      Node.namesDrawn symbols {} (first ++ second) = ["tmp1"] := by
  decide

end Stackwright
