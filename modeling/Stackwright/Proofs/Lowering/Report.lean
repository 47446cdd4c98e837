import Stackwright.Proofs.Lowering.Postorder

/-!
Contract: which trees are lowered, and what is reported of the others.

Owns:
- the parts that draw temporaries along several stops, and the names that their values are kept in;
- lowering succeeds exactly if every operand has a value;
- a failure reports the first operand without a value in the order of the walk, and leaves the
  supply after one draw for each part before it that draws.

The supplies and names of a failed run are those of the parts that were completed, each of which
would have been lowered from the same supply on its own.
-/

namespace Stackwright

instance Node.decidableComputes (symbols : Symbols) : (node : Node) → Decidable (node.Computes symbols)
  | .binary _ _ _ _ => inferInstanceAs (Decidable True)
  | .call _ method _ => inferInstanceAs (Decidable (symbols.resultOf method ≠ .void))
  | .int _ | .bool _ | .varRef _ _ | .receiver | .assign _ _ _ | .ret _ _ | .retBare _ | .block _ =>
    inferInstanceAs (Decidable False)

/-- The parts that are left on the way and compute a value into a temporary, in order. -/
def Stop.computing (symbols : Symbols) (stops : List Stop) : List Visit :=
  (visits stops).filter fun visit => visit.node.Computes symbols

/-- The part was lowered in its turn, and its value went into the temporary. -/
def Visit.KeptIn (symbols : Symbols) (root : Temps) (visit : Visit) (name : String) : Prop :=
  ∃ lowered after ty, (visit.node.lower symbols).run (root.afterDraws visit.drawn) = .ok lowered after ∧
    lowered.value? = some (.variable name ty)

variable {symbols : Symbols} {root : Temps}

/-- Exactly the parts that compute a value take a temporary. -/
theorem Visit.isSome_temp?_iff {visit : Visit} :
    (visit.temp? symbols).isSome = true ↔ visit.node.Computes symbols := by
  obtain ⟨node, drawn⟩ := visit
  cases node <;> simp [temp?, Node.Computes]

/-- The value of a completed part is in the temporary that the part took. -/
theorem Visit.Completed.keptIn {visit : Visit} {number : Nat} (completed : visit.Completed symbols root)
    (taken : visit.temp? symbols = some number) : visit.KeptIn symbols root (root.drawnName number) := by
  obtain ⟨lowered, after, ran⟩ := completed
  obtain ⟨ty, stands⟩ := Visit.operand?_eq_temp_iff.2 taken
  have outlined : lowered.Outlined symbols root visit after := (Node.lowers_of_lower _ ran).outlined rfl
  refine ⟨lowered, after, ty, ran, ?_⟩
  rw [outlined.value_eq, stands]
  rfl

/-- The values of completed parts are kept one after the other. -/
theorem Visit.forall₂_keptIn {visits : List Visit}
    (completed : ∀ visit ∈ visits, visit.Completed symbols root) :
    List.Forall₂ (Visit.KeptIn symbols root) (visits.filter fun visit => visit.node.Computes symbols)
      ((visits.filterMap (Visit.temp? symbols)).map root.drawnName) := by
  induction visits with
  | nil => exact .nil
  | cons visit rest inductionHypothesis =>
    obtain ⟨completedFirst, completedRest⟩ := List.forall_mem_cons.1 completed
    cases taken : visit.temp? symbols with
    | none =>
      have computesNot : ¬visit.node.Computes symbols := by
        rw [← Visit.isSome_temp?_iff, taken]
        exact Bool.false_ne_true
      rw [List.filter_cons_of_neg (by simpa using computesNot), List.filterMap_cons_none taken]
      exact inductionHypothesis completedRest
    | some number =>
      have computes : visit.node.Computes symbols := Visit.isSome_temp?_iff.1 (by rw [taken]; rfl)
      rw [List.filter_cons_of_pos (by simpa using computes), List.filterMap_cons_some taken]
      exact .cons (completedFirst.keptIn taken) (inductionHypothesis completedRest)

/-- The first operand without a value, in the order of the walk. -/
structure Node.FirstMissing (symbols : Symbols) (node : Node) (earlier : List Stop) (site : ValueSite)
    (operand : Node) : Prop where
  reached : ∃ later, node.walk symbols 0 = earlier ++ .ask site operand :: later
  missing : operand.hasValue symbols = false
  present : ∀ asked ∈ Stop.asked earlier, asked.hasValue symbols = true

/-- Lowering succeeds exactly if every operand has a value, and otherwise reports the first one that
has none, after one draw for each part before it that computes a value. The first one is told by
the walk, which leaves parts in postorder and asks for the value of a part when it is left. -/
structure ReportsFirstMissing (symbols : Symbols) (node : Node) (temps : Temps) : Prop where
  inPostorder : (Stop.visits (node.walk symbols 0)).map Visit.node = node.postorder
  asksInTurn : Stop.AsksInTurn (node.walk symbols 0)
  succeeds_iff : (∃ lowered after, (node.lower symbols).run temps = .ok lowered after) ↔
    ∀ part ∈ node.parts, ∀ operand ∈ part.operands symbols, operand.hasValue symbols = true
  reports : ∀ fault after, (node.lower symbols).run temps = .error fault after →
    ∃ earlier site operand names,
      node.FirstMissing symbols earlier site operand ∧
      fault = .missingValue site ∧
      temps.Draws names after ∧
      List.Forall₂ (Visit.KeptIn symbols temps) (Stop.computing symbols earlier) names

/-- A part is asked for its value on the way through a tree exactly if it is an operand in it. -/
theorem Node.ask_mem_walk_iff {node asked : Node} :
    (∃ site, .ask site asked ∈ node.walk symbols 0) ↔
      ∃ part ∈ node.parts, asked ∈ part.operands symbols := by
  rw [← Stop.mem_asked, Node.mem_asked_walk, List.mem_flatMap]

/-- The temporaries before a stop are the first ones to be drawn. -/
theorem Node.draws_before {node : Node} {earlier later : List Stop}
    (reached : node.walk symbols 0 = earlier ++ later) :
    root.Draws ((Stop.temps symbols earlier).map root.drawnName)
      (root.afterDraws (Stop.temps symbols earlier).length) := by
  have all : Stop.temps symbols (node.walk symbols 0) = List.range' 0 (node.draws symbols) :=
    Node.temps_walk 0 node
  rw [reached, Stop.temps_append] at all
  obtain ⟨count, -, first, -⟩ := List.range'_eq_append_iff.1 all.symm
  have names_eq : (Stop.temps symbols earlier).map root.drawnName = root.drawnNames count := by
    rw [Temps.drawnNames_eq_map, first, List.range_eq_range']
  constructor
  · rw [List.length_map, names_eq, first, List.length_range']
  · rw [List.length_map]

/-- Lowering succeeds exactly if it has a value for every operand. -/
theorem Node.lower_succeeds_iff {node : Node} {temps : Temps} :
    (∃ lowered after, (node.lower symbols).run temps = .ok lowered after) ↔
      ∀ part ∈ node.parts, ∀ operand ∈ part.operands symbols, operand.hasValue symbols = true := by
  have follows : (node.lower symbols).Follows symbols temps 0 (node.walk symbols 0) 0 :=
    Node.follows_lower 0 node
  constructor
  · rintro ⟨lowered, after, accepted⟩ part isPart operand isOperand
    obtain ⟨site, onTheWay⟩ := Node.ask_mem_walk_iff.2 ⟨part, isPart, isOperand⟩
    exact (follows.ok accepted).1 _ onTheWay
  · intro present
    cases ran : (node.lower symbols).run temps with
    | ok lowered after => exact ⟨lowered, after, rfl⟩
    | error fault after =>
      obtain ⟨earlier, site, operand, later, reached, -, missing, -⟩ := (follows.error ran).missing
      have onTheWay : .ask site operand ∈ node.walk symbols 0 := by simp [reached]
      obtain ⟨part, isPart, isOperand⟩ := Node.ask_mem_walk_iff.1 ⟨site, onTheWay⟩
      rw [present part isPart operand isOperand] at missing
      cases missing

theorem lower_reports_first_missing (symbols : Symbols) (node : Node) (temps : Temps) :
    ReportsFirstMissing symbols node temps where
  inPostorder := Node.visits_walk 0 node
  asksInTurn := (Node.walk_endsAt 0 node).inTurn
  succeeds_iff := Node.lower_succeeds_iff
  reports fault after failed := by
    have follows : (node.lower symbols).Follows symbols temps 0 (node.walk symbols 0) 0 :=
      Node.follows_lower 0 node
    obtain ⟨earlier, site, operand, later, reached, passed, missing, fault_eq, after_eq⟩ :=
      (follows.error failed).missing
    have present : ∀ asked ∈ Stop.asked earlier, asked.hasValue symbols = true := by
      intro asked isAsked
      obtain ⟨askedAt, member⟩ := Stop.mem_asked.1 isAsked
      exact passed _ member
    have completed : ∀ visit ∈ Stop.visits earlier, visit.Completed symbols temps :=
      fun visit left => passed _ (Stop.mem_visits.1 left)
    rw [Nat.zero_add] at after_eq
    subst after_eq
    exact ⟨earlier, site, operand, _, ⟨⟨later, reached⟩, missing, present⟩, fault_eq,
      Node.draws_before reached, Visit.forall₂_keptIn completed⟩

/-- A call that returns nothing is no operand. Its argument has drawn a temporary by then, and so
has the left side. -/
example :
    let sum : Node := .binary .add (.int 1) (.int 2) .int
    ((Node.binary .add sum (.call .receiver "log" [sum]) .int).lower { className := "Point" }).run {} =
      .error (.missingValue .rightOperand) { next := 2 } :=
  rfl

end Stackwright
