import Stackwright.Proofs.Lowering.Progress
import Stackwright.Proofs.Lowering.Walk

/-!
Contract: lowering follows the walk through its tree, whether it fails or not.

Owns:
- what it takes to pass a stop: a part that is left has been lowered, from the supply after the
  draws before it, and a part that is asked for its value has one;
- steps of lowering that follow several stops: a step that succeeds has passed them all, and a step
  that fails has passed all stops before the first part without a value;
- lowering a tree follows the walk through it.

All supplies of a run are told by the number of draws since its start.
-/

namespace Stackwright

section Passing

variable (symbols : Symbols) (root : Temps)

/-- The part was lowered when lowering came to it. -/
def Visit.Completed (visit : Visit) : Prop :=
  ∃ lowered after, (visit.node.lower symbols).run (root.afterDraws visit.drawn) = .ok lowered after

/-- The draws that a part makes itself, after all parts inside it. -/
def Visit.ownDraws (visit : Visit) : Nat :=
  (visit.temp? symbols).toList.length

/-- Lowering goes on after this stop. -/
def Stop.Passed : Stop → Prop
  | .leave visit => visit.Completed symbols root
  | .ask _ operand => operand.hasValue symbols = true

/-- Lowering cannot go on after this stop. -/
def Stop.misses : Stop → Bool
  | .leave _ => false
  | .ask _ operand => !operand.hasValue symbols

/-- A failure at the first stop that cannot be passed, with a draw made for every part that took
a temporary before it. -/
structure FailsAlong (drawn : Nat) (stops : List Stop) (fault : Fault) (after : Temps) : Prop where
  missing : ∃ earlier site operand later,
    stops = earlier ++ .ask site operand :: later ∧
    (∀ stop ∈ earlier, stop.Passed symbols root) ∧
    operand.hasValue symbols = false ∧
    fault = .missingValue site ∧
    after = root.afterDraws (drawn + (Stop.temps symbols earlier).length)

/-- From the supply after `drawn` draws, the step passes the stops one by one, and makes `own`
more draws of its own after them. -/
structure LowerM.Follows {α : Type} (step : LowerM α) (drawn : Nat) (stops : List Stop) (own : Nat) :
    Prop where
  ok : ∀ {value after}, step.run (root.afterDraws drawn) = .ok value after →
    (∀ stop ∈ stops, stop.Passed symbols root) ∧
      after = root.afterDraws (drawn + (Stop.temps symbols stops).length + own)
  error : ∀ {fault after}, step.run (root.afterDraws drawn) = .error fault after →
    FailsAlong symbols root drawn stops fault after

end Passing

variable {symbols : Symbols} {root : Temps} {α β : Type} {drawn own : Nat} {stops more : List Stop}

theorem Stop.Passed.misses_eq {stop : Stop} (passed : stop.Passed symbols root) :
    stop.misses symbols = false := by
  cases stop with
  | leave visit => rfl
  | ask site operand => rw [misses, passed, Bool.not_true]

/-! ### Steps one after the other -/

namespace FailsAlong

variable {fault : Fault} {after : Temps}

/-- Stops that come later do not matter. -/
theorem append_later (fails : FailsAlong symbols root drawn stops fault after) (more : List Stop) :
    FailsAlong symbols root drawn (stops ++ more) fault after := by
  obtain ⟨earlier, site, operand, later, rfl, rest⟩ := fails.missing
  exact ⟨earlier, site, operand, later ++ more, by simp, rest⟩

/-- Stops that were passed before come first. -/
theorem append_earlier (passed : ∀ stop ∈ stops, stop.Passed symbols root)
    (fails : FailsAlong symbols root (drawn + (Stop.temps symbols stops).length) more fault after) :
    FailsAlong symbols root drawn (stops ++ more) fault after := by
  obtain ⟨earlier, site, operand, later, rfl, passedMore, missing, fault_eq, after_eq⟩ := fails.missing
  refine ⟨stops ++ earlier, site, operand, later, by simp, ?_, missing, fault_eq, ?_⟩
  · exact List.forall_mem_append.2 ⟨passed, passedMore⟩
  · rw [after_eq, Stop.temps_append, List.length_append, Nat.add_assoc]

end FailsAlong

namespace LowerM.Follows

theorem bind {step : LowerM α} {next : α → LowerM β} (follows : step.Follows symbols root drawn stops 0)
    (thenFollows : ∀ value after, step.run (root.afterDraws drawn) = .ok value after →
      (next value).Follows symbols root (drawn + (Stop.temps symbols stops).length) more own) :
    (step >>= next).Follows symbols root drawn (stops ++ more) own := by
  constructor
  case ok =>
    intro result after finished
    obtain ⟨value, middle, ran, finished⟩ := LowerM.bind_eq_ok_iff.1 finished
    obtain ⟨passed, rfl⟩ := follows.ok ran
    obtain ⟨passedMore, rfl⟩ := (thenFollows value _ ran).ok finished
    refine ⟨List.forall_mem_append.2 ⟨passed, passedMore⟩, ?_⟩
    rw [Stop.temps_append, List.length_append, Nat.add_assoc drawn]
  case error =>
    intro fault after failed
    rw [EStateM.run_bind] at failed
    cases ran : step.run (root.afterDraws drawn) with
    | ok value middle =>
      obtain ⟨passed, rfl⟩ := follows.ok ran
      rw [ran] at failed
      exact ((thenFollows value _ ran).error failed).append_earlier passed
    | error other middle =>
      rw [ran] at failed
      cases failed
      exact (follows.error ran).append_later more

theorem pure (value : α) : (Pure.pure value : LowerM α).Follows symbols root drawn [] 0 where
  ok finished := by
    cases finished
    exact ⟨nofun, rfl⟩
  error failed := nomatch failed

/-- The end of a step cannot fail, and makes some draws of its own. -/
theorem finish {step : LowerM α} {next : α → LowerM β} (follows : step.Follows symbols root drawn stops 0)
    (ends : ∀ value before, ∃ result, (next value).run before = .ok result (before.afterDraws own)) :
    (step >>= next).Follows symbols root drawn stops own := by
  rw [← List.append_nil stops]
  refine follows.bind fun value after ran => ⟨?_, ?_⟩
  · intro result after finished
    obtain ⟨other, ran⟩ := ends value (root.afterDraws (drawn + (Stop.temps symbols stops).length))
    rw [ran] at finished
    cases finished
    exact ⟨nofun, by simp [Temps.afterDraws_add]⟩
  · intro fault after failed
    obtain ⟨other, ran⟩ := ends value (root.afterDraws (drawn + (Stop.temps symbols stops).length))
    rw [ran] at failed
    cases failed

/-- A tree has been left after its lowering, and its own draws count from then on. -/
theorem leave {node : Node}
    (follows :
      (node.lower symbols).Follows symbols root drawn stops (Visit.ownDraws symbols ⟨node, drawn⟩)) :
    (node.lower symbols).Follows symbols root drawn (stops ++ [.leave ⟨node, drawn⟩]) 0 where
  ok {lowered after} finished := by
    obtain ⟨passed, rfl⟩ := follows.ok finished
    refine ⟨List.forall_mem_append.2 ⟨passed, ?_⟩, ?_⟩
    · exact List.forall_mem_singleton.2 ⟨lowered, _, finished⟩
    · simp [Visit.ownDraws, Nat.add_assoc]
  error failed := (follows.error failed).append_later _

end LowerM.Follows

/-! ### Lowering follows the walk -/

/-- A call draws its temporary at the end. -/
theorem LoweredTarget.call_ends (loweredTarget : LoweredTarget) (loweredArgs : LoweredArgs) (target : Node)
    (method : String) (args : List Node) (before : Temps) :
    ∃ result, (loweredTarget.call symbols method loweredArgs).run before =
      .ok result (before.afterDraws (Visit.ownDraws symbols ⟨.call target method args, drawn⟩)) := by
  unfold LoweredTarget.call Visit.ownDraws Visit.temp?
  by_cases void : symbols.resultOf method = .void
  · simp only [if_pos void]
    exact ⟨_, rfl⟩
  · simp only [if_neg void]
    exact ⟨_, rfl⟩

namespace Node

/-- A walk has as many draws as the tree. -/
@[simp] theorem length_temps_walk (node : Node) (drawn : Nat) :
    (Stop.temps symbols (node.walk symbols drawn)).length = node.draws symbols := by
  rw [temps_walk, List.length_range']

/-- A value is there exactly if the tree that was lowered has one. -/
theorem follows_valueAt {node : Node} {before after : Temps} {lowered : Lowered}
    (ran : (node.lower symbols).run before = .ok lowered after) (site : ValueSite) :
    (lowered.valueAt site).Follows symbols root drawn [.ask site node] 0 := by
  have hasValue_eq := hasValue_eq_of_lower ran
  unfold Lowered.valueAt
  cases value : lowered.value? with
  | none =>
    rw [value] at hasValue_eq
    refine ⟨nofun, fun failed => ?_⟩
    cases failed
    exact ⟨[], site, node, [], rfl, nofun, hasValue_eq, rfl, rfl⟩
  | some operand =>
    rw [value] at hasValue_eq
    refine ⟨fun finished => ?_, nofun⟩
    cases finished
    exact ⟨List.forall_mem_singleton.2 hasValue_eq, rfl⟩

/-- The target of a call is asked for its value unless it names an import. It is a variable
then, and nothing is drawn for it. -/
theorem follows_lowerTarget {target : Node}
    (follows : (target.lower symbols).Follows symbols root drawn (target.walk symbols drawn) 0) :
    (target.lowerTarget symbols).Follows symbols root drawn
      (target.walk symbols drawn ++
        Stop.askUnless (target.staticTarget? symbols).isSome .callReceiver target) 0 := by
  unfold lowerTarget Stop.askUnless
  cases named : target.staticTarget? symbols with
  | none => exact follows.bind fun lowered after ran => (follows_valueAt ran _).finish fun _ _ => ⟨_, rfl⟩
  | some path =>
    cases target with
    | varRef name ty =>
      refine ⟨fun finished => ?_, nofun⟩
      cases finished
      exact ⟨List.forall_mem_singleton.2 ⟨_, _, rfl⟩, rfl⟩
    | _ => cases named

mutual

/-- Lowering a tree follows the walk through it, from any number of draws on. -/
theorem follows_lower (drawn : Nat) : (node : Node) →
    (node.lower symbols).Follows symbols root drawn (node.walk symbols drawn) 0
  | .int _ | .bool _ | .varRef _ _ | .receiver | .retBare _ => by
    rw [walk, ← List.nil_append [_]]
    refine .leave ?_
    rw [lower]
    exact .pure _
  | .binary operator left right ty => by
    rw [walk]
    refine .leave ?_
    rw [lower]
    simp only [List.append_assoc]
    refine (follows_lower drawn left).bind fun _ _ ranLeft => ?_
    refine (follows_valueAt ranLeft _).bind fun _ _ _ => ?_
    rw [length_temps_walk]
    refine (follows_lower _ right).bind fun _ _ ranRight => ?_
    exact (follows_valueAt ranRight _).finish fun _ _ => ⟨_, rfl⟩
  | .call target method args => by
    rw [walk]
    refine .leave ?_
    rw [lower_call]
    refine (follows_lowerTarget (follows_lower drawn target)).bind fun loweredTarget _ _ => ?_
    rw [Stop.temps_append, Stop.temps_askUnless, List.append_nil, length_temps_walk]
    exact (follows_lowerArgs method 0 _ args).finish fun loweredArgs =>
      loweredTarget.call_ends loweredArgs target method args
  | .assign name ty value => by
    rw [walk]
    refine .leave ?_
    rw [lower]
    exact (follows_lower drawn value).bind fun _ _ ran => (follows_valueAt ran _).finish fun _ _ => ⟨_, rfl⟩
  | .ret value ty => by
    rw [walk]
    refine .leave ?_
    rw [lower]
    refine (follows_lower drawn value).bind fun lowered _ ran => ?_
    unfold Stop.askUnless
    by_cases void : ty = .void
    · simp only [if_pos void]
      exact .pure _
    · simp only [if_neg void]
      exact (follows_valueAt ran _).finish fun _ _ => ⟨_, rfl⟩
  | .block children => by
    rw [walk]
    refine .leave ?_
    rw [lower]
    exact (follows_lowerAll drawn children).finish fun _ _ => ⟨_, rfl⟩

theorem follows_lowerArgs (method : String) (index drawn : Nat) : (args : List Node) →
    (lowerArgs symbols method index args).Follows symbols root drawn
      (walkArgs symbols method index drawn args) 0
  | [] => by
    rw [lowerArgs]
    exact .pure _
  | arg :: rest => by
    rw [lowerArgs, walkArgs, List.append_assoc]
    refine (follows_lower drawn arg).bind fun _ _ ran => ?_
    refine (follows_valueAt ran _).bind fun _ _ _ => ?_
    rw [length_temps_walk]
    exact (follows_lowerArgs method (index + 1) _ rest).finish fun _ _ => ⟨_, rfl⟩

theorem follows_lowerAll (drawn : Nat) : (statements : List Node) →
    (lowerAll symbols statements).Follows symbols root drawn (walkAll symbols drawn statements) 0
  | [] => by
    rw [lowerAll]
    exact .pure _
  | statement :: rest => by
    rw [lowerAll, walkAll]
    refine (follows_lower drawn statement).bind fun _ _ _ => ?_
    rw [length_temps_walk]
    exact (follows_lowerAll _ rest).finish fun _ _ => ⟨_, rfl⟩

end

end Node

/-! ### Failing does not depend on the supply -/

/-- The first stop that cannot be passed is told by the stops alone. -/
theorem FailsAlong.find?_misses {fault : Fault} {after : Temps}
    (fails : FailsAlong symbols root drawn stops fault after) :
    ∃ site operand, stops.find? (Stop.misses symbols) = some (.ask site operand) ∧
      fault = .missingValue site := by
  obtain ⟨earlier, site, operand, later, rfl, passed, missing, rfl, -⟩ := fails.missing
  refine ⟨site, operand, ?_, rfl⟩
  refine List.find?_eq_some_iff_append.2 ⟨?_, earlier, later, rfl, fun stop member => ?_⟩
  · rw [Stop.misses, missing, Bool.not_false]
  · rw [(passed stop member).misses_eq, Bool.not_false]

/-- A tree that is refused with one supply is refused with every other, for the same reason. -/
theorem lower_fails_alike {node : Node} {first afterFirst : Temps} {fault : Fault}
    (failed : (node.lower symbols).run first = .error fault afterFirst) (second : Temps) :
    ∃ afterSecond, (node.lower symbols).run second = .error fault afterSecond := by
  have followsFirst : (node.lower symbols).Follows symbols first 0 (node.walk symbols 0) 0 :=
    Node.follows_lower 0 node
  have followsSecond : (node.lower symbols).Follows symbols second 0 (node.walk symbols 0) 0 :=
    Node.follows_lower 0 node
  obtain ⟨site, operand, found, rfl⟩ := (followsFirst.error failed).find?_misses
  cases ran : (node.lower symbols).run second with
  | ok lowered afterSecond =>
    have passed := (followsSecond.ok ran).1
    have none_found : (node.walk symbols 0).find? (Stop.misses symbols) = none := by
      refine List.find?_eq_none.2 fun stop member => ?_
      rw [(passed stop member).misses_eq]
      exact Bool.false_ne_true
    rw [none_found] at found
    cases found
  | error other afterSecond =>
    obtain ⟨otherSite, otherOperand, otherFound, rfl⟩ := (followsSecond.error ran).find?_misses
    rw [found] at otherFound
    cases otherFound
    exact ⟨afterSecond, rfl⟩

end Stackwright
