import Stackwright.Proofs.Lowering.Draws
import Stackwright.Proofs.Lowering.Footprint

/-!
Contract: how far lowering gets, and what it draws on the way, whether it fails or not.

Owns:
- the progress of a tree, read off the tree alone: the trees inside it that draw a temporary,
  in the order in which they do, and whether a value is missing where one is needed;
- lowering makes exactly that progress from every supply: it succeeds if no value is missing,
  and it leaves the supply after one draw for each of those trees.

Derivations say nothing of failed lowerings. What was drawn before a failure stays drawn, so
the names that a lowerer gives out over several calls are counted here.
-/

namespace Stackwright

/-- How far lowering gets: the trees that drew a temporary, in order, and whether no value was
missing. -/
structure Progress where
  drew : List Node := []
  finished : Bool := true

namespace Progress

/-- Nothing is drawn and nothing is missing. -/
def none : Progress := {}

/-- A tree draws a temporary. -/
def draw (node : Node) : Progress := { drew := [node] }

/-- A value is needed, which is there or is missing. -/
def need (present : Bool) : Progress := { finished := present }

/-- A second step is made if the first one comes to its end. -/
def andThen (first second : Progress) : Progress :=
  if first.finished then { second with drew := first.drew ++ second.drew } else first

end Progress

namespace Node

/-- The tree has a value. -/
def hasValue (symbols : Symbols) (node : Node) : Bool :=
  (node.resultType? symbols).isSome

mutual

/-- How far the lowering of a tree gets. Operands are asked for their values one after the
other, each after its own subtree. -/
def progress (symbols : Symbols) : Node → Progress
  | .int _ | .bool _ | .varRef _ _ | .receiver | .retBare _ => .none
  | .binary operator left right ty =>
    (left.progress symbols).andThen ((Progress.need (left.hasValue symbols)).andThen
      ((right.progress symbols).andThen ((Progress.need (right.hasValue symbols)).andThen
        (.draw (.binary operator left right ty)))))
  | .call target method args =>
    let ofTarget :=
      if (target.staticTarget? symbols).isSome then Progress.none
      else (target.progress symbols).andThen (.need (target.hasValue symbols))
    let ofCall :=
      if symbols.resultOf method = .void then Progress.none else .draw (.call target method args)
    ofTarget.andThen ((progressOfArgs symbols args).andThen ofCall)
  | .assign _ _ value => (value.progress symbols).andThen (.need (value.hasValue symbols))
  | .ret value ty =>
    (value.progress symbols).andThen
      (if ty = .void then .none else .need (value.hasValue symbols))
  | .block children => progressOfAll symbols children

def progressOfArgs (symbols : Symbols) : List Node → Progress
  | [] => .none
  | arg :: rest =>
    (arg.progress symbols).andThen ((Progress.need (arg.hasValue symbols)).andThen
      (progressOfArgs symbols rest))

def progressOfAll (symbols : Symbols) : List Node → Progress
  | [] => .none
  | statement :: rest => (statement.progress symbols).andThen (progressOfAll symbols rest)

end

/-- The value of the tree goes into a temporary: it is an operator applied, or a call that
returns something. -/
def Computes (symbols : Symbols) : Node → Prop
  | .binary _ _ _ _ => True
  | .call _ method _ => symbols.resultOf method ≠ .void
  | .int _ | .bool _ | .varRef _ _ | .receiver | .assign _ _ _ | .ret _ _ | .retBare _ | .block _ => False

end Node

/-! ### Steps that make a certain progress -/

namespace LowerM

variable {α β : Type}

/-- The supply that a step leaves, also when it fails. -/
def supplyAfter (step : LowerM α) (before : Temps) : Temps :=
  match step.run before with
  | .ok _ after | .error _ after => after

/-- From every supply, the step succeeds or fails as the progress says, and leaves the supply
after as many draws. -/
structure Makes (step : LowerM α) (progress : Progress) : Prop where
  succeeds_iff (before : Temps) :
    (∃ result after, step.run before = .ok result after) ↔ progress.finished = true
  supplyAfter_eq (before : Temps) : step.supplyAfter before = before.afterDraws progress.drew.length

theorem supplyAfter_of_ok {step : LowerM α} {before after : Temps} {result : α}
    (finished : step.run before = .ok result after) : step.supplyAfter before = after := by
  rw [supplyAfter, finished]

theorem supplyAfter_of_error {step : LowerM α} {before after : Temps} {fault : Fault}
    (failed : step.run before = .error fault after) : step.supplyAfter before = after := by
  rw [supplyAfter, failed]

namespace Makes

theorem bind {step : LowerM α} {next : α → LowerM β} {first second : Progress}
    (makesFirst : step.Makes first)
    (makesSecond : ∀ before value after, step.run before = .ok value after → (next value).Makes second) :
    (step >>= next).Makes (first.andThen second) := by
  have outcome (before : Temps) :
      ((∃ result after, (step >>= next).run before = .ok result after) ↔
        (first.andThen second).finished = true) ∧
      (step >>= next).supplyAfter before = before.afterDraws (first.andThen second).drew.length := by
    have succeeds := makesFirst.succeeds_iff before
    have left := makesFirst.supplyAfter_eq before
    unfold supplyAfter at left ⊢
    rw [EStateM.run_bind]
    cases ran : step.run before with
    | ok value middle =>
      rw [ran] at left
      have finished : first.finished = true := succeeds.1 ⟨value, middle, ran⟩
      have makesNext := makesSecond before value middle ran
      have leftNext := makesNext.supplyAfter_eq middle
      rw [Progress.andThen, if_pos finished, List.length_append, Temps.afterDraws_add, ← left]
      exact ⟨makesNext.succeeds_iff middle, leftNext⟩
    | error fault middle =>
      rw [ran] at left
      have unfinished : ¬first.finished = true := by
        intro finished
        rcases succeeds.2 finished with ⟨_, _, succeeded⟩
        rw [ran] at succeeded
        cases succeeded
      rw [Progress.andThen, if_neg unfinished]
      exact ⟨iff_of_false nofun unfinished, left⟩
  exact ⟨fun before => (outcome before).1, fun before => (outcome before).2⟩

theorem pure (value : α) : (Pure.pure value : LowerM α).Makes .none :=
  ⟨fun before => iff_of_true ⟨value, before, rfl⟩ rfl, fun _ => rfl⟩

theorem map {step : LowerM α} {progress : Progress} (makes : step.Makes progress) (make : α → β) :
    (step >>= fun value => Pure.pure (make value)).Makes progress := by
  have same : progress.andThen .none = progress := by
    unfold Progress.andThen
    split
    · next finished => simp [Progress.none, ← finished]
    · rfl
  rw [← same]
  exact makes.bind fun _ value _ _ => .pure (make value)

theorem valueAt (lowered : Lowered) (site : ValueSite) :
    (lowered.valueAt site).Makes (.need lowered.value?.isSome) := by
  unfold Lowered.valueAt
  cases lowered.value? with
  | none => exact ⟨fun _ => iff_of_false nofun nofun, fun _ => rfl⟩
  | some operand => exact .pure operand

theorem drawTemp (ty : Ty) (node : Node) : (Stackwright.drawTemp ty).Makes (.draw node) :=
  ⟨fun _ => iff_of_true ⟨_, _, rfl⟩ rfl, fun _ => rfl⟩

end Makes

end LowerM

/-! ### The progress of lowering -/

variable {symbols : Symbols}

theorem LoweredTarget.makes_call (target : LoweredTarget) (method : String) (args : LoweredArgs)
    (node : Node) :
    (target.call symbols method args).Makes
      (if symbols.resultOf method = .void then .none else .draw node) := by
  unfold LoweredTarget.call
  by_cases void : symbols.resultOf method = .void
  · simp only [if_pos void]
    exact .pure _
  · simp only [if_neg void]
    exact (LowerM.Makes.drawTemp _ node).map _

namespace Node

/-- Lowering finds a value exactly where the tree has one. -/
theorem hasValue_eq_of_lower {node : Node} {before after : Temps} {lowered : Lowered}
    (ran : (node.lower symbols).run before = .ok lowered after) :
    node.hasValue symbols = lowered.value?.isSome := by
  rw [hasValue, ← (lower_eq_ok_iff.1 ran).value_ty, Option.isSome_map]

/-- A step that needs the value of a tree goes on where there is one. -/
theorem makes_valueAt {node : Node} {before after : Temps} {lowered : Lowered}
    (ran : (node.lower symbols).run before = .ok lowered after) (site : ValueSite) :
    (lowered.valueAt site).Makes (.need (node.hasValue symbols)) := by
  rw [hasValue_eq_of_lower ran]
  exact .valueAt lowered site

mutual

theorem makes_lower : (node : Node) → (node.lower symbols).Makes (node.progress symbols)
  | .int _ | .bool _ | .varRef _ _ | .receiver | .retBare _ => by
    rw [lower, progress]
    exact .pure _
  | .binary operator left right ty => by
    rw [lower, progress]
    refine (makes_lower left).bind fun _ _ _ ranLeft =>
      (makes_valueAt ranLeft .leftOperand).bind fun _ _ _ _ => ?_
    refine (makes_lower right).bind fun _ _ _ ranRight =>
      (makes_valueAt ranRight .rightOperand).bind fun _ _ _ _ => ?_
    exact (LowerM.Makes.drawTemp ty _).map _
  | .call target method args => by
    rw [lower_call, progress]
    refine LowerM.Makes.bind ?_ fun _ loweredTarget _ _ =>
      (makes_lowerArgs method 0 args).bind fun _ loweredArgs _ _ => loweredTarget.makes_call method loweredArgs _
    unfold lowerTarget
    cases target.staticTarget? symbols with
    | some path => exact .pure _
    | none =>
      exact (makes_lower target).bind fun _ _ _ ran => (makes_valueAt ran .callReceiver).map _
  | .assign name ty value => by
    rw [lower, progress]
    exact (makes_lower value).bind fun _ _ _ ran => (makes_valueAt ran (.assigned name)).map _
  | .ret value ty => by
    rw [lower, progress]
    refine (makes_lower value).bind fun _ _ _ ran => ?_
    by_cases void : ty = .void
    · rw [if_pos void, if_pos void]
      exact .pure _
    · rw [if_neg void, if_neg void]
      exact (makes_valueAt ran .returned).map _
  | .block children => by
    rw [lower, progress]
    exact (makes_lowerAll children).map _

theorem makes_lowerArgs (method : String) (index : Nat) :
    (args : List Node) → (lowerArgs symbols method index args).Makes (progressOfArgs symbols args)
  | [] => .pure _
  | arg :: rest => by
    rw [lowerArgs, progressOfArgs]
    refine (makes_lower arg).bind fun _ _ _ ran =>
      (makes_valueAt ran (.argument index method)).bind fun _ _ _ _ => ?_
    exact (makes_lowerArgs method (index + 1) rest).map _

theorem makes_lowerAll :
    (statements : List Node) → (lowerAll symbols statements).Makes (progressOfAll symbols statements)
  | [] => .pure _
  | statement :: rest => by
    rw [lowerAll, progressOfAll]
    exact (makes_lower statement).bind fun _ lowered _ _ => (makes_lowerAll rest).map _

end

end Node

end Stackwright
