import Mathlib.Data.Finset.Card
import Mathlib.Order.Bounds.Basic
import Stackwright.Proofs.Lowering.Temps
import Stackwright.Proofs.Text.Decimal

/-!
Contract: a supply of temporaries over all that is asked of it.

Owns:
- the search for a free name, round by round, and how many rounds it takes;
- the name drawn has the least index from the counter on that is not reserved;
- requests to reserve and to draw, in any order, and the names that they are answered with;
- over all requests indices increase, and no name is drawn twice or after it was reserved;
- reservations that change no later answer: of drawn names, and of names of another form.

An answer depends on the counter and on the names ahead of it that are reserved, and on
nothing else.
-/

namespace Stackwright

/-- A name of the form of a temporary: the prefix, and a number without leading zeros. -/
def IsNumbered (name : String) : Prop :=
  ∃ digits, IsDecimal digits ∧ name = "tmp" ++ String.ofList digits

theorem isNumbered_iff {name : String} : IsNumbered name ↔ ∃ index, name = tempName index := by
  have named (index : Nat) : tempName index = "tmp" ++ String.ofList (Nat.toDigits 10 index) := by
    rw [tempName, Nat.toString_eq_ofList_toDigits]
  constructor
  · rintro ⟨digits, isDecimal, rfl⟩
    rcases isDecimal_iff.1 isDecimal with ⟨index, rfl⟩
    exact ⟨index, (named index).symm⟩
  · rintro ⟨index, rfl⟩
    exact ⟨_, isDecimal_iff.2 ⟨index, rfl⟩, named index⟩

namespace Temps

/-! ### The search for a free name -/

/-- The supply after a round: the counter has moved on. -/
def pass (temps : Temps) : Temps :=
  { temps with next := temps.next + 1 }

/-- The search for the next name in a number of rounds: each round tries the name at the counter
and moves it on, and the first name that is not reserved ends the search. -/
inductive Finds : Temps → (rounds : Nat) → String → Temps → Prop where
  | free {temps : Temps} (isFree : tempName temps.next ∉ temps.reserved) :
      Finds temps 1 (tempName temps.next) temps.pass
  | taken {temps after : Temps} {rounds : Nat} {name : String}
      (isTaken : tempName temps.next ∈ temps.reserved) (later : Finds temps.pass rounds name after) :
      Finds temps (rounds + 1) name after

/-- A search ends in one way only. -/
theorem Finds.unique {temps after otherAfter : Temps} {rounds otherRounds : Nat} {name otherName : String}
    (finds : temps.Finds rounds name after) (others : temps.Finds otherRounds otherName otherAfter) :
    rounds = otherRounds ∧ name = otherName ∧ after = otherAfter := by
  induction finds generalizing otherRounds with
  | free isFree =>
    cases others with
    | free => exact ⟨rfl, rfl, rfl⟩
    | taken isTaken => exact absurd isTaken isFree
  | taken isTaken later inductionHypothesis =>
    cases others with
    | free isFree => exact absurd isTaken isFree
    | taken _ otherLater =>
      rcases inductionHypothesis otherLater with ⟨rfl, sameName, sameAfter⟩
      exact ⟨rfl, sameName, sameAfter⟩

/-- The search passes over reserved names, one in each round, up to a free one. -/
theorem finds_of_passed (temps : Temps) (passed : Nat)
    (areTaken : ∀ index, temps.next ≤ index → index < temps.next + passed → tempName index ∈ temps.reserved)
    (isFree : tempName (temps.next + passed) ∉ temps.reserved) :
    temps.Finds (passed + 1) (tempName (temps.next + passed))
      { temps with next := temps.next + passed + 1 } := by
  induction passed generalizing temps with
  | zero => exact .free isFree
  | succ passed inductionHypothesis =>
    have moved : temps.pass.next + passed = temps.next + (passed + 1) :=
      Nat.add_right_comm temps.next 1 passed
    have later : temps.pass.Finds (passed + 1) (tempName (temps.pass.next + passed))
        { temps with next := temps.pass.next + passed + 1 } := by
      apply inductionHypothesis
      · intro index fromNext below
        rw [moved] at below
        exact areTaken index (Nat.le_of_succ_le fromNext) below
      · rw [moved]
        exact isFree
    rw [moved] at later
    exact .taken (areTaken temps.next (Nat.le_refl _) (by omega)) later

/-- The index of the next name is the least from the counter on that is not reserved. -/
theorem isLeast_nextFree (temps : Temps) :
    IsLeast {index | temps.next ≤ index ∧ tempName index ∉ temps.reserved} temps.nextFree := by
  constructor
  · exact ⟨temps.next_le_nextFree, temps.draw_not_reserved⟩
  · rintro index ⟨fromNext, isFree⟩
    apply Nat.le_of_not_lt
    intro passed
    exact isFree (reserved_of_lt_firstFree temps.reserved temps.next temps.reserved.length index
      fromNext passed)

/-- The names passed over are distinct and reserved, so there are no more of them than of reserved
names. -/
theorem passed_le_card (temps : Temps) :
    temps.nextFree - temps.next ≤ temps.reserved.toFinset.card := by
  rw [← Finset.card_range (temps.nextFree - temps.next)]
  apply Finset.card_le_card_of_injOn fun passed => tempName (temps.next + passed)
  · intro passed member
    have below := Finset.mem_range.1 member
    apply List.mem_toFinset.2
    exact reserved_of_lt_firstFree temps.reserved temps.next temps.reserved.length
      (temps.next + passed) (Nat.le_add_right _ _) (Nat.add_lt_of_lt_sub' below)
  · intro first _ second _ same
    exact Nat.add_left_cancel (tempName_injective same)

/-- A draw is a search, and it takes one round more than it passes over names. -/
theorem finds_draw (temps : Temps) :
    temps.Finds (temps.nextFree - temps.next + 1) temps.draw.1 temps.draw.2 := by
  have atNextFree : temps.next + (temps.nextFree - temps.next) = temps.nextFree :=
    Nat.add_sub_cancel' temps.next_le_nextFree
  have search := temps.finds_of_passed (temps.nextFree - temps.next)
  rw [atNextFree] at search
  exact search (reserved_of_lt_firstFree temps.reserved temps.next temps.reserved.length)
    temps.draw_not_reserved

end Temps

/-! ### Requests -/

/-- What a supply is asked for. -/
inductive SupplyRequest where
  | reserve (name : String)
  | draw

namespace Temps

/-- A supply after a request. -/
def serve (temps : Temps) : SupplyRequest → Temps
  | .reserve name => temps.reserve name
  | .draw => temps.draw.2

/-- A supply after several requests. -/
def afterRequests (temps : Temps) (requests : List SupplyRequest) : Temps :=
  requests.foldl serve temps

/-- The indices that several requests draw, in order. -/
def drawnIndices (temps : Temps) : List SupplyRequest → List Nat
  | [] => []
  | .reserve name :: rest => (temps.reserve name).drawnIndices rest
  | .draw :: rest => temps.nextFree :: temps.draw.2.drawnIndices rest

/-- The names that several requests are answered with, in order. A reservation has no answer. -/
def answers (temps : Temps) : List SupplyRequest → List String
  | [] => []
  | .reserve name :: rest => (temps.reserve name).answers rest
  | .draw :: rest => temps.draw.1 :: temps.draw.2.answers rest

theorem answers_eq_map (temps : Temps) (requests : List SupplyRequest) :
    temps.answers requests = (temps.drawnIndices requests).map tempName := by
  induction requests generalizing temps with
  | nil => rfl
  | cons request rest inductionHypothesis =>
    cases request with
    | reserve name => exact inductionHypothesis (temps.reserve name)
    | draw => exact congrArg (tempName temps.nextFree :: ·) (inductionHypothesis temps.draw.2)

theorem answers_append (temps : Temps) (first second : List SupplyRequest) :
    temps.answers (first ++ second) = temps.answers first ++ (temps.afterRequests first).answers second := by
  induction first generalizing temps with
  | nil => rfl
  | cons request rest inductionHypothesis =>
    cases request with
    | reserve name => exact inductionHypothesis (temps.reserve name)
    | draw => exact congrArg (temps.draw.1 :: ·) (inductionHypothesis temps.draw.2)

theorem afterRequests_append (temps : Temps) (first second : List SupplyRequest) :
    temps.afterRequests (first ++ second) = (temps.afterRequests first).afterRequests second :=
  List.foldl_append

/-- Names stay reserved, and only reservations add to them. -/
theorem mem_reserved_afterRequests (temps : Temps) (requests : List SupplyRequest) (name : String) :
    name ∈ (temps.afterRequests requests).reserved ↔ name ∈ temps.reserved ∨ .reserve name ∈ requests := by
  induction requests generalizing temps with
  | nil => simp [afterRequests]
  | cons request rest inductionHypothesis =>
    rw [afterRequests, List.foldl_cons, ← afterRequests, inductionHypothesis, List.mem_cons]
    cases request with
    | reserve reserved =>
      rw [serve, mem_reserved_reserve, SupplyRequest.reserve.injEq, or_comm (a := name = reserved),
        or_assoc]
    | draw => simp [serve, draw]

/-- The counter stands behind the last index drawn. -/
theorem next_afterRequests (temps : Temps) (requests : List SupplyRequest) :
    (temps.afterRequests requests).next =
      ((temps.drawnIndices requests).map Nat.succ).getLastD temps.next := by
  induction requests generalizing temps with
  | nil => rfl
  | cons request rest inductionHypothesis =>
    rw [afterRequests, List.foldl_cons, ← afterRequests, inductionHypothesis]
    cases request with
    | reserve name => rfl
    | draw =>
      rw [drawnIndices, List.map_cons, List.getLastD_cons]
      rfl

theorem next_le_serve (temps : Temps) (request : SupplyRequest) :
    temps.next ≤ (temps.serve request).next := by
  cases request with
  | reserve name => exact Nat.le_refl temps.next
  | draw => exact Nat.le_succ_of_le temps.next_le_nextFree

theorem next_le_afterRequests (temps : Temps) (requests : List SupplyRequest) :
    temps.next ≤ (temps.afterRequests requests).next := by
  induction requests generalizing temps with
  | nil => exact Nat.le_refl temps.next
  | cons request rest inductionHypothesis =>
    exact Nat.le_trans (temps.next_le_serve request) (inductionHypothesis (temps.serve request))

/-- Indices are drawn between the counters before and after the requests. -/
theorem bounds_of_mem_drawnIndices {temps : Temps} {requests : List SupplyRequest} {index : Nat}
    (member : index ∈ temps.drawnIndices requests) :
    temps.next ≤ index ∧ index < (temps.afterRequests requests).next := by
  induction requests generalizing temps with
  | nil => exact absurd member List.not_mem_nil
  | cons request rest inductionHypothesis =>
    cases request with
    | reserve name => exact @inductionHypothesis (temps.reserve name) member
    | draw =>
      rcases List.mem_cons.1 member with rfl | later
      · exact ⟨temps.next_le_nextFree, next_le_afterRequests temps.draw.2 rest⟩
      · have bounds := inductionHypothesis later
        exact ⟨Nat.le_trans (temps.next_le_serve .draw) bounds.1, bounds.2⟩

/-- Every index is greater than those drawn before it. -/
theorem pairwise_drawnIndices (temps : Temps) (requests : List SupplyRequest) :
    (temps.drawnIndices requests).Pairwise (· < ·) := by
  induction requests generalizing temps with
  | nil => exact .nil
  | cons request rest inductionHypothesis =>
    cases request with
    | reserve name => exact inductionHypothesis (temps.reserve name)
    | draw =>
      refine List.pairwise_cons.2 ⟨?_, inductionHypothesis temps.draw.2⟩
      intro later member
      exact (bounds_of_mem_drawnIndices member).1

/-- A reserved name is no answer. -/
theorem not_mem_answers_of_reserved {temps : Temps} {requests : List SupplyRequest} {name : String}
    (isReserved : name ∈ temps.reserved) : name ∉ temps.answers requests := by
  induction requests generalizing temps with
  | nil => exact List.not_mem_nil
  | cons request rest inductionHypothesis =>
    cases request with
    | reserve other =>
      exact inductionHypothesis ((temps.mem_reserved_reserve other name).2 (.inr isReserved))
    | draw =>
      rw [answers, List.mem_cons, not_or]
      refine ⟨?_, @inductionHypothesis temps.draw.2 isReserved⟩
      rintro rfl
      exact temps.draw_not_reserved isReserved

/-! ### What an answer depends on -/

/-- Two supplies have the same names ahead: the counters are the same, and so are the reserved names
of temporaries from there on. -/
structure SameAhead (left right : Temps) : Prop where
  next_eq : left.next = right.next
  reserved_iff : ∀ index, left.next ≤ index →
    (tempName index ∈ left.reserved ↔ tempName index ∈ right.reserved)

namespace SameAhead

variable {left right : Temps}

theorem nextFree_eq (same : left.SameAhead right) : left.nextFree = right.nextFree := by
  have sameFree (index : Nat) : left.next ≤ index ∧ tempName index ∉ left.reserved ↔
      right.next ≤ index ∧ tempName index ∉ right.reserved := by
    rw [← same.next_eq]
    exact and_congr_right fun ahead => not_congr (same.reserved_iff index ahead)
  have leftLeast := left.isLeast_nextFree
  rw [Set.ext sameFree] at leftLeast
  exact leftLeast.unique right.isLeast_nextFree

theorem serve (same : left.SameAhead right) (request : SupplyRequest) :
    (left.serve request).SameAhead (right.serve request) := by
  cases request with
  | reserve name =>
    refine ⟨same.next_eq, ?_⟩
    intro index ahead
    rw [Temps.serve, Temps.serve, mem_reserved_reserve, mem_reserved_reserve,
      same.reserved_iff index ahead]
  | draw =>
    refine ⟨congrArg Nat.succ same.nextFree_eq, ?_⟩
    intro index ahead
    exact same.reserved_iff index (Nat.le_trans (left.next_le_serve .draw) ahead)

/-- Supplies with the same names ahead give the same answers. -/
theorem answers_eq (same : left.SameAhead right) (requests : List SupplyRequest) :
    left.answers requests = right.answers requests := by
  induction requests generalizing left right with
  | nil => rfl
  | cons request rest inductionHypothesis =>
    have sameRest := inductionHypothesis (same.serve request)
    cases request with
    | reserve name => exact sameRest
    | draw =>
      have sameName : left.draw.1 = right.draw.1 := congrArg tempName same.nextFree_eq
      rw [answers, answers, sameName]
      exact congrArg (right.draw.1 :: ·) sameRest

/-- To reserve a name that is not ahead changes nothing there. -/
theorem reserve {temps : Temps} {name : String}
    (notAhead : ∀ index, temps.next ≤ index → tempName index ≠ name) :
    (temps.reserve name).SameAhead temps := by
  refine ⟨rfl, ?_⟩
  intro index ahead
  rw [mem_reserved_reserve, or_iff_right (notAhead index ahead)]

end SameAhead

/-- A name that was drawn, or that has not the form of a temporary, is not ahead. -/
theorem tempName_ne_of_drawn_or_not_numbered {temps : Temps} {requests : List SupplyRequest}
    {name : String} (passedOrOther : name ∈ temps.answers requests ∨ ¬IsNumbered name) {index : Nat}
    (ahead : (temps.afterRequests requests).next ≤ index) : tempName index ≠ name := by
  rintro rfl
  rcases passedOrOther with drawn | notNumbered
  · rw [answers_eq_map, List.mem_map] at drawn
    rcases drawn with ⟨earlier, member, same⟩
    have passed := (bounds_of_mem_drawnIndices member).2
    rw [tempName_injective same] at passed
    omega
  · exact notNumbered (isNumbered_iff.2 ⟨index, rfl⟩)

/-! ### All requests together -/

/-- A search from a supply ends after some rounds at the name with an index, and in no other way. It
makes at most one round more than there are reserved names, and the index is the least from the
counter on whose name is not reserved. -/
structure FindsLeast (now : Temps) (rounds index : Nat) (after : Temps) : Prop where
  finds : now.Finds rounds (tempName index) after
  only : ∀ otherRounds name otherAfter, now.Finds otherRounds name otherAfter →
    rounds = otherRounds ∧ tempName index = name ∧ after = otherAfter
  rounds_le : rounds ≤ now.reserved.toFinset.card + 1
  isLeast : IsLeast {index | now.next ≤ index ∧ tempName index ∉ now.reserved} index

theorem findsLeast_draw (temps : Temps) :
    temps.FindsLeast (temps.nextFree - temps.next + 1) temps.nextFree temps.draw.2 where
  finds := temps.finds_draw
  only _ _ _ := temps.finds_draw.unique
  rounds_le := Nat.succ_le_succ temps.passed_le_card
  isLeast := temps.isLeast_nextFree

/-- A supply that starts with some reserved names answers whatever it is asked for with names of its
own: `draws` is about each draw after any requests, and the others are about all of them. -/
structure AnswersAfresh (names : List String) : Prop where
  draws : ∀ before, ∃ rounds index,
    ((withReserved names).afterRequests before).FindsLeast rounds index
      ((withReserved names).afterRequests (before ++ [.draw])) ∧
    (withReserved names).answers (before ++ [.draw]) =
      (withReserved names).answers before ++ [tempName index]
  reserved_iff : ∀ requests name, name ∈ ((withReserved names).afterRequests requests).reserved ↔
    name ∈ names ∨ .reserve name ∈ requests
  ascends : ∀ requests, ∃ indices : List Nat,
    (withReserved names).answers requests = indices.map tempName ∧ indices.Pairwise (· < ·) ∧
    ((withReserved names).afterRequests requests).next = (indices.map Nat.succ).getLastD 0
  nodup : ∀ requests, ((withReserved names).answers requests).Nodup
  avoidsReserved : ∀ before after name, name ∈ names ∨ .reserve name ∈ before → ∃ later,
    (withReserved names).answers (before ++ after) = (withReserved names).answers before ++ later ∧
    name ∉ later
  ignores : ∀ before after name, name ∈ (withReserved names).answers before ∨ ¬IsNumbered name →
    (withReserved names).answers (before ++ .reserve name :: after) =
      (withReserved names).answers (before ++ after)

theorem answers_afresh (names : List String) : AnswersAfresh names where
  draws before := by
    have search := ((withReserved names).afterRequests before).findsLeast_draw
    have drawn : ((withReserved names).afterRequests before).draw.2 =
        (withReserved names).afterRequests (before ++ [.draw]) :=
      (afterRequests_append _ before [.draw]).symm
    rw [drawn] at search
    exact ⟨_, _, search, answers_append _ before [.draw]⟩
  reserved_iff := mem_reserved_afterRequests (withReserved names)
  ascends requests :=
    ⟨_, answers_eq_map _ requests, pairwise_drawnIndices _ requests, next_afterRequests _ requests⟩
  nodup requests := by
    rw [answers_eq_map]
    exact (pairwise_drawnIndices _ requests).map tempName fun _ _ less same =>
      Nat.ne_of_lt less (tempName_injective same)
  avoidsReserved before after name isReserved :=
    ⟨_, answers_append _ before after,
      not_mem_answers_of_reserved ((mem_reserved_afterRequests _ before name).2 isReserved)⟩
  ignores before after name passedOrOther := by
    have notAhead := SameAhead.reserve fun index ahead =>
      @tempName_ne_of_drawn_or_not_numbered _ _ _ passedOrOther index ahead
    rw [answers_append, answers_append]
    exact congrArg (_ ++ ·) (notAhead.answers_eq after)

end Temps

end Stackwright
