import Stackwright.Lowering.Temps

/-!
Contract: what a draw from a supply of temporaries gives.

Owns:
- distinct indices have distinct names;
- the name drawn is not reserved, and its index is the least one that is not;
- the names drawn between two states of a supply.

The search for a free name makes as many rounds as there are reserved names. That
is enough because each round uses up one reserved name that no later round can meet.
-/

namespace Stackwright

theorem repr_injective {left right : Nat} (same : Nat.repr left = Nat.repr right) :
    left = right := by
  have digits : Nat.toDigits 10 left = Nat.toDigits 10 right := by
    have texts := congrArg String.toList same
    simpa [Nat.repr_eq_ofList_toDigits] using texts
  have readBack := congrArg (Nat.ofDigitChars 10 · 0) digits
  simpa only [Nat.ofDigitChars_ten_toDigits] using readBack

theorem tempName_injective {left right : Nat} (same : tempName left = tempName right) :
    left = right := by
  unfold tempName at same
  exact repr_injective ((String.append_right_inj "tmp").1 same)

namespace Temps

/-- The search ends at a free index if it may make as many rounds as there are names
left that it could meet. -/
theorem firstFree_not_reserved (reserved ahead : List String) (index rounds : Nat)
    (covered : ∀ later, index ≤ later → tempName later ∈ reserved → tempName later ∈ ahead)
    (enough : ahead.length ≤ rounds) :
    tempName (firstFree reserved index rounds) ∉ reserved := by
  induction rounds generalizing index ahead with
  | zero =>
    have nothingAhead : ahead = [] := List.length_eq_zero_iff.1 (Nat.le_zero.1 enough)
    intro taken
    have member := covered index (Nat.le_refl index) taken
    rw [nothingAhead] at member
    exact List.not_mem_nil member
  | succ rounds inductionHypothesis =>
    rw [firstFree]
    split
    · next taken =>
      have member := covered index (Nat.le_refl index) taken
      apply inductionHypothesis (ahead.erase (tempName index))
      · intro later past laterTaken
        have different : tempName later ≠ tempName index := by
          intro same
          have sameIndex := tempName_injective same
          omega
        rw [List.mem_erase_of_ne different]
        exact covered later (by omega) laterTaken
      · rw [List.length_erase_of_mem member]
        omega
    · next free => exact free

theorem draw_not_reserved (temps : Temps) : temps.draw.1 ∉ temps.reserved :=
  firstFree_not_reserved temps.reserved temps.reserved temps.next temps.reserved.length
    (fun _ _ taken => taken) (Nat.le_refl _)

theorem next_le_nextFree (temps : Temps) : temps.next ≤ temps.nextFree :=
  le_firstFree temps.reserved temps.next temps.reserved.length

theorem mem_reserved_reserveAll (temps : Temps) (names : List String) (other : String) :
    other ∈ (temps.reserveAll names).reserved ↔ other ∈ names ∨ other ∈ temps.reserved := by
  induction names generalizing temps with
  | nil => simp [reserveAll]
  | cons name rest inductionHypothesis =>
    have step := inductionHypothesis (temps.reserve name)
    rw [mem_reserved_reserve] at step
    rw [reserveAll, List.foldl_cons, ← reserveAll, step, List.mem_cons]
    grind

/-- Reservations leave the counter alone. -/
theorem reserveAll_eq (temps : Temps) (names : List String) :
    temps.reserveAll names = { next := temps.next, reserved := (temps.reserveAll names).reserved } := by
  induction names generalizing temps with
  | nil => rfl
  | cons name rest inductionHypothesis => exact inductionHypothesis (temps.reserve name)

theorem next_reserveAll (temps : Temps) (names : List String) :
    (temps.reserveAll names).next = temps.next := by
  rw [reserveAll_eq]

theorem reserveAll_append (temps : Temps) (first second : List String) :
    temps.reserveAll (first ++ second) = (temps.reserveAll first).reserveAll second :=
  List.foldl_append

/-- A later state of a supply: nothing was reserved in between, and the index has not
gone back. -/
structure Extends (after before : Temps) : Prop where
  reserved_eq : after.reserved = before.reserved
  next_le : before.next ≤ after.next

namespace Extends

theorem refl (temps : Temps) : temps.Extends temps :=
  ⟨rfl, Nat.le_refl temps.next⟩

theorem trans {first second third : Temps} (later : third.Extends second)
    (earlier : second.Extends first) : third.Extends first :=
  ⟨later.reserved_eq.trans earlier.reserved_eq, Nat.le_trans earlier.next_le later.next_le⟩

theorem draw (temps : Temps) : temps.draw.2.Extends temps :=
  ⟨rfl, Nat.le_succ_of_le temps.next_le_nextFree⟩

end Extends

/-- A name was drawn between two states of a supply: its index was passed, and it
was free. -/
def Drew (before after : Temps) (name : String) : Prop :=
  name ∉ after.reserved ∧ ∃ index, before.next ≤ index ∧ index < after.next ∧ name = tempName index

theorem drew_draw (temps : Temps) : temps.Drew temps.draw.2 temps.draw.1 :=
  ⟨temps.draw_not_reserved, temps.nextFree, temps.next_le_nextFree, Nat.lt_succ_self _, rfl⟩

/-- A single draw draws nothing else. -/
theorem eq_of_drew_draw {temps : Temps} {name : String} (drew : temps.Drew temps.draw.2 name) :
    name = temps.draw.1 := by
  rcases drew with ⟨free, index, fromStart, passed, rfl⟩
  have notBefore : ¬index < temps.nextFree := fun before =>
    free (reserved_of_lt_firstFree temps.reserved temps.next temps.reserved.length index
      fromStart before)
  have atFree : index = temps.nextFree := by
    have bound : index < temps.nextFree + 1 := passed
    omega
  rw [atFree]
  rfl

namespace Drew

theorem not_reserved {before after : Temps} {name : String} (drew : before.Drew after name) :
    name ∉ after.reserved :=
  drew.1

/-- What was drawn in an earlier stretch was drawn in all of it. -/
theorem extend {before middle after : Temps} {name : String} (drew : before.Drew middle name)
    (later : after.Extends middle) : before.Drew after name := by
  rcases drew with ⟨free, index, fromStart, passed, named⟩
  refine ⟨?_, index, fromStart, Nat.lt_of_lt_of_le passed later.next_le, named⟩
  rw [later.reserved_eq]
  exact free

/-- What was drawn in a later stretch was drawn in all of it. -/
theorem widen {before middle after : Temps} {name : String} (drew : middle.Drew after name)
    (earlier : middle.Extends before) : before.Drew after name := by
  rcases drew with ⟨free, index, fromMiddle, passed, named⟩
  exact ⟨free, index, Nat.le_trans earlier.next_le fromMiddle, passed, named⟩

/-- No name is drawn in two stretches that follow each other. -/
theorem not_twice {before middle after : Temps} {name : String} (first : before.Drew middle name)
    (second : middle.Drew after name) : False := by
  rcases first with ⟨-, index, -, passed, named⟩
  rcases second with ⟨-, later, fromMiddle, -, laterNamed⟩
  have sameIndex := tempName_injective (named.symm.trans laterNamed)
  omega

/-- A name drawn in two stretches was drawn in one of them. -/
theorem split {before middle after : Temps} {name : String} (drew : before.Drew after name)
    (later : after.Extends middle) : before.Drew middle name ∨ middle.Drew after name := by
  rcases drew with ⟨free, index, fromStart, passed, named⟩
  by_cases inFirst : index < middle.next
  · left
    refine ⟨?_, index, fromStart, inFirst, named⟩
    rw [← later.reserved_eq]
    exact free
  · right
    exact ⟨free, index, by omega, passed, named⟩

end Drew

theorem not_drew_self (temps : Temps) (name : String) : ¬temps.Drew temps name := by
  intro drew
  obtain ⟨-, index, fromStart, passed, -⟩ := drew
  omega

end Temps

end Stackwright
