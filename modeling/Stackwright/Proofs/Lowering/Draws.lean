import Stackwright.Proofs.Lowering.Temps

/-!
Contract: several draws from a supply, one after another.

Owns:
- the names that a number of draws give, together and one by one, and the supply that they leave;
- names drawn one after another are distinct, and none of them is reserved;
- whatever was drawn between two states of a supply, as a list of names.

The indices of drawn names increase, and nothing else tells names apart.
-/

namespace Stackwright.Temps

/-- The supply that a number of draws leave. -/
def afterDraws (temps : Temps) : (count : Nat) → Temps
  | 0 => temps
  | count + 1 => temps.draw.2.afterDraws count

/-- The names that a number of draws give, in order. -/
def drawnNames (temps : Temps) : (count : Nat) → List String
  | 0 => []
  | count + 1 => temps.draw.1 :: temps.draw.2.drawnNames count

theorem afterDraws_add (temps : Temps) (first second : Nat) :
    temps.afterDraws (first + second) = (temps.afterDraws first).afterDraws second := by
  induction first generalizing temps with
  | zero => rw [Nat.zero_add, afterDraws]
  | succ first inductionHypothesis =>
    rw [Nat.succ_add, afterDraws, afterDraws, inductionHypothesis]

theorem drawnNames_add (temps : Temps) (first second : Nat) :
    temps.drawnNames (first + second) =
      temps.drawnNames first ++ (temps.afterDraws first).drawnNames second := by
  induction first generalizing temps with
  | zero => rw [Nat.zero_add, drawnNames, List.nil_append, afterDraws]
  | succ first inductionHypothesis =>
    rw [Nat.succ_add, drawnNames, drawnNames, afterDraws, inductionHypothesis, List.cons_append]

/-- The name that a draw gives after a number of others. -/
def drawnName (temps : Temps) (number : Nat) : String :=
  (temps.afterDraws number).draw.1

theorem afterDraws_succ (temps : Temps) (count : Nat) :
    temps.afterDraws (count + 1) = (temps.afterDraws count).draw.2 :=
  afterDraws_add temps count 1

/-- Drawn names are known by how many were drawn before them. -/
theorem drawnNames_eq_map (temps : Temps) (count : Nat) :
    temps.drawnNames count = (List.range count).map temps.drawnName := by
  induction count with
  | zero => rfl
  | succ count inductionHypothesis =>
    rw [drawnNames_add, inductionHypothesis, List.range_succ, List.map_append]
    rfl

theorem extends_afterDraws (temps : Temps) (count : Nat) : (temps.afterDraws count).Extends temps := by
  induction count generalizing temps with
  | zero => exact .refl temps
  | succ count inductionHypothesis => exact (inductionHypothesis temps.draw.2).trans (.draw temps)

/-- The names of a number of draws are drawn between the states before and after them. -/
theorem drew_of_mem_drawnNames {temps : Temps} {count : Nat} {name : String}
    (member : name ∈ temps.drawnNames count) : temps.Drew (temps.afterDraws count) name := by
  induction count generalizing temps with
  | zero => exact absurd member List.not_mem_nil
  | succ count inductionHypothesis =>
    rcases List.mem_cons.1 member with rfl | later
    · exact temps.drew_draw.extend (extends_afterDraws temps.draw.2 count)
    · exact (inductionHypothesis later).widen (.draw temps)

theorem nodup_drawnNames (temps : Temps) (count : Nat) : (temps.drawnNames count).Nodup := by
  induction count generalizing temps with
  | zero => exact List.nodup_nil
  | succ count inductionHypothesis =>
    refine List.nodup_cons.2 ⟨?_, inductionHypothesis temps.draw.2⟩
    intro again
    exact temps.drew_draw.not_twice (drew_of_mem_drawnNames again)

/-- Every draw takes an index of its own. -/
theorem next_add_le_afterDraws (temps : Temps) (count : Nat) :
    temps.next + count ≤ (temps.afterDraws count).next := by
  induction count generalizing temps with
  | zero => exact Nat.le_refl temps.next
  | succ count inductionHypothesis =>
    have later := inductionHypothesis temps.draw.2
    have fromNext : temps.next < temps.draw.2.next := Nat.lt_succ_of_le temps.next_le_nextFree
    rw [afterDraws]
    omega

/-- How many draws were made can be told from the supply that they leave. -/
theorem afterDraws_injective {temps : Temps} {first second : Nat}
    (same : temps.afterDraws first = temps.afterDraws second) : first = second := by
  have notMore {fewer more : Nat} (reached : temps.afterDraws fewer = temps.afterDraws more) :
      ¬fewer < more := by
    intro less
    have bound := (temps.afterDraws fewer).next_add_le_afterDraws (more - fewer)
    rw [← afterDraws_add, Nat.add_sub_cancel' (Nat.le_of_lt less), ← reached] at bound
    omega
  exact Nat.le_antisymm (Nat.le_of_not_lt (notMore same.symm)) (Nat.le_of_not_lt (notMore same))

/-- The names that were drawn, in order, between two states of a supply. -/
structure Draws (before : Temps) (names : List String) (after : Temps) : Prop where
  names_eq : names = before.drawnNames names.length
  after_eq : after = before.afterDraws names.length

namespace Draws

theorem none (temps : Temps) : temps.Draws [] temps :=
  ⟨rfl, rfl⟩

theorem one (temps : Temps) : temps.Draws [temps.draw.1] temps.draw.2 :=
  ⟨rfl, rfl⟩

theorem append {before middle after : Temps} {first second : List String}
    (earlier : before.Draws first middle) (later : middle.Draws second after) :
    before.Draws (first ++ second) after where
  names_eq := by
    rw [List.length_append, drawnNames_add, ← earlier.names_eq, ← earlier.after_eq, ← later.names_eq]
  after_eq := by
    rw [List.length_append, afterDraws_add, ← earlier.after_eq, ← later.after_eq]

theorem drew {before after : Temps} {names : List String} {name : String}
    (draws : before.Draws names after) (member : name ∈ names) : before.Drew after name := by
  rw [draws.names_eq] at member
  rw [draws.after_eq]
  exact drew_of_mem_drawnNames member

theorem nodup {before after : Temps} {names : List String} (draws : before.Draws names after) :
    names.Nodup := by
  rw [draws.names_eq]
  exact nodup_drawnNames before names.length

theorem unique {before after : Temps} {first second : List String}
    (draws : before.Draws first after) (others : before.Draws second after) : first = second := by
  have sameCount := afterDraws_injective (draws.after_eq.symm.trans others.after_eq)
  rw [draws.names_eq, others.names_eq, sameCount]

end Draws

end Stackwright.Temps
