/-!
Contract: the supply of names for temporaries.

A supply counts upwards and never comes back to an index it has passed. Names
that are reserved are passed over; reserving a name says nothing about names
that were drawn earlier.

Indices have no bound here. A counter of 32 bits takes the same ones until it has
passed 2^32 of them; what it does from there on is not described.
-/

namespace Stackwright

/-- The name of the temporary with a given index. -/
def tempName (index : Nat) : String :=
  "tmp" ++ toString index

/-- A supply of names: the index to try next, and the names never to give out. -/
structure Temps where
  next : Nat := 0
  reserved : List String := []
deriving DecidableEq, Repr

namespace Temps

/-- A supply that never gives out any of the given names. -/
def withReserved (names : List String) : Temps :=
  { reserved := names }

def reserve (temps : Temps) (name : String) : Temps :=
  { temps with reserved := temps.reserved.insert name }

def reserveAll (temps : Temps) (names : List String) : Temps :=
  names.foldl reserve temps

/-- The first index, from `index` on, whose name is not reserved. Each round
passes over one reserved name, and distinct indices have distinct names, so as
many rounds as there are reserved names are enough. -/
def firstFree (reserved : List String) (index : Nat) : (rounds : Nat) → Nat
  | 0 => index
  | rounds + 1 =>
    if tempName index ∈ reserved then firstFree reserved (index + 1) rounds else index

/-- The index that the next draw takes. -/
def nextFree (temps : Temps) : Nat :=
  firstFree temps.reserved temps.next temps.reserved.length

/-- The next name, and the supply that is left. -/
def draw (temps : Temps) : String × Temps :=
  (tempName temps.nextFree, { temps with next := temps.nextFree + 1 })

/-- A name is reserved after a reservation if it was before or is the new one. -/
theorem mem_reserved_reserve (temps : Temps) (name other : String) :
    other ∈ (temps.reserve name).reserved ↔ other = name ∨ other ∈ temps.reserved := by
  simp [reserve]

/-- The search never goes back. -/
theorem le_firstFree (reserved : List String) (index rounds : Nat) :
    index ≤ firstFree reserved index rounds := by
  induction rounds generalizing index with
  | zero => exact Nat.le_refl index
  | succ rounds inductionHypothesis =>
    rw [firstFree]
    split
    · exact Nat.le_trans (Nat.le_succ index) (inductionHypothesis (index + 1))
    · exact Nat.le_refl index

/-- Every index that the search passes over has a reserved name. -/
theorem reserved_of_lt_firstFree (reserved : List String) (index rounds passed : Nat)
    (fromStart : index ≤ passed) (passedOver : passed < firstFree reserved index rounds) :
    tempName passed ∈ reserved := by
  induction rounds generalizing index with
  | zero => exact absurd passedOver (Nat.not_lt_of_le fromStart)
  | succ rounds inductionHypothesis =>
    rw [firstFree] at passedOver
    split at passedOver
    · next taken =>
      by_cases here : passed = index
      · rw [here]
        exact taken
      · exact inductionHypothesis (index + 1) (by omega) passedOver
    · exact absurd passedOver (Nat.not_lt_of_le fromStart)

end Temps

end Stackwright
