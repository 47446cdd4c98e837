import Stackwright.Frame.Slot
import Stackwright.Ty.Basic

/-!
Contract: the slot table of one method.

A table binds each of finitely many names to a slot and a type. It is seen
through `get?` alone: two tables agree when they bind the same names in the same
way, and the order in which the bindings were made cannot be observed.

Owns:
- the table, with distinct names as an invariant of the type;
- insertion, look-up and the highest slot;
- agreement of tables, as a decidable proposition.

Does not own: which names a method binds. That is the frame layout.
-/

namespace Stackwright

/-- What a name is bound to. -/
structure Binding where
  slot : Slot
  ty : Ty
deriving DecidableEq, Repr

/-- The bindings of one method, each name at most once. -/
structure FrameTable where
  entries : List (String × Binding)
  names_nodup : (entries.map Prod.fst).Nodup

namespace FrameTable

instance : EmptyCollection FrameTable where
  emptyCollection := { entries := [], names_nodup := List.nodup_nil }

/-- The names a table binds. -/
def names (table : FrameTable) : List String :=
  table.entries.map Prod.fst

/-- What a table binds a name to. -/
def get? (table : FrameTable) (name : String) : Option Binding :=
  table.entries.lookup name

def size (table : FrameTable) : Nat :=
  table.entries.length

/-- Binds a name, in place of an earlier binding of it. -/
def insert (table : FrameTable) (name : String) (slot : Slot) (ty : Ty) : FrameTable where
  entries := (name, { slot, ty }) :: table.entries.filter fun entry => entry.1 ≠ name
  names_nodup := by
    rw [List.map_cons, List.nodup_cons]
    constructor
    · simp
    · exact table.names_nodup.sublist (List.filter_sublist.map Prod.fst)

/-- The highest slot in use. -/
def maxSlot? (table : FrameTable) : Option Slot :=
  (table.entries.map fun entry => entry.2.slot).max?

/-- One slot more than the highest in use. Behind the last slot there is none, so
the count of a table that binds it starts over at zero. -/
def slotCount (table : FrameTable) : Slot :=
  match table.maxSlot? with
  | some slot => slot + 1
  | none => 0

@[simp] theorem get?_empty (name : String) : (∅ : FrameTable).get? name = none := rfl

private theorem lookup_filter_ne (entries : List (String × Binding)) (removed name : String) :
    (entries.filter fun entry => entry.1 ≠ removed).lookup name =
      if name = removed then none else entries.lookup name := by
  induction entries with
  | nil => simp
  | cons head tail inductionHypothesis =>
    obtain ⟨key, binding⟩ := head
    by_cases keyRemoved : key = removed
    · rw [List.filter_cons_of_neg (by simpa using keyRemoved), inductionHypothesis]
      by_cases nameRemoved : name = removed
      · simp only [nameRemoved, if_true]
      · have different : (name == key) = false :=
          beq_eq_false_iff_ne.2 fun same => nameRemoved (same.trans keyRemoved)
        simp only [nameRemoved, if_false, List.lookup_cons, different]
    · rw [List.filter_cons_of_pos (by simpa using keyRemoved), List.lookup_cons, List.lookup_cons,
        inductionHypothesis]
      by_cases same : name = key
      · subst same
        simp [keyRemoved]
      · have different : (name == key) = false := beq_eq_false_iff_ne.2 same
        simp only [different]

/-- Insertion rebinds its own name and leaves every other one alone. -/
theorem get?_insert (table : FrameTable) (bound name : String) (slot : Slot) (ty : Ty) :
    (table.insert bound slot ty).get? name =
      if name = bound then some { slot, ty } else table.get? name := by
  by_cases same : name = bound
  · subst same
    simp [get?, insert]
  · have kept := lookup_filter_ne table.entries bound name
    simp only [same, if_false] at kept
    simp only [get?, insert, List.lookup_cons, beq_eq_false_iff_ne.2 same, kept, same, if_false]

/-- A name is bound exactly when it is among the names of the table. -/
theorem get?_isSome_iff (table : FrameTable) (name : String) :
    (table.get? name).isSome ↔ name ∈ table.names := by
  simp only [get?, names]
  induction table.entries with
  | nil => simp
  | cons head tail inductionHypothesis =>
    obtain ⟨key, binding⟩ := head
    by_cases same : name = key
    · subst same
      simp
    · simp [List.lookup_cons, beq_eq_false_iff_ne.2 same, inductionHypothesis, same]

/-- Two tables agree when they bind the same names in the same way. -/
def Agrees (left right : FrameTable) : Prop :=
  ∀ name, left.get? name = right.get? name

/-- Agreement is settled on the names that either table binds: both answer
`none` for every other name. -/
theorem agrees_iff_on_names (left right : FrameTable) :
    left.Agrees right ↔ ∀ name ∈ left.names ++ right.names, left.get? name = right.get? name := by
  constructor
  · intro agrees name _
    exact agrees name
  · intro onNames name
    by_cases member : name ∈ left.names ++ right.names
    · exact onNames name member
    · rw [List.mem_append, not_or, ← get?_isSome_iff, ← get?_isSome_iff] at member
      rw [Option.not_isSome_iff_eq_none.1 member.1, Option.not_isSome_iff_eq_none.1 member.2]

instance (left right : FrameTable) : Decidable (left.Agrees right) :=
  decidable_of_iff' _ (agrees_iff_on_names left right)

end FrameTable

end Stackwright
