import Mathlib.Data.List.Basic
import Stackwright.Frame.Table

/-!
Contract: how many slots a table needs.

Owns:
- look-up finds exactly the entries of a table;
- the numbers of slots that cover a table, of which its slot count is the least;
- what the slot count is where no count covers the table.

Tables are seen through look-up here, so the count does not depend on the order in which
bindings were made. Covering numbers are not words: the number that covers the last slot is
one that no slot can count.
-/

namespace Stackwright

/-- The larger of two slots is one of them, and its bounds are those of both. -/
instance : Std.LawfulOrderMax Slot where
  max_eq_or left right := by
    simp only [← UInt16.toNat_inj, UInt16.toNat_max]
    omega
  max_le_iff left right bound := by
    simp only [UInt16.le_iff_toNat_le, UInt16.toNat_max]
    exact Nat.max_le

namespace FrameTable

/-- Names are bound once, so what look-up finds is what the table holds. -/
theorem get?_eq_some_iff {table : FrameTable} {name : String} {binding : Binding} :
    table.get? name = some binding ↔ (name, binding) ∈ table.entries := by
  rw [get?, List.lookup_eq_some_iff]
  constructor
  · rintro ⟨before, after, split, -⟩
    rw [split]
    exact List.mem_append_right before List.mem_cons_self
  · intro member
    rcases List.append_of_mem member with ⟨before, after, split⟩
    refine ⟨before, after, split, ?_⟩
    intro entry isBefore
    have nodup := table.names_nodup
    rw [split, List.map_append, List.map_cons, List.nodup_append] at nodup
    rw [bne_iff_ne]
    exact (nodup.2.2 entry.1 (List.mem_map_of_mem isBefore) name List.mem_cons_self).symm

/-- A number of slots is enough for all bindings. -/
def CoveredBy (table : FrameTable) (count : Nat) : Prop :=
  ∀ name binding, table.get? name = some binding → (binding.slot : Nat) < count

theorem coveredBy_iff_entries {table : FrameTable} {count : Nat} :
    table.CoveredBy count ↔ ∀ entry ∈ table.entries, (entry.2.slot : Nat) < count := by
  simp only [CoveredBy, get?_eq_some_iff, Prod.forall]

instance (table : FrameTable) (count : Nat) : Decidable (table.CoveredBy count) :=
  decidable_of_iff' _ coveredBy_iff_entries

theorem CoveredBy.mono {table : FrameTable} {count larger : Nat} (covered : table.CoveredBy count)
    (enough : count ≤ larger) : table.CoveredBy larger :=
  fun name binding bound => Nat.lt_of_lt_of_le (covered name binding bound) enough

/-- The highest slot is in use, and no higher one is. -/
theorem maxSlot?_eq_some_iff {table : FrameTable} {highest : Slot} :
    table.maxSlot? = some highest ↔
      (∃ name binding, table.get? name = some binding ∧ binding.slot = highest) ∧
        ∀ name binding, table.get? name = some binding → binding.slot ≤ highest := by
  rw [maxSlot?, List.max?_eq_some_iff, List.forall_mem_map, List.mem_map]
  simp only [get?_eq_some_iff, Prod.exists, Prod.forall]

/-- While the last slot of all is free, the slot count of a table is enough for it, and nothing
less is. -/
theorem slotCount_le_iff {table : FrameTable} (fits : table.CoveredBy 65535) {count : Nat} :
    (table.slotCount : Nat) ≤ count ↔ table.CoveredBy count := by
  rw [slotCount]
  cases isHighest : table.maxSlot? with
  | none =>
    rw [maxSlot?, List.max?_eq_none_iff, List.map_eq_nil_iff] at isHighest
    simp [CoveredBy, get?, isHighest]
  | some highest =>
    rcases maxSlot?_eq_some_iff.1 isHighest with ⟨⟨name, binding, bound, rfl⟩, above⟩
    have counted : ((binding.slot + 1 : Slot) : Nat) = binding.slot.toNat + 1 := by
      have free := fits name binding bound
      rw [UInt16.toNat_add]
      exact Nat.mod_eq_of_lt (Nat.succ_lt_succ free)
    rw [counted]
    constructor
    · intro enough other otherBinding otherBound
      exact Nat.lt_of_le_of_lt (UInt16.le_iff_toNat_le.1 (above other otherBinding otherBound)) enough
    · intro covers
      exact covers name binding bound

/-- The slot count of a table that binds the last slot starts over. -/
theorem slotCount_eq_zero {table : FrameTable} {name : String} {binding : Binding}
    (bound : table.get? name = some binding) (isLast : binding.slot = 65535) :
    table.slotCount = 0 := by
  have isHighest : table.maxSlot? = some 65535 := by
    rw [maxSlot?_eq_some_iff]
    refine ⟨⟨name, binding, bound, isLast⟩, ?_⟩
    intro other otherBinding _
    exact UInt16.le_iff_toNat_le.2 (Nat.le_of_lt_succ otherBinding.slot.toNat_lt)
  rw [slotCount, isHighest]
  rfl

end FrameTable

end Stackwright
