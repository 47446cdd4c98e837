import Mathlib.Data.List.Perm.Basic
import Stackwright.Json.Basic

/-!
Contract: what an object gives for a key.

Owns:
- the value of a key in members that are put together, rearranged, or cut down to some keys;
- values of keys that lie over a default.

Of members with one key the last one counts. So members may be rearranged where their keys are
distinct, and members of other keys wherever they stand.
-/

namespace Stackwright.Json

variable {members others : List (String × Json)} {key : String}

theorem get?_object (members : List (String × Json)) (key : String) :
    (object members).get? key = lookup? members key :=
  rfl

theorem lookup?_append (before after : List (String × Json)) (key : String) :
    lookup? (before ++ after) key = (lookup? after key).or (lookup? before key) := by
  rw [lookup?, List.reverse_append, List.lookup_append, lookup?, lookup?]

theorem lookup?_singleton (name : String) (value : Json) (key : String) :
    lookup? [(name, value)] key = if key = name then some value else none := by
  rw [lookup?, List.reverse_singleton, List.lookup_cons]
  by_cases same : key = name
  · rw [if_pos same, beq_iff_eq.2 same]
  · rw [if_neg same, beq_eq_false_iff_ne.2 same]
    rfl

theorem lookup?_cons (name : String) (value : Json) (rest : List (String × Json)) (key : String) :
    lookup? ((name, value) :: rest) key = (lookup? rest key).or (if key = name then some value else none) := by
  rw [← List.singleton_append, lookup?_append, lookup?_singleton]

/-- Members with distinct keys may come in any order. -/
theorem lookup?_perm (rearranged : members.Perm others) (distinct : (members.map Prod.fst).Nodup) (key : String) :
    lookup? members key = lookup? others key := by
  induction rearranged with
  | nil => rfl
  | cons member rearranged inductionHypothesis =>
    rw [List.map_cons, List.nodup_cons] at distinct
    rw [lookup?_cons, lookup?_cons, inductionHypothesis distinct.2]
  | swap first second rest =>
    have differ : second.1 ≠ first.1 := by
      intro same
      rw [List.map_cons, List.map_cons, same, List.nodup_cons] at distinct
      exact distinct.1 List.mem_cons_self
    rw [lookup?_cons, lookup?_cons, lookup?_cons, lookup?_cons, Option.or_assoc, Option.or_assoc]
    by_cases isFirst : key = first.1
    · have notSecond : key ≠ second.1 := fun isSecond => differ (isSecond.symm.trans isFirst)
      rw [if_neg notSecond, Option.or_none, Option.none_or]
    · rw [if_neg isFirst, Option.or_none, Option.none_or]
  | trans firstStep secondStep firstHypothesis secondHypothesis =>
    have distinctBetween := (firstStep.map Prod.fst).nodup_iff.1 distinct
    exact (firstHypothesis distinct).trans (secondHypothesis distinctBetween)

/-- The members with one of the keys, in order. -/
def only (keys : List String) (members : List (String × Json)) : List (String × Json) :=
  members.filter fun member => member.1 ∈ keys

/-- The members of other keys do not matter. -/
theorem lookup?_only {keys : List String} (isKey : key ∈ keys) (members : List (String × Json)) :
    lookup? (only keys members) key = lookup? members key := by
  induction members with
  | nil => rfl
  | cons member rest inductionHypothesis =>
    rw [lookup?_cons, ← inductionHypothesis, only, List.filter_cons]
    by_cases isMember : member.1 ∈ keys
    · rw [if_pos (decide_eq_true isMember), lookup?_cons]
      rfl
    · have differs : key ≠ member.1 := fun same => isMember (same ▸ isKey)
      rw [if_neg (by simpa using isMember), if_neg differs, Option.or_none]
      rfl

theorem lookup?_eq_of_only {keys : List String} (same : only keys members = only keys others)
    (isKey : key ∈ keys) : lookup? members key = lookup? others key := by
  rw [← lookup?_only isKey members, same, lookup?_only isKey]

/-! ### Values over defaults -/

variable {Value : Type} {read : Json → Option Value} {default value : Value}

/-- The value of a key is read from the members, or is the default if they do not have the key. -/
inductive Overlaid (members : List (String × Json)) (key : String) (read : Json → Option Value)
    (default : Value) : Value → Prop where
  | absent (noKey : lookup? members key = none) : Overlaid members key read default default
  | given {json : Json} {value : Value} (found : lookup? members key = some json)
      (isValue : read json = some value) : Overlaid members key read default value

theorem getWithDefault?_eq_some_iff :
    (object members).getWithDefault? key default read = some value ↔ Overlaid members key read default value := by
  rw [getWithDefault?, get?_object]
  cases found : lookup? members key with
  | none =>
    constructor
    · intro same
      cases same
      exact .absent found
    · intro overlaid
      cases overlaid with
      | absent => rfl
      | given foundOther => cases found.symm.trans foundOther
  | some json =>
    constructor
    · exact .given found
    · intro overlaid
      cases overlaid with
      | absent noKey => cases found.symm.trans noKey
      | given foundOther isValue =>
        cases found.symm.trans foundOther
        exact isValue

theorem getWithDefault?_of_lookup? {json : Json} (found : lookup? members key = some json) :
    (object members).getWithDefault? key default read = read json := by
  rw [getWithDefault?, get?_object, found]

/-- Only what is read for the key matters. -/
theorem getWithDefault?_congr (same : (lookup? members key).map read = (lookup? others key).map read) :
    (object members).getWithDefault? key default read = (object others).getWithDefault? key default read := by
  have of_lookup (members : List (String × Json)) : (object members).getWithDefault? key default read =
      ((lookup? members key).map read).getD (some default) := by
    cases found : lookup? members key with
    | none =>
      rw [getWithDefault?, get?_object, found]
      rfl
    | some json =>
      rw [getWithDefault?_of_lookup? found]
      rfl
  rw [of_lookup, of_lookup, same]

end Stackwright.Json
