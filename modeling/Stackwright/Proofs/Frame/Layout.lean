import Mathlib.Data.Finset.Card
import Stackwright.Generation.Body
import Stackwright.Proofs.Frame.Slots

/-!
Contract: what the standard frame layout binds, to which slots.

Owns:
- the place of a parameter, by the last one of its name;
- the place of a local, by the first one of its name and the new names before it;
- the standard frame binds exactly these names, and the receiver where its name is free;
- different names have different slots, while there are enough of them;
- the locals limit of a method over its standard frame, and where its parameter frame is enough.

Names may be repeated and may coincide, so a place is counted by names where the frame skips
variables, and by positions where it does not. Places are counted without end and come to
slots only where a table binds them, so wrapping around stays out of the counting.
-/

namespace Stackwright.FrameTable

/-! ### Places -/

/-- Where a variable goes in a frame, counted without end. -/
structure Place where
  number : Nat
  ty : Ty

/-- A table binds the slot that the number of a place stands for. -/
def Place.binding (place : Place) : Binding where
  slot := place.number
  ty := place.ty

/-- A name has the place of the last variable that bears it, counted from a number. -/
def LastPlace (start : Nat) (vars : List Variable) (name : String) (place : Place) : Prop :=
  ∃ before declared after, vars = before ++ declared :: after ∧ declared.name = name ∧
    name ∉ after.map Variable.name ∧ place = { number := start + before.length, ty := declared.ty }

/-- The names of variables that are not taken yet. -/
def newNames (taken : Finset String) (vars : List Variable) : Finset String :=
  (vars.map Variable.name).toFinset \ taken

/-- A name that is not taken has the place of the first variable that bears it. The number is
counted by the new names before. -/
def FirstPlace (start : Nat) (taken : Finset String) (vars : List Variable) (name : String)
    (place : Place) : Prop :=
  ∃ before declared after, vars = before ++ declared :: after ∧ declared.name = name ∧
    name ∉ before.map Variable.name ∧ name ∉ taken ∧
    place = { number := start + (newNames taken before).card, ty := declared.ty }

section Places

variable {start : Nat} {taken : Finset String} {head : Variable} {rest vars : List Variable}
  {name other : String} {place otherPlace : Place}

theorem lastPlace_nil : ¬LastPlace start [] name place := by
  rintro ⟨before, declared, after, split, -⟩
  simp at split

/-- A variable gives its name a place if no later one bears the name. -/
theorem lastPlace_cons :
    LastPlace start (head :: rest) name place ↔
      LastPlace (start + 1) rest name place ∨
        name ∉ rest.map Variable.name ∧ head.name = name ∧
          place = { number := start, ty := head.ty } := by
  constructor
  · rintro ⟨before, declared, after, split, named, isLast, rfl⟩
    cases before with
    | nil =>
      cases split
      exact .inr ⟨isLast, named, rfl⟩
    | cons first others =>
      cases split
      refine .inl ⟨others, declared, after, rfl, named, isLast, ?_⟩
      rw [List.length_cons, Nat.add_comm others.length 1, Nat.add_assoc]
  · rintro (⟨before, declared, after, rfl, named, isLast, rfl⟩ | ⟨isLast, named, rfl⟩)
    · refine ⟨head :: before, declared, after, rfl, named, isLast, ?_⟩
      rw [List.length_cons, Nat.add_comm before.length 1, Nat.add_assoc]
    · exact ⟨[], head, rest, rfl, named, isLast, rfl⟩

theorem LastPlace.mem_names (last : LastPlace start vars name place) :
    name ∈ vars.map Variable.name := by
  rcases last with ⟨before, declared, after, rfl, rfl, -⟩
  simp

/-- Every name of the variables has a place. -/
theorem exists_lastPlace (start : Nat) (member : name ∈ vars.map Variable.name) :
    ∃ place, LastPlace start vars name place := by
  induction vars generalizing start with
  | nil => exact absurd member List.not_mem_nil
  | cons head rest inductionHypothesis =>
    by_cases later : name ∈ rest.map Variable.name
    · rcases inductionHypothesis (start + 1) later with ⟨place, last⟩
      exact ⟨place, lastPlace_cons.2 (.inl last)⟩
    · have isHead : name = head.name := (List.mem_cons.1 member).resolve_right later
      exact ⟨_, lastPlace_cons.2 (.inr ⟨later, isHead.symm, rfl⟩)⟩

/-- A variable whose name is not repeated after it has the place of its position. -/
theorem lastPlace_of_getElem? (start : Nat) {index : Nat} (isAt : vars[index]? = some head)
    (isLast : head.name ∉ (vars.drop (index + 1)).map Variable.name) :
    LastPlace start vars head.name { number := start + index, ty := head.ty } := by
  rcases List.getElem?_eq_some_iff.1 isAt with ⟨inside, rfl⟩
  refine ⟨vars.take index, vars[index], vars.drop (index + 1), ?_, rfl, isLast, ?_⟩
  · rw [← List.drop_eq_getElem_cons inside, List.take_append_drop]
  · rw [List.length_take_of_le (Nat.le_of_lt inside)]

theorem LastPlace.number_lt (last : LastPlace start vars name place) :
    start ≤ place.number ∧ place.number < start + vars.length := by
  rcases last with ⟨before, declared, after, rfl, -, -, rfl⟩
  simp only [List.length_append, List.length_cons]
  omega

theorem LastPlace.name_eq (last : LastPlace start vars name place)
    (otherLast : LastPlace start vars other otherPlace)
    (sameNumber : place.number = otherPlace.number) : name = other := by
  rcases last with ⟨before, declared, after, rfl, rfl, -, rfl⟩
  rcases otherLast with ⟨otherBefore, otherDeclared, otherAfter, split, rfl, -, rfl⟩
  have sameLength : before.length = otherBefore.length := Nat.add_left_cancel sameNumber
  have tails := (List.append_inj split sameLength).2
  rw [(List.cons.inj tails).1]

theorem mem_newNames : name ∈ newNames taken vars ↔
    name ∈ vars.map Variable.name ∧ name ∉ taken := by
  rw [newNames, Finset.mem_sdiff, List.mem_toFinset]

@[simp] theorem newNames_nil (taken : Finset String) : newNames taken [] = ∅ :=
  Finset.empty_sdiff taken

/-- A taken name in front is not counted. -/
theorem newNames_cons_of_mem (isTaken : head.name ∈ taken) :
    newNames taken (head :: rest) = newNames taken rest := by
  rw [newNames, List.map_cons, List.toFinset_cons, Finset.insert_sdiff_of_mem _ isTaken, newNames]

/-- A new name in front is new once. -/
theorem newNames_cons_of_notMem (isNew : head.name ∉ taken) :
    newNames taken (head :: rest) =
      Insert.insert head.name (newNames ({head.name} ∪ taken) rest) := by
  ext name
  simp only [Finset.mem_insert, Finset.mem_union, Finset.mem_singleton, mem_newNames, List.map_cons,
    List.mem_cons]
  by_cases isHead : name = head.name
  · simp [isHead, isNew]
  · simp [isHead]

theorem card_newNames_cons (isNew : head.name ∉ taken) :
    (newNames taken (head :: rest)).card = (newNames ({head.name} ∪ taken) rest).card + 1 := by
  rw [newNames_cons_of_notMem isNew, Finset.card_insert_of_notMem]
  rw [mem_newNames]
  exact fun both => both.2 (Finset.mem_union_left taken (Finset.mem_singleton_self head.name))

theorem firstPlace_nil : ¬FirstPlace start taken [] name place := by
  rintro ⟨before, declared, after, split, -⟩
  simp at split

/-- A variable with a taken name is skipped. -/
theorem firstPlace_cons_of_mem (isTaken : head.name ∈ taken) :
    FirstPlace start taken (head :: rest) name place ↔ FirstPlace start taken rest name place := by
  constructor
  · rintro ⟨before, declared, after, split, rfl, isFirst, isNew, rfl⟩
    cases before with
    | nil =>
      cases split
      exact absurd isTaken isNew
    | cons first others =>
      cases split
      rw [List.map_cons, List.mem_cons, not_or] at isFirst
      exact ⟨others, declared, after, rfl, rfl, isFirst.2, isNew, by rw [newNames_cons_of_mem isTaken]⟩
  · rintro ⟨before, declared, after, rfl, rfl, isFirst, isNew, rfl⟩
    refine ⟨head :: before, declared, after, rfl, rfl, ?_, isNew, by rw [newNames_cons_of_mem isTaken]⟩
    rw [List.map_cons, List.mem_cons, not_or]
    exact ⟨fun same => isNew (same ▸ isTaken), isFirst⟩

/-- A variable with a new name takes the next place, and its name is taken from there on. -/
theorem firstPlace_cons_of_notMem (isNew : head.name ∉ taken) :
    FirstPlace start taken (head :: rest) name place ↔
      head.name = name ∧ place = { number := start, ty := head.ty } ∨
        FirstPlace (start + 1) ({head.name} ∪ taken) rest name place := by
  constructor
  · rintro ⟨before, declared, after, split, rfl, isFirst, notTaken, rfl⟩
    cases before with
    | nil =>
      cases split
      refine .inl ⟨rfl, ?_⟩
      rw [newNames_nil, Finset.card_empty, Nat.add_zero]
    | cons first others =>
      cases split
      rw [List.map_cons, List.mem_cons, not_or] at isFirst
      refine .inr ⟨others, declared, after, rfl, rfl, isFirst.2, ?_, ?_⟩
      · rw [Finset.mem_union, Finset.mem_singleton, not_or]
        exact ⟨isFirst.1, notTaken⟩
      · rw [card_newNames_cons isNew, Nat.add_comm _ 1, Nat.add_assoc]
  · rintro (⟨rfl, rfl⟩ | ⟨before, declared, after, rfl, rfl, isFirst, notTaken, rfl⟩)
    · refine ⟨[], head, rest, rfl, rfl, List.not_mem_nil, isNew, ?_⟩
      rw [newNames_nil, Finset.card_empty, Nat.add_zero]
    · rw [Finset.mem_union, Finset.mem_singleton, not_or] at notTaken
      refine ⟨head :: before, declared, after, rfl, rfl, ?_, notTaken.2, ?_⟩
      · rw [List.map_cons, List.mem_cons, not_or]
        exact ⟨notTaken.1, isFirst⟩
      · rw [card_newNames_cons isNew, Nat.add_right_comm, Nat.add_assoc]

/-- Every new name has a place. -/
theorem exists_firstPlace (start : Nat) (isNew : name ∈ newNames taken vars) :
    ∃ place, FirstPlace start taken vars name place := by
  induction vars generalizing start taken with
  | nil =>
    rw [newNames_nil] at isNew
    exact absurd isNew (Finset.notMem_empty name)
  | cons head rest inductionHypothesis =>
    by_cases isTaken : head.name ∈ taken
    · rw [newNames_cons_of_mem isTaken] at isNew
      simp only [firstPlace_cons_of_mem isTaken]
      exact inductionHypothesis start isNew
    · rw [newNames_cons_of_notMem isTaken, Finset.mem_insert] at isNew
      simp only [firstPlace_cons_of_notMem isTaken]
      rcases isNew with rfl | later
      · exact ⟨_, .inl ⟨rfl, rfl⟩⟩
      · rcases inductionHypothesis (start + 1) later with ⟨place, first⟩
        exact ⟨place, .inr first⟩

theorem FirstPlace.mem_newNames (first : FirstPlace start taken vars name place) :
    name ∈ newNames taken vars := by
  rcases first with ⟨before, declared, after, rfl, rfl, -, notTaken, -⟩
  rw [FrameTable.mem_newNames]
  exact ⟨by simp, notTaken⟩

/-- The places of new names are numbered from the start on, one for each. -/
theorem FirstPlace.number_lt (first : FirstPlace start taken vars name place) :
    start ≤ place.number ∧ place.number < start + (newNames taken vars).card := by
  induction vars generalizing start taken with
  | nil => exact absurd first firstPlace_nil
  | cons head rest inductionHypothesis =>
    by_cases isTaken : head.name ∈ taken
    · rw [firstPlace_cons_of_mem isTaken] at first
      rw [newNames_cons_of_mem isTaken]
      exact inductionHypothesis first
    · rw [firstPlace_cons_of_notMem isTaken] at first
      rw [card_newNames_cons isTaken]
      rcases first with ⟨-, rfl⟩ | later
      · exact ⟨Nat.le_refl start, Nat.lt_add_of_pos_right (Nat.succ_pos _)⟩
      · have numbered := inductionHypothesis later
        omega

theorem FirstPlace.name_eq (first : FirstPlace start taken vars name place)
    (otherFirst : FirstPlace start taken vars other otherPlace)
    (sameNumber : place.number = otherPlace.number) : name = other := by
  induction vars generalizing start taken with
  | nil => exact absurd first firstPlace_nil
  | cons head rest inductionHypothesis =>
    by_cases isTaken : head.name ∈ taken
    · rw [firstPlace_cons_of_mem isTaken] at first otherFirst
      exact inductionHypothesis first otherFirst
    · rw [firstPlace_cons_of_notMem isTaken] at first otherFirst
      -- only the head has the start itself, and all later ones have higher numbers
      rcases first with ⟨named, rfl⟩ | later
      · rcases otherFirst with ⟨otherNamed, rfl⟩ | otherLater
        · exact named.symm.trans otherNamed
        · exact absurd otherLater.number_lt.1 (by simp [← sameNumber])
      · rcases otherFirst with ⟨otherNamed, rfl⟩ | otherLater
        · exact absurd later.number_lt.1 (by simp [sameNumber])
        · exact inductionHypothesis later otherLater

end Places

/-! ### What the passes over the variables bind -/

theorem mem_names_insert {table : FrameTable} {bound name : String} {slot : Slot} {ty : Ty} :
    name ∈ (table.insert bound slot ty).names ↔ name = bound ∨ name ∈ table.names := by
  rw [← get?_isSome_iff, ← get?_isSome_iff, get?_insert]
  split
  · simp [*]
  · simp [*]

theorem binds_insert {table : FrameTable} {taken : Finset String} {bound : String} {slot : Slot}
    {ty : Ty} (binds : ∀ name, name ∈ taken ↔ name ∈ table.names) (name : String) :
    name ∈ {bound} ∪ taken ↔ name ∈ (table.insert bound slot ty).names := by
  rw [Finset.mem_union, Finset.mem_singleton, mem_names_insert, binds]

/-- The pass over parameters binds each of their names to its last place, and leaves the
others alone. -/
theorem get?_bindParams {table : FrameTable} {start : Nat} {params : List Variable} {name : String}
    {binding : Binding} :
    (table.bindParams start params).get? name = some binding ↔
      (∃ place, LastPlace start params name place ∧ binding = place.binding) ∨
        name ∉ params.map Variable.name ∧ table.get? name = some binding := by
  induction params generalizing table start with
  | nil => simp [bindParams, lastPlace_nil]
  | cons head rest inductionHypothesis =>
    have next : (start : Slot) + 1 = ((start + 1 : Nat) : Slot) := (UInt16.ofNat_add start 1).symm
    rw [bindParams, next, inductionHypothesis, get?_insert, List.map_cons, List.mem_cons]
    simp only [lastPlace_cons]
    by_cases isHead : name = head.name
    · subst isHead
      simp [Place.binding, eq_comm, or_and_right, exists_or]
    · simp [isHead, Ne.symm isHead]

section LocalsPass

variable {table : FrameTable} {slot : Slot} {taken : Finset String} {head : Variable}
  {rest : List Variable} (binds : ∀ name, name ∈ taken ↔ name ∈ table.names)

include binds

/-- A local with a bound name is skipped. -/
theorem bindLocals_cons_of_mem (isTaken : head.name ∈ taken) :
    table.bindLocals slot (head :: rest) = table.bindLocals slot rest := by
  rw [bindLocals, if_pos ((get?_isSome_iff table head.name).2 ((binds head.name).1 isTaken))]

theorem get?_eq_none_of_notMem (isNew : head.name ∉ taken) : table.get? head.name = none := by
  rw [← Option.not_isSome_iff_eq_none, get?_isSome_iff, ← binds]
  exact isNew

/-- A local with a new name is bound to the next slot. -/
theorem bindLocals_cons_of_notMem {start : Nat} (isNew : head.name ∉ taken) :
    table.bindLocals start (head :: rest) =
      (table.insert head.name start head.ty).bindLocals (start + 1 : Nat) rest := by
  rw [bindLocals, if_neg (Option.not_isSome_iff_eq_none.2 (get?_eq_none_of_notMem binds isNew)),
    UInt16.ofNat_add]
  rfl

end LocalsPass

/-- The pass over locals keeps what is bound, and binds each new name to its first place. -/
theorem get?_bindLocals {table : FrameTable} {start : Nat} {taken : Finset String}
    {locals : List Variable} {name : String} {binding : Binding}
    (binds : ∀ name, name ∈ taken ↔ name ∈ table.names) :
    (table.bindLocals start locals).get? name = some binding ↔
      table.get? name = some binding ∨
        ∃ place, FirstPlace start taken locals name place ∧ binding = place.binding := by
  induction locals generalizing table start taken with
  | nil => simp [bindLocals, firstPlace_nil]
  | cons head rest inductionHypothesis =>
    by_cases isTaken : head.name ∈ taken
    · rw [bindLocals_cons_of_mem binds isTaken, inductionHypothesis binds]
      simp only [firstPlace_cons_of_mem isTaken]
    · rw [bindLocals_cons_of_notMem binds isTaken, inductionHypothesis (binds_insert binds),
        get?_insert]
      simp only [firstPlace_cons_of_notMem isTaken]
      by_cases isHead : name = head.name
      · subst isHead
        simp [get?_eq_none_of_notMem binds isTaken, Place.binding, eq_comm, or_and_right, exists_or]
      · simp [isHead, Ne.symm isHead]

/-- A new binding asks for its own slot, and for no other. -/
theorem coveredBy_insert {table : FrameTable} {name : String} {slot : Slot} {count : Nat} {ty : Ty}
    (notBound : table.get? name = none) :
    (table.insert name slot ty).CoveredBy count ↔ (slot : Nat) < count ∧ table.CoveredBy count := by
  simp only [CoveredBy, get?_insert]
  constructor
  · intro covered
    refine ⟨covered name { slot, ty } (if_pos rfl), ?_⟩
    intro other binding bound
    apply covered other binding
    rw [if_neg, bound]
    rintro rfl
    cases notBound.symm.trans bound
  · rintro ⟨ownSlot, covered⟩ other binding bound
    split at bound
    · cases bound
      exact ownSlot
    · exact covered other binding bound

/-- Locals ask for one more slot for each new name, while there are enough. -/
theorem coveredBy_bindLocals {table : FrameTable} {start count : Nat} {taken : Finset String}
    {locals : List Variable} (binds : ∀ name, name ∈ taken ↔ name ∈ table.names)
    (fits : start + (newNames taken locals).card ≤ 65536) :
    (table.bindLocals start locals).CoveredBy count ↔
      table.CoveredBy count ∧
        ((newNames taken locals).card = 0 ∨ start + (newNames taken locals).card ≤ count) := by
  induction locals generalizing table start taken with
  | nil => simp [bindLocals]
  | cons head rest inductionHypothesis =>
    by_cases isTaken : head.name ∈ taken
    · rw [newNames_cons_of_mem isTaken] at fits ⊢
      rw [bindLocals_cons_of_mem binds isTaken, inductionHypothesis binds fits]
    · rw [card_newNames_cons isTaken] at fits ⊢
      have isSlot : start < 65536 := by omega
      have isOwn : ((start : Slot) : Nat) = start := UInt16.toNat_ofNat_of_lt' isSlot
      rw [bindLocals_cons_of_notMem binds isTaken, inductionHypothesis (binds_insert binds) (by omega),
        coveredBy_insert (get?_eq_none_of_notMem binds isTaken), isOwn]
      constructor
      · rintro ⟨⟨ownSlot, headCovered⟩, enough⟩
        exact ⟨headCovered, .inr (by omega)⟩
      · rintro ⟨headCovered, enough⟩
        exact ⟨⟨by omega, headCovered⟩, by omega⟩

/-! ### The standard frame -/

/-- The names that the receiver and the parameters of a method take. -/
def headNames (isStatic : Bool) (params : List Variable) : Finset String :=
  (if isStatic then ∅ else {"this"}) ∪ (params.map Variable.name).toFinset

/-- The number of places for the receiver and the parameters of a method, repeated ones
included. -/
def headSize (isStatic : Bool) (params : List Variable) : Nat :=
  receiverSlots isStatic + params.length

/-- The number of places in the frame of a method. -/
def frameSize (isStatic : Bool) (params locals : List Variable) : Nat :=
  headSize isStatic params + (newNames (headNames isStatic params) locals).card

@[simp] theorem frameSize_nil (isStatic : Bool) (params : List Variable) :
    frameSize isStatic params [] = headSize isStatic params := by
  rw [frameSize, newNames_nil, Finset.card_empty, Nat.add_zero]

/-- The place of a name in the frame of a method: that of the receiver if its name is free, of
a parameter, or of a local whose name neither of them takes. -/
inductive StandardPlace (isStatic : Bool) (params locals : List Variable) (name : String)
    (place : Place) : Prop where
  | receiver (isInstance : isStatic = false) (isFree : "this" ∉ params.map Variable.name)
      (named : name = "this") (first : place = { number := 0, ty := .receiver })
  | param (last : LastPlace (receiverSlots isStatic) params name place)
  | declared (first : FirstPlace (headSize isStatic params) (headNames isStatic params) locals name
      place)

section Layout

variable {isStatic : Bool} {params locals : List Variable} {name : String} {binding : Binding}
  {place : Place}

/-- The locals follow on the frame without them. -/
theorem layout_eq_bindLocals (isStatic : Bool) (params locals : List Variable) :
    layout isStatic params locals =
      (layout isStatic params []).bindLocals (headSize isStatic params) locals := by
  rw [headSize, UInt16.ofNat_add]
  rfl

/-- Without locals, the frame binds the receiver and the parameters. -/
theorem get?_layout_nil :
    (layout isStatic params []).get? name = some binding ↔
      (∃ place, LastPlace (receiverSlots isStatic) params name place ∧ binding = place.binding) ∨
        name ∉ params.map Variable.name ∧ isStatic = false ∧ name = "this" ∧
          binding = { slot := 0, ty := .receiver } := by
  rw [layout, bindLocals, get?_bindParams]
  cases isStatic with
  | true => simp
  | false =>
    rw [if_neg Bool.false_ne_true, get?_insert]
    by_cases isThis : name = "this"
    · simp [isThis, eq_comm]
    · simp [isThis]

theorem mem_headNames :
    name ∈ headNames isStatic params ↔
      name ∈ params.map Variable.name ∨ isStatic = false ∧ name = "this" := by
  rw [headNames, Finset.mem_union, List.mem_toFinset, or_comm]
  cases isStatic <;> simp

theorem mem_names_layout_nil :
    name ∈ headNames isStatic params ↔ name ∈ (layout isStatic params []).names := by
  rw [mem_headNames, ← get?_isSome_iff, Option.isSome_iff_exists]
  simp only [get?_layout_nil]
  constructor
  · intro isHead
    by_cases isParam : name ∈ params.map Variable.name
    · rcases exists_lastPlace (receiverSlots isStatic) isParam with ⟨place, last⟩
      exact ⟨_, .inl ⟨place, last, rfl⟩⟩
    · rcases isHead.resolve_left isParam with ⟨isInstance, named⟩
      exact ⟨_, .inr ⟨isParam, isInstance, named, rfl⟩⟩
  · rintro ⟨binding, ⟨place, last, -⟩ | ⟨-, isInstance, named, -⟩⟩
    · exact .inl last.mem_names
    · exact .inr ⟨isInstance, named⟩

/-- The frame of a method binds exactly the names that have a place in it. -/
theorem get?_layout :
    (layout isStatic params locals).get? name = some binding ↔
      ∃ place, StandardPlace isStatic params locals name place ∧ binding = place.binding := by
  rw [layout_eq_bindLocals, get?_bindLocals fun _ => mem_names_layout_nil, get?_layout_nil]
  constructor
  · rintro ((⟨place, last, rfl⟩ | ⟨isFree, isInstance, rfl, rfl⟩) | ⟨place, first, rfl⟩)
    · exact ⟨place, .param last, rfl⟩
    · exact ⟨_, .receiver isInstance isFree rfl rfl, rfl⟩
    · exact ⟨place, .declared first, rfl⟩
  · rintro ⟨place, ⟨isInstance, isFree, rfl, rfl⟩ | last | first, rfl⟩
    · exact .inl (.inr ⟨isFree, isInstance, rfl, rfl⟩)
    · exact .inl (.inl ⟨place, last, rfl⟩)
    · exact .inr ⟨place, first, rfl⟩

/-- The frame of a method binds the names of its variables, and that of the receiver. -/
theorem mem_names_layout :
    name ∈ (layout isStatic params locals).names ↔
      name ∈ headNames isStatic params ∨ name ∈ locals.map Variable.name := by
  rw [← get?_isSome_iff, Option.isSome_iff_exists, layout_eq_bindLocals]
  simp only [get?_bindLocals fun _ => mem_names_layout_nil]
  constructor
  · rintro ⟨binding, headBound | ⟨place, first, -⟩⟩
    · have bound := Option.isSome_of_eq_some headBound
      exact .inl (mem_names_layout_nil.2 ((get?_isSome_iff _ name).1 bound))
    · exact .inr (mem_newNames.1 first.mem_newNames).1
  · intro member
    by_cases isHead : name ∈ headNames isStatic params
    · have bound := (get?_isSome_iff _ name).2 (mem_names_layout_nil.1 isHead)
      rcases Option.isSome_iff_exists.1 bound with ⟨binding, headBound⟩
      exact ⟨binding, .inl headBound⟩
    · have isNew := mem_newNames.2 ⟨member.resolve_left isHead, isHead⟩
      rcases exists_firstPlace (headSize isStatic params) isNew with ⟨place, first⟩
      exact ⟨_, .inr ⟨place, first, rfl⟩⟩

/-- The places of a frame are numbered from zero, those of the head first. -/
theorem StandardPlace.number_lt (standard : StandardPlace isStatic params locals name place) :
    place.number < frameSize isStatic params locals := by
  rcases standard with ⟨rfl, -, -, rfl⟩ | last | first
  · have isHead : 0 < headSize false params := Nat.lt_add_right params.length Nat.one_pos
    exact Nat.lt_add_right _ isHead
  · exact Nat.lt_add_right _ last.number_lt.2
  · exact first.number_lt.2

/-- While there are enough slots, the slot of a name is the number of its place. -/
theorem StandardPlace.slot_eq (standard : StandardPlace isStatic params locals name place)
    (fits : frameSize isStatic params locals ≤ 65536) : (place.binding.slot : Nat) = place.number :=
  UInt16.toNat_ofNat_of_lt' (Nat.lt_of_lt_of_le standard.number_lt fits)

/-- The number of a place in the frame tells the name that has it. -/
theorem StandardPlace.name_eq {other : String} {otherPlace : Place}
    (standard : StandardPlace isStatic params locals name place)
    (otherStandard : StandardPlace isStatic params locals other otherPlace)
    (sameNumber : place.number = otherPlace.number) : name = other := by
  -- the receiver is below the parameters, and these are below the locals
  rcases standard with ⟨rfl, -, rfl, rfl⟩ | last | first
  · rcases otherStandard with ⟨-, -, rfl, -⟩ | otherLast | otherFirst
    · rfl
    · have bound := otherLast.number_lt.1
      simp [← sameNumber, receiverSlots] at bound
    · have bound := otherFirst.number_lt.1
      simp [← sameNumber, headSize, receiverSlots] at bound
  · rcases otherStandard with ⟨rfl, -, rfl, rfl⟩ | otherLast | otherFirst
    · have bound := last.number_lt.1
      simp [sameNumber, receiverSlots] at bound
    · exact last.name_eq otherLast sameNumber
    · have below : place.number < headSize isStatic params := last.number_lt.2
      have above := otherFirst.number_lt.1
      omega
  · rcases otherStandard with ⟨rfl, -, rfl, rfl⟩ | otherLast | otherFirst
    · have bound := first.number_lt.1
      simp [sameNumber, headSize, receiverSlots] at bound
    · have below : otherPlace.number < headSize isStatic params := otherLast.number_lt.2
      have above := first.number_lt.1
      omega
    · exact first.name_eq otherFirst sameNumber

/-- The slots of a frame are below its size, even where they wrap around. -/
theorem coveredBy_layout : (layout isStatic params locals).CoveredBy (frameSize isStatic params locals) := by
  intro name binding bound
  rcases get?_layout.1 bound with ⟨place, standard, rfl⟩
  calc (place.binding.slot : Nat)
    _ = place.number % 65536 := UInt16.toNat_ofNat'
    _ ≤ place.number := Nat.mod_le _ _
    _ < frameSize isStatic params locals := standard.number_lt

end Layout

theorem coveredBy_congr {left right : FrameTable} (agree : left.Agrees right) {count : Nat} :
    left.CoveredBy count ↔ right.CoveredBy count := by
  simp only [CoveredBy, agree _]

/-- The parameter frame of a method is its number of places, while a slot can count them. -/
theorem paramSlots_eq_headSize {method : Method} (fits : headSize method.isStatic method.params ≤ 65535) :
    (method.paramSlots : Nat) = headSize method.isStatic method.params := by
  have counted : method.paramSlots = (headSize method.isStatic method.params : Slot) := by
    rw [Method.paramSlots, headSize, UInt16.ofNat_add, UInt16.add_comm]
  rw [counted]
  exact UInt16.toNat_ofNat_of_lt' (Nat.lt_succ_of_le fits)

/-- A method over the standard frame needs a slot for each place, while a slot can count them. -/
theorem localsLimit_of_agrees {method : Method} {locals : List Variable}
    (agree : method.table.Agrees (layout method.isStatic method.params locals))
    (fits : frameSize method.isStatic method.params locals ≤ 65535) :
    (method.localsLimit : Nat) = frameSize method.isStatic method.params locals := by
  have covered : method.table.CoveredBy 65535 :=
    ((coveredBy_congr agree).2 coveredBy_layout).mono fits
  have headFits : headSize method.isStatic method.params ≤ 65535 :=
    Nat.le_trans (Nat.le_add_right _ _) fits
  apply eq_of_forall_ge_iff
  intro count
  rw [Method.localsLimit, UInt16.toNat_max, paramSlots_eq_headSize headFits, Nat.max_le,
    slotCount_le_iff covered, coveredBy_congr agree, layout_eq_bindLocals,
    coveredBy_bindLocals (fun _ => mem_names_layout_nil) (Nat.le_succ_of_le fits), frameSize]
  constructor
  · rintro ⟨⟨-, enough⟩, headed⟩
    omega
  · intro enough
    have headed : headSize method.isStatic method.params ≤ count :=
      Nat.le_trans (Nat.le_add_right _ _) enough
    have headCovered : (layout method.isStatic method.params []).CoveredBy count :=
      coveredBy_layout.mono (by rwa [frameSize_nil])
    exact ⟨⟨headCovered, .inr enough⟩, headed⟩

/-- The last slot of all is bound by a frame that has a place for it, if no later parameter can
rebind the name. -/
theorem slotCount_of_overflow {isStatic : Bool} {params : List Variable} {table : FrameTable}
    (agree : table.Agrees (layout isStatic params [])) (overflows : 65536 ≤ headSize isStatic params)
    (keeps : headSize isStatic params = 65536 ∨ (params.map Variable.name).Nodup) :
    table.slotCount = 0 := by
  obtain ⟨index, numbered⟩ : ∃ index, receiverSlots isStatic + index = 65535 :=
    Nat.le.dest (by cases isStatic <;> decide)
  rw [headSize] at overflows keeps
  have inside : index < params.length := by omega
  have isLast : params[index].name ∉ (params.drop (index + 1)).map Variable.name := by
    rcases keeps with isFull | distinct
    · rw [List.drop_of_length_le (by omega)]
      exact List.not_mem_nil
    · rw [← List.take_append_drop index params, List.drop_eq_getElem_cons inside, List.map_append,
        List.map_cons] at distinct
      exact (List.nodup_cons.1 (List.nodup_append.1 distinct).2.1).1
  have last := lastPlace_of_getElem? (receiverSlots isStatic) (List.getElem?_eq_getElem inside) isLast
  rw [numbered] at last
  exact slotCount_eq_zero ((agree _).trans (get?_layout_nil.2 (.inl ⟨_, last, rfl⟩))) rfl

/-- Over its standard frame without locals, a method needs no more than its parameter frame, as long
as there are slots enough or no parameters share a name. -/
theorem localsLimit_eq_paramSlots {method : Method}
    (agree : method.table.Agrees (layout method.isStatic method.params []))
    (keeps : headSize method.isStatic method.params ≤ 65536 ∨
      (method.params.map Variable.name).Nodup) :
    method.localsLimit = method.paramSlots := by
  rw [← UInt16.toNat_inj]
  by_cases fits : headSize method.isStatic method.params ≤ 65535
  · have frameFits : frameSize method.isStatic method.params [] ≤ 65535 := by rwa [frameSize_nil]
    rw [localsLimit_of_agrees agree frameFits, frameSize_nil, paramSlots_eq_headSize fits]
  · have overflows := Nat.lt_of_not_le fits
    have startsOver := slotCount_of_overflow agree overflows
      (keeps.imp_left fun enough => Nat.le_antisymm enough overflows)
    rw [Method.localsLimit, UInt16.toNat_max, startsOver]
    exact Nat.zero_max _

/-- The frame binds every name of its variables, each once. -/
theorem size_layout (isStatic : Bool) (params locals : List Variable) :
    (layout isStatic params locals).size =
      (headNames isStatic params ∪ (locals.map Variable.name).toFinset).card := by
  have sameNames : (layout isStatic params locals).names.toFinset =
      headNames isStatic params ∪ (locals.map Variable.name).toFinset := by
    ext name
    rw [List.mem_toFinset, Finset.mem_union, List.mem_toFinset, mem_names_layout]
  rw [← sameNames, names, List.toFinset_card_of_nodup (layout isStatic params locals).names_nodup,
    List.length_map, size]

/-- The table is the standard frame of a method with the parameters and the locals. It binds the
names that have a place in the frame, and no other. Slots are the numbers of places and tell names
apart while there are enough of them, and the locals limit is exact while a slot can count them. -/
structure IsStandardFrame (table : FrameTable) (isStatic : Bool) (params locals : List Variable) :
    Prop where
  binds : ∀ name binding, table.get? name = some binding ↔
    ∃ place, StandardPlace isStatic params locals name place ∧ binding = place.binding
  numbers : frameSize isStatic params locals ≤ 65536 → ∀ name place,
    StandardPlace isStatic params locals name place → (place.binding.slot : Nat) = place.number
  separates : frameSize isStatic params locals ≤ 65536 → ∀ name other binding otherBinding,
    table.get? name = some binding → table.get? other = some otherBinding →
    binding.slot = otherBinding.slot → name = other
  size : table.size = (headNames isStatic params ∪ (locals.map Variable.name).toFinset).card
  limit : frameSize isStatic params locals ≤ 65535 → ∀ method : Method,
    method.table.Agrees table → method.isStatic = isStatic → method.params = params →
    (method.paramSlots : Nat) = headSize isStatic params ∧
      (method.localsLimit : Nat) =
        method.paramSlots + (newNames (headNames isStatic params) locals).card

theorem layout_isStandardFrame (isStatic : Bool) (params locals : List Variable) :
    (layout isStatic params locals).IsStandardFrame isStatic params locals where
  binds _ _ := get?_layout
  numbers fits _ _ standard := standard.slot_eq fits
  separates fits name other binding otherBinding bound otherBound sameSlot := by
    rcases get?_layout.1 bound with ⟨place, standard, rfl⟩
    rcases get?_layout.1 otherBound with ⟨otherPlace, otherStandard, rfl⟩
    apply standard.name_eq otherStandard
    rw [← standard.slot_eq fits, ← otherStandard.slot_eq fits, sameSlot]
  size := size_layout isStatic params locals
  limit fits method agree sameStatic sameParams := by
    subst sameStatic sameParams
    have headed := paramSlots_eq_headSize (Nat.le_trans (Nat.le_add_right _ _) fits)
    rw [headed]
    exact ⟨rfl, localsLimit_of_agrees agree fits⟩

-- a parameter named like the receiver, a repeated parameter, and locals that are taken or repeated
example :
    let table := layout false [⟨"a", .int⟩, ⟨"this", .string⟩, ⟨"a", .boolean⟩]
      [⟨"b", .int⟩, ⟨"a", .int⟩, ⟨"b", .string⟩, ⟨"c", .int⟩]
    ["this", "a", "b", "c", "d"].map table.get? =
      [some ⟨2, .string⟩, some ⟨3, .boolean⟩, some ⟨4, .int⟩, some ⟨5, .int⟩, none] := by
  decide

end Stackwright.FrameTable
