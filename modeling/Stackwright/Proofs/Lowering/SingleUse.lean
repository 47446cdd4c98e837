import Stackwright.Proofs.Lowering.Draws
import Stackwright.Proofs.Lowering.Footprint
import Stackwright.Proofs.Tree.Imports

/-!
Contract: temporaries in lowered instructions.

Owns:
- the operands that occur in instructions, classes that static calls address included;
- names that are assigned once and then used at most once;
- in a lowered body every drawn name is such a name, and no variable of the body has it.

The argument is about a set of names that the trees do not contain. What is counted of such a
name is the draws of it on one side, and its assignments and its occurrences on the other; an
operand that was computed but is not used yet is counted as held.
-/

namespace Stackwright

/-! ### Occurrences -/

/-- The name of an operand that is a variable, whatever its type. -/
def Operand.name? : Operand → Option String
  | .variable name _ => some name
  | .literal _ _ | .receiver => none

/-- The operands that occur in an instruction, the target of an assignment apart. -/
def Instr.mentions : Instr → List Operand
  | .assign _ source => source.mentions
  | .single operand => [operand]
  | .binary _ left right _ => [left, right]
  | .ret _ value? => value?.toList
  | .call invocation => invocation.target :: invocation.args
  | .putField place value => [place.object, value]
  | .getField place => [place.object]

def Instr.mentionedNames (instr : Instr) : List String :=
  instr.mentions.filterMap Operand.name?

/-- The names of the operands that occur in instructions. -/
def mentionedNames (instrs : List Instr) : List String :=
  instrs.flatMap Instr.mentionedNames

@[simp] theorem mentionedNames_append (first second : List Instr) :
    mentionedNames (first ++ second) = mentionedNames first ++ mentionedNames second :=
  List.flatMap_append

/-- A name is assigned by exactly one of the instructions, and is an operand at most once, in
an instruction that follows. -/
structure AssignedThenUsed (instrs : List Instr) (name : String) : Prop where
  assignedOnce : (assignedNames instrs).count name = 1
  usedAtMostOnce : (mentionedNames instrs).count name ≤ 1
  usedAfter : ∀ index instr, instrs[index]? = some instr → name ∈ instr.mentionedNames →
    name ∈ assignedNames (instrs.take index)

/-! ### Counting -/

/-- Of the fresh names, the instructions assign those that were drawn, as often as they were
drawn; each draw is used at most once, by a later instruction or by an operand that is held. -/
structure UsesDrawn (fresh : String → Prop) (drawn : List String) (held : List Operand)
    (instrs : List Instr) : Prop where
  assigned : ∀ name, fresh name → (assignedNames instrs).count name = drawn.count name
  used : ∀ name, fresh name →
    (mentionedNames instrs).count name + (held.filterMap Operand.name?).count name ≤ drawn.count name
  usedAfter : ∀ index instr, instrs[index]? = some instr → ∀ name ∈ instr.mentionedNames,
    fresh name → name ∈ assignedNames (instrs.take index)
  heldAssigned : ∀ name ∈ held.filterMap Operand.name?, fresh name → name ∈ assignedNames instrs

namespace UsesDrawn

variable {fresh : String → Prop} {drawn : List String} {held : List Operand} {instrs : List Instr}

/-- An operand without a fresh name needs no draw. -/
theorem none (notFresh : ∀ name ∈ held.filterMap Operand.name?, ¬fresh name) :
    UsesDrawn fresh [] held [] where
  assigned := fun _ _ => rfl
  used name isFresh := by
    have notHeld : name ∉ held.filterMap Operand.name? := fun member => notFresh name member isFresh
    rw [List.count_eq_zero_of_not_mem notHeld]
    exact Nat.le_refl 0
  usedAfter := nofun
  heldAssigned name member isFresh := absurd isFresh (notFresh name member)

theorem append {otherDrawn : List String} {otherHeld : List Operand} {otherInstrs : List Instr}
    (first : UsesDrawn fresh drawn held instrs)
    (second : UsesDrawn fresh otherDrawn otherHeld otherInstrs) :
    UsesDrawn fresh (drawn ++ otherDrawn) (held ++ otherHeld) (instrs ++ otherInstrs) where
  assigned name isFresh := by
    rw [assignedNames_append, List.count_append, List.count_append, first.assigned name isFresh,
      second.assigned name isFresh]
  used name isFresh := by
    have usedFirst := first.used name isFresh
    have usedSecond := second.used name isFresh
    rw [mentionedNames_append, List.filterMap_append, List.count_append, List.count_append,
      List.count_append]
    omega
  usedAfter index instr found name mentioned isFresh := by
    rw [List.take_append, assignedNames_append, List.mem_append]
    rw [List.getElem?_append] at found
    split at found
    · exact .inl (first.usedAfter index instr found name mentioned isFresh)
    · exact .inr (second.usedAfter _ instr found name mentioned isFresh)
  heldAssigned name member isFresh := by
    rw [List.filterMap_append, List.mem_append] at member
    rw [assignedNames_append, List.mem_append]
    exact member.imp (first.heldAssigned name · isFresh) (second.heldAssigned name · isFresh)

/-- An operand that is not used after all. -/
theorem drop (uses : UsesDrawn fresh drawn held instrs) : UsesDrawn fresh drawn [] instrs where
  assigned := uses.assigned
  used name isFresh := by
    have used := uses.used name isFresh
    rw [List.filterMap_nil, List.count_nil]
    omega
  usedAfter := uses.usedAfter
  heldAssigned := nofun

/-- An instruction uses the operands that are held, and what it assigns is drawn and held from
then on, or else is not fresh. -/
theorem snoc {instr : Instr} {added : List String} {kept : List Operand}
    (uses : UsesDrawn fresh drawn held instrs) (mentions : instr.mentions = held)
    (assigns : ∀ name, fresh name → instr.assigned?.toList.count name = added.count name)
    (keeps : ∀ name, (kept.filterMap Operand.name?).count name ≤ added.count name) :
    UsesDrawn fresh (drawn ++ added) kept (instrs ++ [instr]) where
  assigned name isFresh := by
    have ofInstr : assignedNames [instr] = instr.assigned?.toList := by
      cases assigned : instr.assigned? <;> simp [assignedNames, assigned]
    rw [assignedNames_append, List.count_append, List.count_append, uses.assigned name isFresh, ofInstr,
      assigns name isFresh]
  used name isFresh := by
    have used := uses.used name isFresh
    have ofInstr : mentionedNames [instr] = held.filterMap Operand.name? := by
      rw [mentionedNames, List.flatMap_singleton, Instr.mentionedNames, mentions]
    have kept := keeps name
    rw [mentionedNames_append, List.count_append, List.count_append, ofInstr]
    omega
  usedAfter index later found name mentioned isFresh := by
    rw [List.take_append, assignedNames_append, List.mem_append]
    rw [List.getElem?_append] at found
    split at found
    · exact .inl (uses.usedAfter index later found name mentioned isFresh)
    · next beyond =>
      rw [List.getElem?_singleton] at found
      split at found
      · cases found
        rw [Instr.mentionedNames, mentions] at mentioned
        rw [List.take_of_length_le (by omega)]
        exact .inl (uses.heldAssigned name mentioned isFresh)
      · cases found
  heldAssigned name member isFresh := by
    have addedOnce : 0 < added.count name :=
      Nat.lt_of_lt_of_le (List.count_pos_iff.2 member) (keeps name)
    rw [← assigns name isFresh, List.count_pos_iff, Option.mem_toList] at addedOnce
    rw [assignedNames_append, List.mem_append]
    exact .inr (List.mem_filterMap.2 ⟨instr, List.mem_singleton_self instr, addedOnce⟩)

/-- An instruction that assigns no fresh name uses the operands that are held. -/
theorem use {instr : Instr} (uses : UsesDrawn fresh drawn held instrs) (mentions : instr.mentions = held)
    (notFresh : ∀ name, instr.assigned? = some name → ¬fresh name) :
    UsesDrawn fresh drawn [] (instrs ++ [instr]) := by
  rw [← List.append_nil drawn]
  refine uses.snoc mentions (fun name isFresh => ?_) (fun _ => Nat.le_refl 0)
  apply List.count_eq_zero_of_not_mem
  rw [Option.mem_toList]
  exact fun assigned => notFresh name assigned isFresh

/-- What is computed from the operands that are held goes into the temporary drawn for it. -/
theorem compute {source : Instr} (uses : UsesDrawn fresh drawn held instrs)
    (mentions : source.mentions = held) (temp : String) (ty : Ty) :
    UsesDrawn fresh (drawn ++ [temp]) [.variable temp ty]
      (instrs ++ [.assign (.variable temp ty) source]) :=
  uses.snoc mentions (fun _ _ => rfl) (fun _ => Nat.le_refl _)

end UsesDrawn

/-! ### Lowered instructions -/

/-- The name of a temporary has no dot, so it is its own last segment. -/
theorem lastSegment_tempName (index : Nat) : lastSegment (tempName index) = tempName index := by
  apply lastSegment_of_simple
  intro member
  rw [tempName, String.toList_append, List.mem_append] at member
  rcases member with inStem | inIndex
  · revert inStem
    decide
  · have isDigit := Nat.isDigit_of_mem_toDigits (by omega) (by omega) (Nat.toList_repr ▸ inIndex)
    revert isDigit
    decide

/-- A class that a static call addresses has the name of the target, unless its path has several
segments. -/
theorem Node.mem_names_of_staticTarget {symbols : Symbols} {target : Node} {path : String}
    (named : target.staticTarget? symbols = some path) (simple : lastSegment path = path) :
    path ∈ target.names := by
  cases target with
  | varRef name ty =>
    have found : symbols.imports.find? (fun path => path = name ∨ lastSegment path = name) = some path :=
      named
    have resolves := List.find?_some found
    rw [decide_eq_true_iff, simple, or_self] at resolves
    exact List.mem_singleton.2 resolves
  | int | bool | receiver | binary | call | assign | ret | retBare | block => cases named

/-- A name that a supply may still give out: it is the name of a temporary and not reserved. -/
def IsFresh (reserved : List String) (name : String) : Prop :=
  name ∉ reserved ∧ ∃ index, name = tempName index

theorem Temps.Drew.isFresh {before after : Temps} {name : String} (drew : before.Drew after name) :
    IsFresh after.reserved name := by
  rcases drew with ⟨free, index, -, -, named⟩
  exact ⟨free, index, named⟩

variable {symbols : Symbols} {reserved : List String}

/-- A tree that is an operand as it stands uses no draw, if its names are reserved. -/
theorem UsesDrawn.leaf {held : List Operand} {names : List String}
    (areReserved : ∀ name ∈ names, name ∈ reserved)
    (ofTree : ∀ name ∈ held.filterMap Operand.name?, name ∈ names) :
    UsesDrawn (IsFresh reserved) [] held [] :=
  .none fun name member isFresh => isFresh.1 (areReserved name (ofTree name member))

mutual

/-- The instructions of a tree whose names are reserved use what is drawn for it, and leave its
operand. -/
theorem Lowers.usesDrawn {before after : Temps} {node : Node} {lowered : Lowered} :
    Lowers symbols before node lowered after → (∀ name ∈ node.names, name ∈ reserved) →
      ∃ drawn, before.Draws drawn after ∧
        UsesDrawn (IsFresh reserved) drawn lowered.value?.toList lowered.instrs
  | .int temps value, areReserved => ⟨[], .none temps, .leaf areReserved nofun⟩
  | .bool temps value, areReserved => ⟨[], .none temps, .leaf areReserved nofun⟩
  | .receiver temps, areReserved => ⟨[], .none temps, .leaf areReserved nofun⟩
  | .varRef temps name ty, areReserved => ⟨[], .none temps, .leaf areReserved fun _ member => member⟩
  | .binary operator ty lowersLeft lowersRight, areReserved => by
    rw [Node.names, List.forall_mem_append] at areReserved
    rcases lowersLeft.usesDrawn areReserved.1 with ⟨drawnLeft, drawsLeft, usesLeft⟩
    rcases lowersRight.usesDrawn areReserved.2 with ⟨drawnRight, drawsRight, usesRight⟩
    exact ⟨_, (drawsLeft.append drawsRight).append (.one _), (usesLeft.append usesRight).compute rfl _ ty⟩
  | .callVoid lowersTarget lowersArgs _, areReserved => by
    rw [Node.names, List.forall_mem_append] at areReserved
    rcases lowersTarget.usesDrawn areReserved.1 with ⟨drawnTarget, drawsTarget, usesTarget⟩
    rcases lowersArgs.usesDrawn areReserved.2 with ⟨drawnArgs, drawsArgs, usesArgs⟩
    exact ⟨_, drawsTarget.append drawsArgs, (usesTarget.append usesArgs).use rfl nofun⟩
  | .callValue lowersTarget lowersArgs _, areReserved => by
    rw [Node.names, List.forall_mem_append] at areReserved
    rcases lowersTarget.usesDrawn areReserved.1 with ⟨drawnTarget, drawsTarget, usesTarget⟩
    rcases lowersArgs.usesDrawn areReserved.2 with ⟨drawnArgs, drawsArgs, usesArgs⟩
    exact ⟨_, (drawsTarget.append drawsArgs).append (.one _),
      (usesTarget.append usesArgs).compute rfl _ (symbols.resultOf _)⟩
  | .assign name ty lowersValue, areReserved => by
    rw [Node.names, List.forall_mem_cons] at areReserved
    rcases lowersValue.usesDrawn areReserved.2 with ⟨drawn, draws, uses⟩
    refine ⟨drawn, draws, uses.use rfl fun assigned same isFresh => ?_⟩
    cases same
    exact isFresh.1 areReserved.1
  | .retVoid lowersValue, areReserved => by
    rw [Node.names] at areReserved
    rcases lowersValue.usesDrawn areReserved with ⟨drawn, draws, uses⟩
    exact ⟨drawn, draws, uses.drop.use rfl nofun⟩
  | .retValue _ lowersValue, areReserved => by
    rw [Node.names] at areReserved
    rcases lowersValue.usesDrawn areReserved with ⟨drawn, draws, uses⟩
    exact ⟨drawn, draws, uses.use rfl nofun⟩
  | .retBare temps ty, areReserved => by
    have nothingHeld : UsesDrawn (IsFresh reserved) [] [] [] := .leaf areReserved nofun
    exact ⟨[], .none temps, nothingHeld.use rfl nofun⟩
  | .block lowersChildren, areReserved => by
    rw [Node.names] at areReserved
    exact lowersChildren.usesDrawn areReserved

theorem LowersTarget.usesDrawn {before after : Temps} {target : Node} {loweredTarget : LoweredTarget} :
    LowersTarget symbols before target loweredTarget after → (∀ name ∈ target.names, name ∈ reserved) →
      ∃ drawn, before.Draws drawn after ∧
        UsesDrawn (IsFresh reserved) drawn [loweredTarget.operand] loweredTarget.instrs
  | .imported named, areReserved => by
    refine ⟨[], .none _, .none fun name member isFresh => ?_⟩
    rcases isFresh with ⟨free, index, isTemp⟩
    cases List.mem_singleton.1 member
    subst isTemp
    exact free (areReserved _ (Node.mem_names_of_staticTarget named (lastSegment_tempName index)))
  | .object _ lowers, areReserved => lowers.usesDrawn areReserved

theorem LowersArgs.usesDrawn {before after : Temps} {args : List Node} {loweredArgs : LoweredArgs} :
    LowersArgs symbols before args loweredArgs after → (∀ name ∈ Node.namesOfList args, name ∈ reserved) →
      ∃ drawn, before.Draws drawn after ∧
        UsesDrawn (IsFresh reserved) drawn loweredArgs.operands loweredArgs.instrs
  | .nil temps, areReserved => ⟨[], .none temps, .leaf areReserved nofun⟩
  | .cons lowersArg lowersRest, areReserved => by
    rw [Node.namesOfList, List.forall_mem_append] at areReserved
    rcases lowersArg.usesDrawn areReserved.1 with ⟨drawnArg, drawsArg, usesArg⟩
    rcases lowersRest.usesDrawn areReserved.2 with ⟨drawnRest, drawsRest, usesRest⟩
    exact ⟨_, drawsArg.append drawsRest, usesArg.append usesRest⟩

theorem LowersAll.usesDrawn {before after : Temps} {statements : List Node} {instrs : List Instr} :
    LowersAll symbols before statements instrs after →
      (∀ name ∈ Node.namesOfList statements, name ∈ reserved) →
      ∃ drawn, before.Draws drawn after ∧ UsesDrawn (IsFresh reserved) drawn [] instrs
  | .nil temps, areReserved => ⟨[], .none temps, .leaf areReserved nofun⟩
  | .cons lowersStatement lowersRest, areReserved => by
    rw [Node.namesOfList, List.forall_mem_append] at areReserved
    rcases lowersStatement.usesDrawn areReserved.1 with ⟨drawnFirst, drawsFirst, usesFirst⟩
    rcases lowersRest.usesDrawn areReserved.2 with ⟨drawnRest, drawsRest, usesRest⟩
    exact ⟨_, drawsFirst.append drawsRest, usesFirst.drop.append usesRest⟩

end

/-- In statements whose names are reserved, every drawn name is assigned once and then used at
most once. -/
theorem LowersAll.assignedThenUsed {before after : Temps} {statements : List Node}
    {instrs : List Instr} {drawn : List String} {name : String}
    (lowers : LowersAll symbols before statements instrs after)
    (areReserved : ∀ name ∈ Node.namesOfList statements, name ∈ before.reserved)
    (draws : before.Draws drawn after) (member : name ∈ drawn) : AssignedThenUsed instrs name := by
  rcases lowers.usesDrawn areReserved with ⟨_, others, uses⟩
  cases draws.unique others
  have isFresh : IsFresh before.reserved name := lowers.extends.reserved_eq ▸ (draws.drew member).isFresh
  have drawnOnce : drawn.count name = 1 := by rw [draws.nodup.count, if_pos member]
  constructor
  · rw [uses.assigned name isFresh, drawnOnce]
  · have used := uses.used name isFresh
    omega
  · intro index instr found mentioned
    exact uses.usedAfter index instr found name mentioned isFresh

end Stackwright
