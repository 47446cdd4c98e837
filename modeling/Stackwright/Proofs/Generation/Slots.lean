import Mathlib.Order.Bounds.Defs
import Stackwright.Proofs.Frame.Layout
import Stackwright.Proofs.Generation.Derivation

/-!
Contract: the local slots that generated code names.

Owns:
- the slot that an instruction names, and where it comes from: the table, or the receiver;
- methods whose slots can be counted in a slot;
- the locals limit of such a method is the least that covers its table and its parameters;
- its code stays below that limit, unless the method has no frame at all and still evaluates
  its receiver.

The receiver is loaded from slot zero without a look-up, so it is the one access that the
table does not answer for.
-/

namespace Stackwright

/-- The local slot that an instruction names. -/
def MachineInstr.slot? : MachineInstr → Option Slot
  | .load _ slot | .store _ slot => some slot
  | .ldc _ | .iadd | .isub | .imul | .idiv | .iand | .new _ | .dup | .pop | .invoke _ | .getField _
  | .putField _ | .retVoid | .ret _ => none

/-! ### Where slots come from -/

namespace Scope

variable {scope : Scope} {operands : List Operand}

/-- If the instruction names a slot, then that of a variable in the table, unless it loads the
receiver for one of the operands. -/
def SlotFrom (scope : Scope) (operands : List Operand) (instr : MachineInstr) : Prop :=
  ∀ slot, instr.slot? = some slot →
    (∃ name, scope.table.slot? name = some slot) ∨
      instr = .load .reference 0 ∧ ∃ operand ∈ operands, operand.IsReceiver

theorem slotFrom_of_slotless {instr : MachineInstr} (slotless : instr.slot? = none) :
    scope.SlotFrom operands instr := by
  intro slot named
  rw [slotless] at named
  cases named

theorem slotFrom_of_store {name : String} {kind : Kind} {slot : Slot}
    (bound : scope.table.slot? name = some slot) : scope.SlotFrom operands (.store kind slot) := by
  rintro _ ⟨⟩
  exact .inl ⟨name, bound⟩

theorem Loads.slotFrom {operand : Operand} {load : MachineInstr} (loads : scope.Loads operand load)
    (member : operand ∈ operands) : scope.SlotFrom operands load := by
  intro slot named
  cases loads with
  | literal => cases named
  | receiver isReceiver => exact .inr ⟨rfl, operand, member, isReceiver⟩
  | «variable» notReceiver bound hasKind =>
    cases named
    exact .inl ⟨_, bound⟩

theorem LoadsAll.slotFrom {args : List Operand} {loads : List MachineInstr}
    (loadsAll : scope.LoadsAll args loads) (among : ∀ arg ∈ args, arg ∈ operands) :
    ∀ load ∈ loads, scope.SlotFrom operands load := by
  induction loadsAll with
  | nil => exact List.forall_mem_nil _
  | cons loadsFirst loadsRest inductionHypothesis =>
    rw [List.forall_mem_cons] at among ⊢
    exact ⟨loadsFirst.slotFrom among.1, inductionHypothesis among.2⟩

theorem Calls.slotFrom {call : Call} {code : List MachineInstr} (calls : scope.Calls call code) :
    ∀ instr ∈ code, scope.SlotFrom (Instr.call call).operands instr := by
  have areOperands : ∀ arg ∈ call.args, arg ∈ (Instr.call call).operands :=
    fun _ => Instr.mem_operands_of_mem_args
  have invokes (invocation : Invocation) : scope.SlotFrom (Instr.call call).operands (.invoke invocation) :=
    slotFrom_of_slotless rfl
  cases calls with
  | allocate kind =>
    rw [List.forall_mem_cons, List.forall_mem_singleton]
    exact ⟨slotFrom_of_slotless rfl, slotFrom_of_slotless rfl⟩
  | special kind described loadsArgs =>
    rw [List.forall_mem_append, List.forall_mem_singleton]
    exact ⟨loadsArgs.slotFrom areOperands, invokes _⟩
  | virtual kind owned named described loadsTarget loadsArgs =>
    have isOperand : call.target ∈ (Instr.call call).operands := by
      rw [Instr.operands, if_pos kind]
      exact List.mem_cons_self
    rw [List.forall_mem_cons, List.forall_mem_append, List.forall_mem_singleton]
    exact ⟨loadsTarget.slotFrom isOperand, loadsArgs.slotFrom areOperands, invokes _⟩
  | static kind owned named described loadsArgs =>
    rw [List.forall_mem_append, List.forall_mem_singleton]
    exact ⟨loadsArgs.slotFrom areOperands, invokes _⟩

theorem Yields.slotFrom {source : Instr} {code : List MachineInstr} (yields : scope.Yields source code) :
    ∀ instr ∈ code, scope.SlotFrom source.operands instr := by
  cases yields with
  | single loads => exact List.forall_mem_singleton.2 (loads.slotFrom List.mem_cons_self)
  | @binary operator left right ty leftLoad rightLoad instr computes loadsLeft loadsRight =>
    have slotless : instr.slot? = none := by
      cases operator with
      | less => cases computes
      | add | sub | mul | div | and =>
        cases computes
        rfl
    simp only [List.forall_mem_cons]
    exact ⟨loadsLeft.slotFrom List.mem_cons_self,
      loadsRight.slotFrom (List.mem_cons_of_mem left List.mem_cons_self),
      slotFrom_of_slotless slotless, List.forall_mem_nil _⟩
  | call leaves calls => exact calls.slotFrom
  | getField loadsObject owned denotes =>
    rw [List.forall_mem_cons, List.forall_mem_singleton]
    exact ⟨loadsObject.slotFrom List.mem_cons_self, slotFrom_of_slotless rfl⟩

/-- Every slot in the code of a statement is that of a variable, or of the receiver if the
statement evaluates it. -/
theorem Emits.slotFrom {source : Instr} {code : List MachineInstr} (emits : scope.Emits source code) :
    ∀ instr ∈ code, scope.SlotFrom source.operands instr := by
  cases emits with
  | assign yields bound notReceiver hasKind =>
    rw [List.forall_mem_append, List.forall_mem_singleton]
    exact ⟨yields.slotFrom, slotFrom_of_store bound⟩
  | single loads => exact List.forall_mem_singleton.2 (loads.slotFrom List.mem_cons_self)
  | retVoid => exact List.forall_mem_singleton.2 (slotFrom_of_slotless rfl)
  | @ret ty kind value load hasKind loads =>
    have notVoid : ty ≠ .void := by
      rintro rfl
      cases hasKind
    have isOperand : value ∈ (Instr.ret ty (some value)).operands := by
      rw [Instr.operands, if_neg notVoid]
      exact List.mem_cons_self
    rw [List.forall_mem_cons, List.forall_mem_singleton]
    exact ⟨loads.slotFrom isOperand, slotFrom_of_slotless rfl⟩
  | call notAllocate calls =>
    rw [List.forall_mem_append]
    refine ⟨calls.slotFrom, ?_⟩
    split
    · exact List.forall_mem_nil _
    · exact List.forall_mem_singleton.2 (slotFrom_of_slotless rfl)
  | @putField place value owner field objectLoad valueLoad owned denotes loadsObject loadsValue =>
    simp only [List.forall_mem_cons]
    exact ⟨loadsObject.slotFrom List.mem_cons_self,
      loadsValue.slotFrom (List.mem_cons_of_mem place.object List.mem_cons_self),
      slotFrom_of_slotless rfl, List.forall_mem_nil _⟩

end Scope

/-! ### The locals limit -/

namespace Method

/-- The last slot of all is free in the table, and a slot can count the receiver and the
parameters. -/
structure FitsWords (method : Method) : Prop where
  slots : ∀ name binding, method.table.get? name = some binding → (binding.slot : Nat) ≤ 65534
  frame : FrameTable.headSize method.isStatic method.params ≤ 65535

theorem FitsWords.coveredBy {method : Method} (fits : method.FitsWords) :
    method.table.CoveredBy 65535 :=
  fun name binding bound => Nat.lt_succ_of_le (fits.slots name binding bound)

/-- Nothing in the method has a slot: it is static, takes nothing and binds nothing. -/
structure Frameless (method : Method) : Prop where
  isStatic : method.isStatic = true
  noParams : method.params = []
  bindsNothing : ∀ name, method.table.get? name = none

/-- The instruction loads a receiver that the method does not have: it belongs to the code of a
statement that evaluates the receiver, in a method without any slot. -/
structure LoadsMissingReceiver (method : Method) (className : String) (instr : MachineInstr) : Prop where
  frameless : method.Frameless
  isLoad : instr = .load .reference 0
  evaluated : ∃ source ∈ method.instrs, ∃ part,
    (method.scope className).statementCode source = .ok part ∧ instr ∈ part ∧
      ∃ operand ∈ source.operands, operand.IsReceiver

/-- The locals limit is the least that covers the table and the parameter frame. -/
theorem FitsWords.isLeast_localsLimit {method : Method} (fits : method.FitsWords) :
    IsLeast {count | method.table.CoveredBy count ∧
      FrameTable.headSize method.isStatic method.params ≤ count} (method.localsLimit : Nat) := by
  rw [localsLimit, UInt16.toNat_max, FrameTable.paramSlots_eq_headSize fits.frame]
  have leastCover (count : Nat) : (method.table.slotCount : Nat) ≤ count ↔ method.table.CoveredBy count :=
    FrameTable.slotCount_le_iff fits.coveredBy
  constructor
  · exact ⟨(leastCover _).1 (Nat.le_max_left _ _), Nat.le_max_right _ _⟩
  · rintro count ⟨covered, framed⟩
    exact Nat.max_le.2 ⟨(leastCover count).2 covered, framed⟩

/-- Only a method without any slot needs none. -/
theorem FitsWords.frameless {method : Method} (fits : method.FitsWords)
    (needsNone : (method.localsLimit : Nat) = 0) : method.Frameless := by
  obtain ⟨covered, framed⟩ := fits.isLeast_localsLimit.1
  rw [needsNone] at covered framed
  have noFrame : method.params.length = 0 ∧ FrameTable.receiverSlots method.isStatic = 0 := by
    unfold FrameTable.headSize at framed
    omega
  constructor
  · cases isStatic : method.isStatic with
    | true => rfl
    | false =>
      rw [isStatic] at noFrame
      cases noFrame.2
  · exact List.length_eq_zero_iff.1 noFrame.1
  · intro name
    cases bound : method.table.get? name with
    | none => rfl
    | some binding => exact absurd (covered name binding bound) (Nat.not_lt_zero _)

/-- Generated code stays below the locals limit. The one slot that can be missing is that of the
receiver, in a method without any slot. -/
theorem FitsWords.slot_lt {method : Method} {className : String} {code : List MachineInstr}
    (fits : method.FitsWords) (generated : method.code className = .ok code) {instr : MachineInstr} (member : instr ∈ code)
    {slot : Slot} (named : instr.slot? = some slot) :
    (slot : Nat) < method.localsLimit ∨
      (method.localsLimit : Nat) = 0 ∧ method.LoadsMissingReceiver className instr := by
  rcases exists_part_of_mem_code generated member with
    ⟨source, isSource, part, partGenerated, inside⟩ | rfl
  · rcases (Scope.emits_of_statementCode partGenerated).slotFrom instr inside slot named with
      ⟨name, bound⟩ | ⟨isLoad, evaluatesReceiver⟩
    · rcases Option.map_eq_some_iff.1 bound with ⟨binding, found, rfl⟩
      exact .inl (fits.isLeast_localsLimit.1.1 name binding found)
    · rcases Nat.eq_zero_or_pos method.localsLimit with needsNone | needsSome
      · exact .inr ⟨needsNone, fits.frameless needsNone, isLoad,
          source, isSource, part, partGenerated, inside, evaluatesReceiver⟩
      · subst isLoad
        cases named
        exact .inl needsSome
  · cases named

end Method

end Stackwright
