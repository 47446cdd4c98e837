import Stackwright.Proofs.Generation.Derivation
import Stackwright.Proofs.Machine.Depth

/-!
Contract: the stack effects that generated code records.

Owns:
- the call that an instruction makes, and the conditions under which its descriptor can be
  read back and its arguments counted;
- what holds of all instructions of a statement's code, from what holds of the call it makes;
- each instruction of generated code records its stack effect as it is read off its text.

The effect of a call is recorded in 32-bit words, so a call may not have more arguments than
these count.
-/

namespace Stackwright

/-- The call that an instruction makes, by itself or for the value that it assigns. -/
def Instr.call? : Instr → Option Call
  | .assign _ source => source.call?
  | .call invocation => some invocation
  | .single _ | .binary _ _ _ _ | .ret _ _ | .putField _ _ | .getField _ => none

/-- The types that the descriptor of a call is made of. -/
def Call.tys (call : Call) : List Ty :=
  call.result :: call.args.map Operand.ty

/-- The descriptor of a call can be read back, and its arguments can be counted. -/
structure Call.Readable (call : Call) : Prop where
  plain : ∀ ty ∈ call.tys, ty.Plain
  small : call.args.length < 0x80000000

namespace Scope

variable {scope : Scope}

/-! ### The instructions that code consists of -/

theorem Loads.isPlain {operand : Operand} {load : MachineInstr} (loads : scope.Loads operand load) :
    load.IsPlain := by
  cases loads with
  | literal | receiver | «variable» => trivial

theorem LoadsAll.isPlain {operands : List Operand} {loads : List MachineInstr}
    (loadsAll : scope.LoadsAll operands loads) : ∀ load ∈ loads, load.IsPlain := by
  induction loadsAll with
  | nil => exact List.forall_mem_nil _
  | cons loadsFirst loadsRest inductionHypothesis =>
    exact List.forall_mem_cons.2 ⟨loadsFirst.isPlain, inductionHypothesis⟩

section

variable {good : MachineInstr → Prop} (plain : ∀ machineInstr, machineInstr.IsPlain → good machineInstr)

include plain

/-- What holds of plain instructions and of a call itself holds of the code of the call. -/
theorem Calls.forall_mem {call : Call} {code : List MachineInstr} (calls : scope.Calls call code)
    (invokes : ∀ owner name descriptor, call.kind ≠ .allocate → scope.callDescriptor call = .ok descriptor →
      good (.invoke (call.invocation owner name descriptor))) :
    ∀ machineInstr ∈ code, good machineInstr := by
  cases calls with
  | allocate kind =>
    rw [List.forall_mem_cons, List.forall_mem_singleton]
    exact ⟨plain _ trivial, plain _ trivial⟩
  | special kind described loadsArgs =>
    rw [List.forall_mem_append, List.forall_mem_singleton]
    exact ⟨fun load member => plain load (loadsArgs.isPlain load member),
      invokes _ _ _ (by simp [kind]) described⟩
  | virtual kind owned named described loadsTarget loadsArgs =>
    rw [List.forall_mem_cons, List.forall_mem_append, List.forall_mem_singleton]
    exact ⟨plain _ loadsTarget.isPlain, fun load member => plain load (loadsArgs.isPlain load member),
      invokes _ _ _ (by simp [kind]) described⟩
  | static kind owned named described loadsArgs =>
    rw [List.forall_mem_append, List.forall_mem_singleton]
    exact ⟨fun load member => plain load (loadsArgs.isPlain load member),
      invokes _ _ _ (by simp [kind]) described⟩

theorem Yields.forall_mem {instr : Instr} {code : List MachineInstr} (yields : scope.Yields instr code)
    (invokes : ∀ call owner name descriptor, instr.call? = some call → call.kind ≠ .allocate →
      scope.callDescriptor call = .ok descriptor → good (.invoke (call.invocation owner name descriptor))) :
    ∀ machineInstr ∈ code, good machineInstr := by
  cases yields with
  | single loads => exact List.forall_mem_singleton.2 (plain _ loads.isPlain)
  | @binary operator left right ty leftLoad rightLoad instr computes loadsLeft loadsRight =>
    simp only [List.forall_mem_cons]
    refine ⟨plain _ loadsLeft.isPlain, plain _ loadsRight.isPlain, plain _ ?_, List.forall_mem_nil _⟩
    cases operator with
    | less => cases computes
    | add | sub | mul | div | and =>
      cases computes
      trivial
  | call leaves calls =>
    exact calls.forall_mem plain fun owner name descriptor => invokes _ owner name descriptor rfl
  | getField loadsObject owned denotes =>
    rw [List.forall_mem_cons, List.forall_mem_singleton]
    exact ⟨plain _ loadsObject.isPlain, plain _ trivial⟩

/-- What holds of plain instructions, of the calls that a statement makes, and of returns if it
is one, holds of all its code. -/
theorem Emits.forall_mem {instr : Instr} {code : List MachineInstr} (emits : scope.Emits instr code)
    (returns : instr.form = .ret → ∀ machineInstr, machineInstr.IsReturn → good machineInstr)
    (invokes : ∀ call owner name descriptor, instr.call? = some call → call.kind ≠ .allocate →
      scope.callDescriptor call = .ok descriptor → good (.invoke (call.invocation owner name descriptor))) :
    ∀ machineInstr ∈ code, good machineInstr := by
  cases emits with
  | @assign name ty source code slot kind yields bound notReceiver hasKind =>
    rw [List.forall_mem_append, List.forall_mem_singleton]
    exact ⟨yields.forall_mem plain invokes, plain _ trivial⟩
  | single loads => exact List.forall_mem_singleton.2 (plain _ loads.isPlain)
  | retVoid => exact List.forall_mem_singleton.2 (returns rfl _ trivial)
  | ret hasKind loads =>
    rw [List.forall_mem_cons, List.forall_mem_singleton]
    exact ⟨plain _ loads.isPlain, returns rfl _ trivial⟩
  | call notAllocate calls =>
    rw [List.forall_mem_append]
    refine ⟨calls.forall_mem plain fun owner name descriptor => invokes _ owner name descriptor rfl, ?_⟩
    split
    · exact List.forall_mem_nil _
    · exact List.forall_mem_singleton.2 (plain _ trivial)
  | putField owned denotes loadsObject loadsValue =>
    simp only [List.forall_mem_cons]
    exact ⟨plain _ loadsObject.isPlain, plain _ loadsValue.isPlain, plain _ trivial,
      List.forall_mem_nil _⟩

end

/-! ### The effects that are recorded -/

section

variable (plainClass : ';' ∉ scope.className.toList)

include plainClass

/-- A call takes what its descriptor says, and its receiver unless it is static. -/
theorem recordsUse_of_described {call : Call} {owner name descriptor : String}
    (readable : call.Readable) (described : scope.callDescriptor call = .ok descriptor)
    (makesCall : call.kind ≠ .allocate) :
    (MachineInstr.invoke (call.invocation owner name descriptor)).RecordsUse := by
  have plainArgs : ∀ ty ∈ call.args.map (fun arg => arg.ty.resolve scope.className), ty.Plain := by
    intro ty member
    rcases List.mem_map.1 member with ⟨arg, isArg, rfl⟩
    exact (readable.plain arg.ty (List.mem_cons_of_mem _ (List.mem_map_of_mem isArg))).resolve plainClass
  have plainResult := (readable.plain call.result List.mem_cons_self).resolve plainClass
  have read := readSignature?_signatureDescriptor (by decide) (mapError_eq_ok_iff.1 described)
    plainArgs plainResult
  refine ⟨call.args.length + (if call.kind = .static then 0 else 1),
    if call.result = .void then 0 else 1, ?_, ?_⟩
  · simp [MachineInstr.stackUse?, Call.invocation, read]
  · have effect := Invocation.stackEffect_of_small
      (show (call.invocation owner name descriptor).argCount < 0x80000000 from readable.small)
    refine effect.trans ?_
    -- Exactly the calls that are not static take a receiver, allocations apart.
    by_cases void : call.result = .void <;> cases dispatch : call.kind with
    | allocate => exact absurd dispatch makesCall
    | special | virtual | static => simp [Call.invocation, CallKind.hasReceiver, void, dispatch]

/-- A statement records its effect: of its instructions only the call that it makes could do
otherwise. -/
theorem Emits.recordsUse {instr : Instr} {code : List MachineInstr}
    (readable : ∀ call, instr.call? = some call → call.Readable) (emits : scope.Emits instr code) :
    ∀ machineInstr ∈ code, machineInstr.RecordsUse := by
  refine Emits.forall_mem ?_ emits ?_ ?_
  · intro machineInstr isPlain
    exact MachineInstr.recordsUse_of_notInvoke fun _ isInvoke => by cases isInvoke; exact isPlain
  · intro _ machineInstr isReturn
    exact MachineInstr.recordsUse_of_notInvoke fun _ isInvoke => by cases isInvoke; exact isReturn
  · intro call owner name descriptor made makesCall described
    exact recordsUse_of_described plainClass (readable call made) described makesCall

theorem EmitsAll.recordsUse {instrs : List Instr} {code : List MachineInstr}
    (emitsAll : scope.EmitsAll instrs code)
    (readable : ∀ call ∈ instrs.filterMap Instr.call?, call.Readable) :
    ∀ machineInstr ∈ code, machineInstr.RecordsUse := by
  induction emitsAll with
  | nil => exact List.forall_mem_nil _
  | @cons instr rest code restCode emits emitsRest inductionHypothesis =>
    rw [List.forall_mem_append]
    constructor
    · apply emits.recordsUse plainClass
      intro call made
      exact readable call (List.mem_filterMap.2 ⟨instr, List.mem_cons_self, made⟩)
    · apply inductionHypothesis
      intro call member
      rcases List.mem_filterMap.1 member with ⟨later, isLater, made⟩
      exact readable call (List.mem_filterMap.2 ⟨later, List.mem_cons_of_mem instr isLater, made⟩)

end

end Scope

/-- The code of a method records its stack effects, the return that is left out included. -/
theorem Method.recordsUse_of_code {method : Method} {className : String} {code : List MachineInstr}
    (plainClass : ';' ∉ className.toList)
    (readable : ∀ call ∈ method.instrs.filterMap Instr.call?, call.Readable)
    (generated : method.code className = .ok code) : ∀ instr ∈ code, instr.RecordsUse := by
  rcases Method.emitsAll_of_code generated with ⟨bodyCode, emitsAll, rfl⟩
  rw [List.forall_mem_append]
  refine ⟨Scope.EmitsAll.recordsUse plainClass emitsAll readable, ?_⟩
  unfold Method.impliedReturn
  split
  · exact List.forall_mem_singleton.2 (MachineInstr.recordsUse_of_notInvoke nofun)
  · exact List.forall_mem_nil _

end Stackwright
