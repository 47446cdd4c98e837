import Stackwright.Generation.Body
import Stackwright.Proofs.Ty.Encoding

/-!
Contract: exactly which instructions have machine code.

Owns, for each step of code generation, the condition under which it succeeds, and that
its failures are no matter of shape. Only the forms of instruction that trees are lowered
to are judged: for these the shape is always right.
-/

namespace Stackwright

/-- The instructions of a body one after the other, without the places of failures. -/
def Scope.parts (scope : Scope) (instrs : List Instr) : Except Fault (List (List MachineInstr)) :=
  instrs.mapM scope.statementCode

namespace Scope

variable (scope : Scope)

def Binds (name : String) : Prop :=
  (scope.table.get? name).isSome

/-- An operand can be loaded. -/
def Loadable : Operand → Prop
  | .literal _ ty => ty ≠ .void
  | .variable name ty => ty = .receiver ∨ scope.Binds name ∧ ty ≠ .void
  | .receiver => True

/-- A variable can be stored into under a type. -/
def Storable (name : String) (ty : Ty) : Prop :=
  scope.Binds name ∧ ty ≠ .void ∧ ty ≠ .receiver

instance (name : String) : Decidable (scope.Binds name) :=
  inferInstanceAs (Decidable ((scope.table.get? name).isSome = true))

instance : (operand : Operand) → Decidable (scope.Loadable operand)
  | .literal _ ty => inferInstanceAs (Decidable (ty ≠ .void))
  | .variable name ty =>
    inferInstanceAs (Decidable (ty = .receiver ∨ scope.Binds name ∧ ty ≠ .void))
  | .receiver => .isTrue trivial

instance (name : String) (ty : Ty) : Decidable (scope.Storable name ty) :=
  inferInstanceAs (Decidable (scope.Binds name ∧ ty ≠ .void ∧ ty ≠ .receiver))

theorem Loadable.ty_ne_void {scope : Scope} {operand : Operand} (loadable : scope.Loadable operand) :
    operand.ty ≠ .void := by
  intro void
  cases operand with
  | literal text ty => exact loadable void
  | receiver => cases void
  | «variable» name ty =>
    rcases loadable with isReceiver | ⟨-, notVoid⟩
    · cases isReceiver.symm.trans void
    · exact notVoid void

/-! ### Operands -/

theorem settles_slot (name : String) :
    Settles Fault.NotOfShape (scope.slot name) (scope.Binds name) := by
  unfold slot Binds
  cases scope.table.get? name with
  | none => exact ⟨by simp, nofun⟩
  | some binding => exact rfl

theorem settles_kind (ty : Ty) (instr : Kind → MachineInstr) :
    Settles Fault.NotOfShape
      (match ty.kind? with
        | some kind => pure (instr kind)
        | none => throw (.unsupportedOperand ty))
      (ty ≠ .void) := by
  cases hasKind : ty.kind? with
  | none => exact ⟨fun notVoid => notVoid (Ty.kind?_eq_none_iff.1 hasKind), nofun⟩
  | some kind => exact fun void => by simp [void, Ty.kind?] at hasKind

theorem settles_load (operand : Operand) :
    Settles Fault.NotOfShape (scope.load operand) (scope.Loadable operand) := by
  cases operand with
  | literal text ty =>
    by_cases void : ty = .void
    · rw [load, if_pos void]
      exact ⟨fun notVoid => notVoid void, nofun⟩
    · rw [load, if_neg void]
      exact void
  | receiver => exact trivial
  | «variable» name ty =>
    by_cases isReceiver : ty = .receiver
    · rw [load, if_pos isReceiver]
      exact .inl isReceiver
    · rw [load, if_neg isReceiver]
      apply Settles.congr ((scope.settles_slot name).bind fun slot _ => settles_kind ty (.load · slot))
      simp [Loadable, isReceiver]

theorem settles_store (name : String) (ty : Ty) :
    Settles Fault.NotOfShape (scope.store name ty) (scope.Storable name ty) := by
  apply (scope.settles_slot name).bind
  intro slot _
  unfold Ty.storeKind?
  by_cases isReceiver : ty = .receiver
  · rw [if_pos isReceiver]
    exact ⟨fun both => both.2 isReceiver, nofun⟩
  · rw [if_neg isReceiver]
    cases hasKind : ty.kind? with
    | none => exact ⟨fun both => both.1 (Ty.kind?_eq_none_iff.1 hasKind), nofun⟩
    | some kind =>
      exact ⟨fun void => by simp [void, Ty.kind?] at hasKind, isReceiver⟩

theorem settles_owner (operand : Operand) :
    Settles Fault.NotOfShape (scope.owner operand)
      (operand.ty.resolve scope.className).OwnsMembers :=
  (Ty.settles_internalName_resolve scope.className operand.ty).liftEncoding

theorem settles_callDescriptor (call : Call) :
    Settles Fault.NotOfShape (scope.callDescriptor call)
      ((∀ arg ∈ call.args, arg.ty.innermost ≠ .void) ∧ ¬call.result.IsVoidArray) := by
  have settles := (settles_callDescriptor_resolve scope.className (call.args.map Operand.ty)
    call.result).liftEncoding
  rw [List.map_map] at settles
  exact settles.congr (by rw [List.forall_mem_map])

/-! ### Instructions -/

theorem settles_binaryCode (operator : Operator) (left right : Operand) :
    Settles Fault.NotOfShape (scope.binaryCode operator left right)
      (operator ≠ .less ∧ scope.Loadable left ∧ scope.Loadable right) := by
  unfold binaryCode
  cases operator with
  | less => exact ⟨fun both => both.1 rfl, nofun⟩
  | add | sub | mul | div | and =>
    apply Settles.congr ((scope.settles_load left).bind fun _ _ => (scope.settles_load right).map)
    simp

/-- The instruction that a call is made by: its descriptor, then its arguments. -/
theorem settles_invokeCode (call : Call) (owner name : String) :
    Settles Fault.NotOfShape (scope.invokeCode call owner name)
      (((∀ arg ∈ call.args, arg.ty.innermost ≠ .void) ∧ ¬call.result.IsVoidArray) ∧
        ∀ arg ∈ call.args, scope.Loadable arg) :=
  (scope.settles_callDescriptor call).bind fun _ _ =>
    (Settles.mapM call.args scope.settles_load).map

/-- Everything that the code of a call asks for, where the call names its method. -/
structure Callable (call : Call) : Prop where
  owned : (call.target.ty.resolve scope.className).OwnsMembers
  target : call.kind = .virtual → scope.Loadable call.target
  args : ∀ arg ∈ call.args, scope.Loadable arg ∧ arg.ty.innermost ≠ .void
  result : ¬call.result.IsVoidArray

theorem callable_iff {call : Call} (targetLoadable : Prop)
    (sameTarget : targetLoadable ↔ (call.kind = .virtual → scope.Loadable call.target)) :
    ((call.target.ty.resolve scope.className).OwnsMembers ∧ targetLoadable ∧
      ((∀ arg ∈ call.args, arg.ty.innermost ≠ .void) ∧ ¬call.result.IsVoidArray) ∧
        ∀ arg ∈ call.args, scope.Loadable arg) ↔ scope.Callable call := by
  constructor
  · intro conditions
    obtain ⟨owned, target, ⟨encoded, result⟩, loadable⟩ := conditions
    exact ⟨owned, sameTarget.1 target, fun arg member => ⟨loadable arg member, encoded arg member⟩,
      result⟩
  · intro callable
    exact ⟨callable.owned, sameTarget.2 callable.target,
      ⟨fun arg member => (callable.args arg member).2, callable.result⟩,
      fun arg member => (callable.args arg member).1⟩

theorem settles_callCode {call : Call} {name : String} (named : call.method? = some name)
    (makesNoObject : call.kind = .virtual ∨ call.kind = .static) :
    Settles Fault.NotOfShape (scope.callCode call) (scope.Callable call) := by
  have methodNamed : call.methodName = .ok name := by rw [Call.methodName, named]
  rcases makesNoObject with kind | kind
  · apply Settles.congr _ (scope.callable_iff (scope.Loadable call.target) (by simp [kind]))
    apply (scope.settles_owner call.target).bind
    intro owner _
    simp only [kind, methodNamed]
    apply (scope.settles_load call.target).bind
    intro targetLoad _
    exact (scope.settles_invokeCode call owner name).map
  · apply Settles.congr _ (scope.callable_iff True (by simp [kind]))
    apply (scope.settles_owner call.target).bind
    intro owner _
    simp only [kind, methodNamed]
    exact (scope.settles_invokeCode call owner name).congr (by simp)

/-! ### Statements -/

theorem settles_assign {source : Instr} {accepted : Prop} (name : String) (ty : Ty)
    (settles : Settles Fault.NotOfShape (scope.valueCode source) accepted) :
    Settles Fault.NotOfShape (scope.statementCode (.assign (.variable name ty) source))
      (accepted ∧ scope.Storable name ty) :=
  settles.bind fun _ _ => (scope.settles_store name ty).map

theorem settles_assign_single (name : String) (ty : Ty) (operand : Operand) :
    Settles Fault.NotOfShape (scope.statementCode (.assign (.variable name ty) (.single operand)))
      (scope.Loadable operand ∧ scope.Storable name ty) :=
  scope.settles_assign name ty (scope.settles_load operand).map

theorem settles_assign_binary (name : String) (ty resultTy : Ty) (operator : Operator)
    (left right : Operand) :
    Settles Fault.NotOfShape
      (scope.statementCode (.assign (.variable name ty) (.binary operator left right resultTy)))
      ((operator ≠ .less ∧ scope.Loadable left ∧ scope.Loadable right) ∧ scope.Storable name ty) :=
  scope.settles_assign name ty (scope.settles_binaryCode operator left right)

theorem settles_assign_call {call : Call} {method : String} (name : String) (ty : Ty)
    (named : call.method? = some method) (makesNoObject : call.kind = .virtual ∨ call.kind = .static)
    (notVoid : call.result ≠ .void) :
    Settles Fault.NotOfShape (scope.statementCode (.assign (.variable name ty) (.call call)))
      (scope.Callable call ∧ scope.Storable name ty) := by
  apply scope.settles_assign name ty
  have leaves : call.resultType? = some call.result := by
    rcases makesNoObject with kind | kind
    · simp [Call.resultType?, kind, notVoid]
    · simp [Call.resultType?, kind, notVoid]
  rw [valueCode, leaves]
  exact scope.settles_callCode named makesNoObject

theorem settles_call {call : Call} {method : String} (named : call.method? = some method)
    (makesNoObject : call.kind = .virtual ∨ call.kind = .static) :
    Settles Fault.NotOfShape (scope.statementCode (.call call)) (scope.Callable call) := by
  have notAllocate : call.kind ≠ .allocate := by
    rcases makesNoObject with kind | kind
    · simp [kind]
    · simp [kind]
  rw [statementCode, callStatementCode, if_neg notAllocate]
  exact (scope.settles_callCode named makesNoObject).map

theorem settles_ret_void (value? : Option Operand) :
    Settles Fault.NotOfShape (scope.statementCode (.ret .void value?)) True :=
  trivial

theorem settles_ret_value {ty : Ty} (notVoid : ty ≠ .void) (value : Operand) :
    Settles Fault.NotOfShape (scope.statementCode (.ret ty (some value))) (scope.Loadable value) := by
  rw [statementCode, returnCode]
  cases hasKind : ty.kind? with
  | none => exact absurd (Ty.kind?_eq_none_iff.1 hasKind) notVoid
  | some kind => exact (scope.settles_load value).map

theorem settles_ret_bare (ty : Ty) :
    Settles Fault.NotOfShape (scope.statementCode (.ret ty none)) (ty = .void) := by
  rw [statementCode, returnCode]
  cases hasKind : ty.kind? with
  | none => exact Ty.kind?_eq_none_iff.1 hasKind
  | some kind => exact ⟨fun void => by simp [void, Ty.kind?] at hasKind, nofun⟩

/-! ### Bodies -/

theorem settles_parts_one {instr : Instr} {accepted : Prop}
    (settles : Settles Fault.NotOfShape (scope.statementCode instr) accepted) :
    Settles Fault.NotOfShape (scope.parts [instr]) accepted := by
  rw [parts, List.mapM_cons, List.mapM_nil]
  exact settles.map

/-- Code in two parts: the second is asked after the first is accepted. -/
theorem settles_parts_append {first second : List Instr} {acceptedFirst acceptedSecond : Prop}
    (settlesFirst : Settles Fault.NotOfShape (scope.parts first) acceptedFirst)
    (settlesSecond : acceptedFirst → Settles Fault.NotOfShape (scope.parts second) acceptedSecond) :
    Settles Fault.NotOfShape (scope.parts (first ++ second)) (acceptedFirst ∧ acceptedSecond) := by
  rw [parts, List.mapM_append]
  exact settlesFirst.bind fun _ succeeded => (settlesSecond (settlesFirst.accepted_of_ok succeeded)).map

/-- The place at which a failure is reported changes neither success nor form. -/
theorem settles_located {instrs : List Instr} {accepted : Prop} (methodName : String) (start : Nat)
    (settles : Settles Fault.NotOfShape (scope.parts instrs) accepted) :
    Settles Fault.NotOfShape ((instrs.zipIdx start).mapM fun (instr, index) =>
      (scope.statementCode instr).mapError (Fault.inMethod scope.className methodName index)) accepted := by
  induction instrs generalizing start with
  | nil => exact settles
  | cons instr rest inductionHypothesis =>
    rw [parts, List.mapM_cons] at settles
    rw [List.zipIdx_cons, List.mapM_cons]
    dsimp only
    cases generated : scope.statementCode instr with
    | error fault =>
      rw [generated] at settles
      exact ⟨settles.1, settles.2⟩
    | ok code =>
      rw [generated] at settles
      have settlesRest : Settles Fault.NotOfShape (scope.parts rest) accepted := Settles.of_map settles
      exact (inductionHypothesis (start + 1) settlesRest).map

end Scope

/-- A method has code exactly if its body has. -/
theorem Method.settles_code {method : Method} {className : String} {accepted : Prop}
    (settles : Settles Fault.NotOfShape ((method.scope className).parts method.instrs) accepted) :
    Settles Fault.NotOfShape (method.code className) accepted :=
  ((method.scope className).settles_located method.name 0 settles).map

end Stackwright
