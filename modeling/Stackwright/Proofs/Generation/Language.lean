import Stackwright.Proofs.Generation.Acceptance

/-!
Contract: the language of instructions that have machine code.

Owns:
- the calls, the assigned values and the statements that have code, as conditions on an
  instruction and on the scope in which it stands;
- that code generation succeeds on exactly these.

Every form of instruction is judged, also those that no tree is lowered to. The conditions
speak of types and of the slot table only, and not of the order in which code generation
asks for them.
-/

namespace Stackwright.Scope

variable (scope : Scope)

/-- Members can be reached through an operand. -/
def Owns (operand : Operand) : Prop :=
  (operand.ty.resolve scope.className).OwnsMembers

/-- Everything that a call other than an allocation asks for. A constructor call names no
method, and only a virtual call loads its target. -/
structure Invokes (call : Call) : Prop where
  owned : scope.Owns call.target
  named : call.kind = .virtual ∨ call.kind = .static → call.method? ≠ none
  target : call.kind = .virtual → scope.Loadable call.target
  args : ∀ arg ∈ call.args,
    (arg.ty.resolve scope.className).Encodes .argument ∧ scope.Loadable arg
  result : (call.result.resolve scope.className).Encodes .result

/-- The instruction can be assigned: it leaves a value, and its parts have what they need. -/
def AcceptsValue : Instr → Prop
  | .single operand => scope.Loadable operand
  | .binary operator left right _ => operator ≠ .less ∧ scope.Loadable left ∧ scope.Loadable right
  | .call call =>
    if call.kind = .allocate then scope.Owns call.target
    else call.result ≠ .void ∧ scope.Invokes call
  | .getField place =>
    scope.Loadable place.object ∧ scope.Owns place.object ∧ place.ty.Encodes .field
  | .assign _ _ | .ret _ _ | .putField _ _ => False

/-- The instruction can stand as a statement. -/
def Accepts : Instr → Prop
  | .assign (.variable name ty) source => scope.AcceptsValue source ∧ scope.Storable name ty
  | .single operand => scope.Loadable operand
  | .ret ty value? => ty = .void ∨ ∃ value, value? = some value ∧ scope.Loadable value
  | .call call => call.kind ≠ .allocate ∧ scope.Invokes call
  | .putField place value =>
    scope.Owns place.object ∧ place.ty.Encodes .field ∧
      scope.Loadable place.object ∧ scope.Loadable value
  | .assign (.literal _ _) _ | .assign .receiver _ | .binary _ _ _ _ | .getField _ => False

instance (operand : Operand) : Decidable (scope.Owns operand) :=
  inferInstanceAs (Decidable (operand.ty.resolve scope.className).OwnsMembers)

instance (call : Call) : Decidable (scope.Invokes call) :=
  decidable_of_iff
    (scope.Owns call.target ∧
      (call.kind = .virtual ∨ call.kind = .static → call.method? ≠ none) ∧
      (call.kind = .virtual → scope.Loadable call.target) ∧
      (∀ arg ∈ call.args,
        (arg.ty.resolve scope.className).Encodes .argument ∧ scope.Loadable arg) ∧
      (call.result.resolve scope.className).Encodes .result)
    ⟨fun ⟨owned, named, target, args, result⟩ => ⟨owned, named, target, args, result⟩,
      fun ⟨owned, named, target, args, result⟩ => ⟨owned, named, target, args, result⟩⟩

instance : (instr : Instr) → Decidable (scope.AcceptsValue instr)
  | .single operand => inferInstanceAs (Decidable (scope.Loadable operand))
  | .binary operator left right _ =>
    inferInstanceAs (Decidable (operator ≠ .less ∧ scope.Loadable left ∧ scope.Loadable right))
  | .call call =>
    inferInstanceAs (Decidable (if call.kind = .allocate then scope.Owns call.target
      else call.result ≠ .void ∧ scope.Invokes call))
  | .getField place =>
    inferInstanceAs (Decidable (scope.Loadable place.object ∧ scope.Owns place.object ∧
      place.ty.Encodes .field))
  | .assign _ _ | .ret _ _ | .putField _ _ => .isFalse id

instance : (instr : Instr) → Decidable (scope.Accepts instr)
  | .assign (.variable name ty) source =>
    inferInstanceAs (Decidable (scope.AcceptsValue source ∧ scope.Storable name ty))
  | .single operand => inferInstanceAs (Decidable (scope.Loadable operand))
  | .ret ty none => decidable_of_iff (ty = .void) (by simp [Accepts])
  | .ret ty (some value) =>
    decidable_of_iff (ty = .void ∨ scope.Loadable value) (by simp [Accepts])
  | .call call => inferInstanceAs (Decidable (call.kind ≠ .allocate ∧ scope.Invokes call))
  | .putField place value =>
    inferInstanceAs (Decidable (scope.Owns place.object ∧ place.ty.Encodes .field ∧
      scope.Loadable place.object ∧ scope.Loadable value))
  | .assign (.literal _ _) _ | .assign .receiver _ | .binary _ _ _ _ | .getField _ => .isFalse id

/-! ### Calls -/

theorem settles_methodName (call : Call) :
    Settles (fun _ => True) call.methodName (call.method? ≠ none) := by
  unfold Call.methodName
  cases call.method? with
  | none => exact ⟨fun named => named rfl, trivial⟩
  | some name => exact nofun

/-- The instruction that a call is made by, with its types encoded after resolution. -/
theorem settles_invokeCode_encodes (call : Call) (owner name : String) :
    Settles (fun _ => True) (scope.invokeCode call owner name)
      (((∀ arg ∈ call.args, (arg.ty.resolve scope.className).Encodes .argument) ∧
        (call.result.resolve scope.className).Encodes .result) ∧
        ∀ arg ∈ call.args, scope.Loadable arg) := by
  apply (scope.settles_invokeCode call owner name).forget.congr
  have resultEncodes : ¬call.result.IsVoidArray ↔ (call.result.resolve scope.className).Encodes .result := by
    rw [Ty.encodes_resolve_iff, Ty.IsVoidArray, Classical.not_and_iff_not_or_not, Classical.not_not]
    simp
  simp [resultEncodes, Ty.encodes_resolve_iff]

/-- The conditions on a call, in the order in which its code asks for them. -/
theorem invokes_iff {call : Call} (named target : Prop)
    (sameNamed : named ↔ (call.kind = .virtual ∨ call.kind = .static → call.method? ≠ none))
    (sameTarget : target ↔ (call.kind = .virtual → scope.Loadable call.target)) :
    scope.Owns call.target ∧ named ∧ target ∧
      ((∀ arg ∈ call.args, (arg.ty.resolve scope.className).Encodes .argument) ∧
        (call.result.resolve scope.className).Encodes .result) ∧
        (∀ arg ∈ call.args, scope.Loadable arg) ↔
      scope.Invokes call := by
  constructor
  · intro conditions
    obtain ⟨owned, named, target, ⟨encoded, result⟩, loadable⟩ := conditions
    exact ⟨owned, sameNamed.1 named, sameTarget.1 target,
      fun arg member => ⟨encoded arg member, loadable arg member⟩, result⟩
  · intro invokes
    exact ⟨invokes.owned, sameNamed.2 invokes.named, sameTarget.2 invokes.target,
      ⟨fun arg member => (invokes.args arg member).1, invokes.result⟩,
      fun arg member => (invokes.args arg member).2⟩

theorem settles_callCode_allocate {call : Call} (kind : call.kind = .allocate) :
    Settles (fun _ => True) (scope.callCode call) (scope.Owns call.target) := by
  rw [callCode, kind]
  exact (scope.settles_owner call.target).forget.map

theorem settles_callCode_invokes {call : Call} (kind : call.kind ≠ .allocate) :
    Settles (fun _ => True) (scope.callCode call) (scope.Invokes call) := by
  have settlesOwner := (scope.settles_owner call.target).forget
  cases dispatch : call.kind with
  | allocate => exact absurd dispatch kind
  | special =>
    apply Settles.congr _ (scope.invokes_iff True True (by simp [dispatch]) (by simp [dispatch]))
    apply settlesOwner.bind
    intro owner _
    simp only [dispatch]
    exact (scope.settles_invokeCode_encodes call owner "<init>").congr (by simp)
  | virtual =>
    apply Settles.congr _ (scope.invokes_iff (call.method? ≠ none) (scope.Loadable call.target)
      (by simp [dispatch]) (by simp [dispatch]))
    apply settlesOwner.bind
    intro owner _
    simp only [dispatch]
    apply (settles_methodName call).bind
    intro name _
    apply (scope.settles_load call.target).forget.bind
    intro load _
    exact (scope.settles_invokeCode_encodes call owner name).map
  | static =>
    apply Settles.congr _ (scope.invokes_iff (call.method? ≠ none) True (by simp [dispatch])
      (by simp [dispatch]))
    apply settlesOwner.bind
    intro owner _
    simp only [dispatch]
    apply (settles_methodName call).bind
    intro name _
    exact (scope.settles_invokeCode_encodes call owner name).congr (by simp)

/-! ### Assigned values and statements -/

theorem settles_fieldRef (place : FieldPlace) (owner : String) :
    Settles (fun _ => True) (fieldRef place owner) (place.ty.Encodes .field) :=
  (place.ty.settles_descriptor .field).liftEncoding.forget.map

theorem settles_valueCode (instr : Instr) :
    Settles (fun _ => True) (scope.valueCode instr) (scope.AcceptsValue instr) := by
  cases instr with
  | single operand => exact (scope.settles_load operand).forget.map
  | binary operator left right ty => exact (scope.settles_binaryCode operator left right).forget
  | call call =>
    by_cases allocates : call.kind = .allocate
    · have leaves : call.resultType? = some call.target.ty := by rw [Call.resultType?, allocates]
      rw [valueCode, leaves, AcceptsValue, if_pos allocates]
      exact scope.settles_callCode_allocate allocates
    · have leaves : call.resultType? = if call.result = .void then none else some call.result := by
        unfold Call.resultType?
        cases dispatch : call.kind with
        | allocate => exact absurd dispatch allocates
        | special | virtual | static => rfl
      rw [valueCode, leaves, AcceptsValue, if_neg allocates]
      by_cases void : call.result = .void
      · rw [if_pos void]
        exact (Settles.error trivial).congr (by simp [void])
      · rw [if_neg void]
        exact (scope.settles_callCode_invokes allocates).congr (by simp [void])
  | getField place =>
    apply (scope.settles_load place.object).forget.bind
    intro load _
    apply (scope.settles_owner place.object).forget.bind
    intro owner _
    exact (settles_fieldRef place owner).map
  | assign | ret | putField => exact .error trivial

/-- An instruction has code as a statement exactly if it can stand as one. -/
theorem settles_statementCode (instr : Instr) :
    Settles (fun _ => True) (scope.statementCode instr) (scope.Accepts instr) := by
  cases instr with
  | assign target source =>
    cases target with
    | «variable» name ty =>
      exact (scope.settles_valueCode source).bind fun _ _ => (scope.settles_store name ty).forget.map
    | literal | receiver => exact .error trivial
  | single operand => exact (scope.settles_load operand).forget.map
  | ret ty value? =>
    by_cases void : ty = .void
    · subst void
      exact (scope.settles_ret_void value?).forget.congr (by simp [Accepts])
    · cases value? with
      | none => exact (scope.settles_ret_bare ty).forget.congr (by simp [Accepts])
      | some value =>
        exact (scope.settles_ret_value void value).forget.congr (by simp [Accepts, void])
  | call call =>
    rw [statementCode, callStatementCode, Accepts]
    by_cases allocates : call.kind = .allocate
    · rw [if_pos allocates]
      exact (Settles.error trivial).congr (by simp [allocates])
    · rw [if_neg allocates]
      exact (scope.settles_callCode_invokes allocates).map.congr (by simp [allocates])
  | putField place value =>
    apply (scope.settles_owner place.object).forget.bind
    intro owner _
    apply (settles_fieldRef place owner).bind
    intro field _
    apply (scope.settles_load place.object).forget.bind
    intro objectLoad _
    exact (scope.settles_load value).forget.map
  | binary | getField => exact .error trivial

end Stackwright.Scope
