import Stackwright.Proofs.Code.Kinds

/-!
Contract: generated code passes the verifier.

Owns: the code of instructions that fit what is known of their variables checks, from
every frame that mirrors what is known, and leaves such a frame behind.
-/

namespace Stackwright

namespace Scope

variable {scope : Scope} {instrs : List Instr} {isName : List Char → Prop} {result? : Option Kind}
  {kinds : String → Option Kind} {slots : Slot → Option Kind}

theorem Loads.checks {operand : Operand} {load : MachineInstr} (loads : scope.Loads operand load)
    (evaluates : Evaluates instrs operand)
    (mirrors : scope.table.Mirrors instrs (some .reference) kinds slots) (fits : operand.Fits kinds)
    (stack : List Kind) :
    ∃ kind, operand.ty.kind? = some kind ∧
      load.Checks isName result? ⟨slots, stack⟩ ⟨slots, kind :: stack⟩ := by
  cases loads with
  | @literal text ty notVoid =>
    cases hasKind : ty.kind? with
    | none => exact absurd (Ty.kind?_eq_none_iff.1 hasKind) notVoid
    | some kind => exact ⟨kind, hasKind, .ldc (fits.trans hasKind)⟩
  | receiver isReceiver =>
    refine ⟨.reference, ?_, .load (mirrors.receiver (evaluates.readsReceiver isReceiver))⟩
    cases operand with
    | literal => cases isReceiver
    | «variable» name ty => exact congrArg Ty.kind? isReceiver
    | receiver => rfl
  | @«variable» name ty slot kind notReceiver bound hasKind =>
    have inSlot := mirrors.inSlots name (evaluates.mem_usedNames (if_neg notReceiver)) slot bound
    have known : kinds name = ty.kind? := fits.resolve_left notReceiver
    exact ⟨kind, hasKind, .load (inSlot.trans (known.trans hasKind))⟩

/-- Loads put the kinds of their operands on the stack, the last one on top. -/
theorem LoadsAll.checks {operands : List Operand} {loads : List MachineInstr}
    (loadsAll : scope.LoadsAll operands loads)
    (evaluates : ∀ operand ∈ operands, Evaluates instrs operand)
    (mirrors : scope.table.Mirrors instrs (some .reference) kinds slots)
    (fits : ∀ operand ∈ operands, operand.Fits kinds) (stack : List Kind) :
    ∃ loaded : List Kind, operands.map (fun operand => operand.ty.kind?) = loaded.map some ∧
      ChecksAll isName result? loads ⟨slots, stack⟩ ⟨slots, loaded.reverse ++ stack⟩ := by
  induction loadsAll generalizing stack with
  | nil => exact ⟨[], rfl, .nil _⟩
  | cons loadsFirst loadsRest inductionHypothesis =>
    rw [List.forall_mem_cons] at evaluates fits
    rcases loadsFirst.checks evaluates.1 mirrors fits.1 stack with ⟨kind, hasKind, checks⟩
    rcases inductionHypothesis evaluates.2 fits.2 (kind :: stack) with ⟨loaded, haveKinds, checksRest⟩
    refine ⟨kind :: loaded, ?_, ?_⟩
    · rw [List.map_cons, List.map_cons, hasKind, haveKinds]
    · rw [List.reverse_cons, List.append_assoc]
      exact .cons checks checksRest

/-- The descriptor of a call describes the kinds of its operands and of its result. -/
theorem describes_of_callDescriptor {call : Call} {descriptor : String} {loaded : List Kind}
    (described : scope.callDescriptor call = .ok descriptor)
    (haveKinds : call.args.map (fun arg => arg.ty.kind?) = loaded.map some)
    (named : ∀ arg ∈ call.args, (arg.ty.resolve scope.className).NamesClasses isName)
    (namedResult : (call.result.resolve scope.className).NamesClasses isName) :
    DescribesMethod isName descriptor.toList loaded call.result.kind? := by
  have encoded := mapError_eq_ok_iff.1 described
  have namedArgs : ∀ ty ∈ call.args.map (fun arg => arg.ty.resolve scope.className),
      ty.NamesClasses isName := by
    rw [List.forall_mem_map]
    exact named
  rcases Stackwright.describes_of_callDescriptor encoded namedArgs namedResult with
    ⟨inputs, inputKinds, describes⟩
  rw [List.map_map] at inputKinds
  have sameKinds : loaded = inputs := by
    apply (List.map_inj_right fun _ _ => Option.some.inj).1
    rw [← haveKinds, ← inputKinds]
    simp
  rw [sameKinds, ← Ty.kind?_resolve scope.className call.result]
  exact describes

variable {formed : Ty → Prop}

/-- The code of a call checks and leaves the kind of the result. -/
theorem Calls.checks {call : Call} {code : List MachineInstr} (calls : scope.Calls call code)
    (evaluates : ∀ operand ∈ (Instr.call call).operands, Evaluates instrs operand)
    (mirrors : scope.table.Mirrors instrs (some .reference) kinds slots)
    (fits : call.Fits formed kinds)
    (named : ∀ ty, formed ty → (ty.resolve scope.className).NamesClasses isName) (stack : List Kind) :
    ChecksAll isName result? code ⟨slots, stack⟩ ⟨slots, call.result.kind?.toList ++ stack⟩ := by
  have evaluatesArgs : ∀ operand ∈ call.args, Evaluates instrs operand :=
    fun operand member => evaluates operand (Instr.mem_operands_of_mem_args member)
  have fitArgs : ∀ arg ∈ call.args, arg.Fits kinds := fun arg member => (fits.args arg member).1
  have namedArgs : ∀ arg ∈ call.args, (arg.ty.resolve scope.className).NamesClasses isName :=
    fun arg member => named arg.ty (fits.args arg member).2
  have namedResult := named call.result fits.result
  cases calls with
  | allocate kind => exact absurd kind fits.makesNoObject.1
  | special kind => exact absurd kind fits.makesNoObject.2
  | @«virtual» owner name descriptor load loads kind owned called described loadsTarget loadsArgs =>
    have evaluatesTarget : Evaluates instrs call.target := evaluates _ (by simp [Instr.operands, kind])
    rcases fits.target kind with ⟨fitsTarget, isReference⟩
    rcases loadsTarget.checks evaluatesTarget mirrors fitsTarget stack with ⟨object, hasKind, checksTarget⟩
    rcases loadsArgs.checks evaluatesArgs mirrors fitArgs (object :: stack) with
      ⟨loaded, haveKinds, checksArgs⟩
    have describes := describes_of_callDescriptor described haveKinds namedArgs namedResult
    cases hasKind.symm.trans isReference
    have onReference : call.kind.objectKinds = [.reference] := by
      rw [kind]
      rfl
    have checksCall : (MachineInstr.invoke (call.invocation owner name descriptor)).Checks isName result?
        ⟨slots, loaded.reverse ++ (call.kind.objectKinds ++ stack)⟩
        ⟨slots, call.result.kind?.toList ++ stack⟩ := .invoke fits.makesNoObject.1 describes
    rw [onReference] at checksCall
    exact .cons checksTarget (checksArgs.append (.one checksCall))
  | @static owner name descriptor loads kind owned called described loadsArgs =>
    rcases loadsArgs.checks evaluatesArgs mirrors fitArgs stack with ⟨loaded, haveKinds, checksArgs⟩
    have describes := describes_of_callDescriptor described haveKinds namedArgs namedResult
    have onNothing : call.kind.objectKinds = [] := by
      rw [kind]
      rfl
    have checksCall : (MachineInstr.invoke (call.invocation owner name descriptor)).Checks isName result?
        ⟨slots, loaded.reverse ++ (call.kind.objectKinds ++ stack)⟩
        ⟨slots, call.result.kind?.toList ++ stack⟩ := .invoke fits.makesNoObject.1 describes
    rw [onNothing] at checksCall
    exact checksArgs.append (.one checksCall)

theorem checks_of_machineInstr {operator : Operator} {instr : MachineInstr}
    (computes : operator.machineInstr? = some instr) (slots : Slot → Option Kind) (stack : List Kind) :
    instr.Checks isName result? ⟨slots, .int :: .int :: stack⟩ ⟨slots, .int :: stack⟩ := by
  apply MachineInstr.Checks.operator
  cases operator with
  | less => cases computes
  | add | sub | mul | div | and =>
    cases computes
    decide

/-- The code of an assigned value leaves a value of its kind. -/
theorem Yields.checks {instr : Instr} {code : List MachineInstr} {kind : Kind}
    (yields : scope.Yields instr code)
    (evaluates : ∀ operand ∈ instr.operands, Evaluates instrs operand)
    (mirrors : scope.table.Mirrors instrs (some .reference) kinds slots)
    (fits : instr.Yields formed kinds (some kind))
    (named : ∀ ty, formed ty → (ty.resolve scope.className).NamesClasses isName) (stack : List Kind) :
    ChecksAll isName result? code ⟨slots, stack⟩ ⟨slots, kind :: stack⟩ := by
  cases yields with
  | single loads =>
    rcases loads.checks (evaluates _ List.mem_cons_self) mirrors fits.1 stack with ⟨loaded, hasKind, checks⟩
    cases hasKind.symm.trans fits.2
    exact .one checks
  | binary computes loadsLeft loadsRight =>
    rcases fits with ⟨⟨fitsLeft, leftInt⟩, ⟨fitsRight, rightInt⟩, isInt⟩
    rcases loadsLeft.checks (evaluates _ List.mem_cons_self) mirrors fitsLeft stack with
      ⟨leftKind, hasLeftKind, checksLeft⟩
    cases hasLeftKind.symm.trans leftInt
    rcases loadsRight.checks (evaluates _ (List.mem_cons_of_mem _ List.mem_cons_self)) mirrors fitsRight
      (.int :: stack) with ⟨rightKind, hasRightKind, checksRight⟩
    cases hasRightKind.symm.trans rightInt
    cases isInt
    exact .cons checksLeft (.cons checksRight (.one (checks_of_machineInstr computes slots stack)))
  | @call invocation code ty leaves calls =>
    have checks : ChecksAll isName result? code ⟨slots, stack⟩
        ⟨slots, invocation.result.kind?.toList ++ stack⟩ :=
      calls.checks evaluates mirrors fits.1 named stack
    rw [fits.2] at checks
    exact checks
  | getField => exact fits.elim

/-- The code of a statement checks, and the frame that it leaves mirrors what is then
known. -/
theorem Emits.checks {instr : Instr} {code : List MachineInstr} (emits : scope.Emits instr code)
    (member : instr ∈ instrs) (suits : scope.table.Suits instrs)
    (mirrors : scope.table.Mirrors instrs (some .reference) kinds slots)
    (fits : instr.Fits formed result? kinds)
    (named : ∀ ty, formed ty → (ty.resolve scope.className).NamesClasses isName) (stack : List Kind) :
    ∃ slotsAfter, ChecksAll isName result? code ⟨slots, stack⟩ ⟨slotsAfter, stack⟩ ∧
      scope.table.Mirrors instrs (some .reference) (instr.kindsAfter kinds) slotsAfter := by
  have evaluates : ∀ operand ∈ instr.operands, Evaluates instrs operand :=
    fun operand isOperand => ⟨instr, member, isOperand⟩
  cases emits with
  | @assign name ty source code slot kind yields bound notReceiver hasKind =>
    have assigned : name ∈ assignedNames instrs := List.mem_filterMap.2 ⟨_, member, rfl⟩
    have fitsValue : source.Yields formed kinds (some kind) := hasKind ▸ fits
    refine ⟨setLocal slots slot (some kind), ?_, ?_⟩
    · exact (yields.checks evaluates mirrors fitsValue named stack).append (.one (.store kind slot slots stack))
    · rw [Instr.kindsAfter, hasKind]
      exact mirrors.assign suits assigned bound (some kind)
  | single => exact fits.elim
  | retVoid value? => exact ⟨slots, .one (.retVoid fits.1.symm), mirrors⟩
  | @ret ty kind value load hasKind loads =>
    have notVoid : ty ≠ .void := fun void => by simp [void, Ty.kind?] at hasKind
    have evaluatesValue : Evaluates instrs value := evaluates _ (by simp [Instr.operands, notVoid])
    rcases fits with ⟨isResult, fitsValue⟩
    rcases fitsValue value rfl with ⟨fitsValue, valueKind⟩
    rcases loads.checks evaluatesValue mirrors fitsValue stack with ⟨loaded, hasLoaded, checks⟩
    have sameKind : loaded = kind :=
      Option.some.inj (hasLoaded.symm.trans (valueKind.trans (isResult.symm.trans hasKind)))
    subst sameKind
    exact ⟨slots, .cons checks (.one (.ret (isResult.symm.trans hasKind))), mirrors⟩
  | @call invocation code notAllocate calls =>
    have checks : ChecksAll isName result? code ⟨slots, stack⟩
        ⟨slots, invocation.result.kind?.toList ++ stack⟩ := calls.checks evaluates mirrors fits named stack
    refine ⟨slots, ?_, mirrors⟩
    by_cases void : invocation.result = .void
    · rw [if_pos void, List.append_nil]
      rw [void] at checks
      exact checks
    · rw [if_neg void]
      cases hasKind : invocation.result.kind? with
      | none => exact absurd (Ty.kind?_eq_none_iff.1 hasKind) void
      | some kind =>
        rw [hasKind] at checks
        exact checks.append (.one (.pop kind slots stack))
  | putField => exact fits.elim

/-- The code of a body that fits checks. -/
theorem EmitsAll.checks {part : List Instr} {code : List MachineInstr} {kindsLast : String → Option Kind}
    (emitsAll : scope.EmitsAll part code) (members : part ⊆ instrs) (suits : scope.table.Suits instrs)
    (mirrors : scope.table.Mirrors instrs (some .reference) kinds slots)
    (fitsAll : FitsAll formed result? kinds part kindsLast)
    (named : ∀ ty, formed ty → (ty.resolve scope.className).NamesClasses isName) (stack : List Kind) :
    ∃ slotsAfter, ChecksAll isName result? code ⟨slots, stack⟩ ⟨slotsAfter, stack⟩ := by
  induction emitsAll generalizing kinds slots with
  | nil => exact ⟨slots, .nil _⟩
  | cons emits emitsRest inductionHypothesis =>
    cases fitsAll with
    | cons fits fitsRest =>
      rcases emits.checks (members List.mem_cons_self) suits mirrors fits named stack with
        ⟨slotsMiddle, checks, mirrorsMiddle⟩
      rcases inductionHypothesis (fun _ member => members (List.mem_cons_of_mem _ member)) mirrorsMiddle
        fitsRest with ⟨slotsAfter, checksRest⟩
      exact ⟨slotsAfter, checks.append checksRest⟩

end Scope

end Stackwright
