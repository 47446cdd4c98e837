import Stackwright.Generation.Body
import Stackwright.Proofs.Fault
import Stackwright.Proofs.Frame.Mirror

/-!
Contract: successful generation of machine code as a derivation.

Owns:
- derivations that an operand is loaded, that a call, an assigned value or a
  statement has certain code;
- that whatever is generated has a derivation.

A derivation has one rule for each way in which code is put together. What holds of
all generated code is shown by cases on derivations, so no argument about code opens
the generator again.
-/

namespace Stackwright

/-- What a call leaves to the machine. -/
def Call.invocation (call : Call) (owner name descriptor : String) : Invocation where
  kind := call.kind
  owner := owner
  name := name
  descriptor := descriptor
  argCount := call.args.length
  hasReceiver := call.kind.hasReceiver
  returnsValue := call.result ≠ .void

namespace Scope

/-- An operand is loaded by an instruction. -/
inductive Loads (scope : Scope) : Operand → MachineInstr → Prop where
  | literal (text : String) {ty : Ty} (notVoid : ty ≠ .void) :
      Loads scope (.literal text ty) (.ldc text)
  | receiver {operand : Operand} (isReceiver : operand.IsReceiver) :
      Loads scope operand (.load .reference 0)
  | variable {name : String} {ty : Ty} {slot : Slot} {kind : Kind} (notReceiver : ty ≠ .receiver)
      (bound : scope.table.slot? name = some slot) (hasKind : ty.kind? = some kind) :
      Loads scope (.variable name ty) (.load kind slot)

/-- Operands are loaded in order. -/
inductive LoadsAll (scope : Scope) : List Operand → List MachineInstr → Prop where
  | nil : LoadsAll scope [] []
  | cons {operand : Operand} {rest : List Operand} {load : MachineInstr} {loads : List MachineInstr}
      (loadsFirst : Loads scope operand load) (loadsRest : LoadsAll scope rest loads) :
      LoadsAll scope (operand :: rest) (load :: loads)

/-- A call has code. -/
inductive Calls (scope : Scope) (call : Call) : List MachineInstr → Prop where
  | allocate {owner : String} (kind : call.kind = .allocate) :
      Calls scope call [.new owner, .dup]
  | special {owner descriptor : String} {loads : List MachineInstr} (kind : call.kind = .special)
      (described : scope.callDescriptor call = .ok descriptor)
      (loadsArgs : LoadsAll scope call.args loads) :
      Calls scope call (loads ++ [.invoke (call.invocation owner "<init>" descriptor)])
  | virtual {owner name descriptor : String} {load : MachineInstr} {loads : List MachineInstr}
      (kind : call.kind = .virtual) (owned : scope.owner call.target = .ok owner)
      (named : call.method? = some name) (described : scope.callDescriptor call = .ok descriptor)
      (loadsTarget : Loads scope call.target load) (loadsArgs : LoadsAll scope call.args loads) :
      Calls scope call (load :: (loads ++ [.invoke (call.invocation owner name descriptor)]))
  | static {owner name descriptor : String} {loads : List MachineInstr}
      (kind : call.kind = .static) (owned : scope.owner call.target = .ok owner)
      (named : call.method? = some name) (described : scope.callDescriptor call = .ok descriptor)
      (loadsArgs : LoadsAll scope call.args loads) :
      Calls scope call (loads ++ [.invoke (call.invocation owner name descriptor)])

/-- An assigned value has code. -/
inductive Yields (scope : Scope) : Instr → List MachineInstr → Prop where
  | single {operand : Operand} {load : MachineInstr} (loads : Loads scope operand load) :
      Yields scope (.single operand) [load]
  | binary {operator : Operator} {left right : Operand} {ty : Ty}
      {leftLoad rightLoad instr : MachineInstr} (computes : operator.machineInstr? = some instr)
      (loadsLeft : Loads scope left leftLoad) (loadsRight : Loads scope right rightLoad) :
      Yields scope (.binary operator left right ty) [leftLoad, rightLoad, instr]
  | call {invocation : Call} {code : List MachineInstr} {ty : Ty}
      (leaves : invocation.resultType? = some ty) (calls : Calls scope invocation code) :
      Yields scope (.call invocation) code
  | getField {place : FieldPlace} {owner : String} {field : FieldRef} {load : MachineInstr}
      (loadsObject : Loads scope place.object load) (owned : scope.owner place.object = .ok owner)
      (denotes : fieldRef place owner = .ok field) :
      Yields scope (.getField place) [load, .getField field]

/-- A statement has code. -/
inductive Emits (scope : Scope) : Instr → List MachineInstr → Prop where
  | assign {name : String} {ty : Ty} {source : Instr} {code : List MachineInstr} {slot : Slot}
      {kind : Kind} (yields : Yields scope source code) (bound : scope.table.slot? name = some slot)
      (notReceiver : ty ≠ .receiver) (hasKind : ty.kind? = some kind) :
      Emits scope (.assign (.variable name ty) source) (code ++ [.store kind slot])
  | single {operand : Operand} {load : MachineInstr} (loads : Loads scope operand load) :
      Emits scope (.single operand) [load]
  | retVoid (value? : Option Operand) : Emits scope (.ret .void value?) [.retVoid]
  | ret {ty : Ty} {kind : Kind} {value : Operand} {load : MachineInstr}
      (hasKind : ty.kind? = some kind) (loads : Loads scope value load) :
      Emits scope (.ret ty (some value)) [load, .ret kind]
  | call {invocation : Call} {code : List MachineInstr} (notAllocate : invocation.kind ≠ .allocate)
      (calls : Calls scope invocation code) :
      Emits scope (.call invocation) (code ++ (if invocation.result = .void then [] else [.pop]))
  | putField {place : FieldPlace} {value : Operand} {owner : String} {field : FieldRef}
      {objectLoad valueLoad : MachineInstr} (owned : scope.owner place.object = .ok owner)
      (denotes : fieldRef place owner = .ok field) (loadsObject : Loads scope place.object objectLoad)
      (loadsValue : Loads scope value valueLoad) :
      Emits scope (.putField place value) [objectLoad, valueLoad, .putField field]

/-- The statements of a body have code, each its own part. -/
inductive EmitsAll (scope : Scope) : List Instr → List MachineInstr → Prop where
  | nil : EmitsAll scope [] []
  | cons {instr : Instr} {rest : List Instr} {code restCode : List MachineInstr}
      (emits : Emits scope instr code) (emitsRest : EmitsAll scope rest restCode) :
      EmitsAll scope (instr :: rest) (code ++ restCode)

/-! ### Whatever is generated has a derivation -/

variable {scope : Scope}

theorem slot_eq_ok_iff {name : String} {slot : Slot} :
    scope.slot name = .ok slot ↔ scope.table.slot? name = some slot := by
  unfold Scope.slot FrameTable.slot?
  cases scope.table.get? name with
  | none => simp
  | some binding => simp

theorem loads_of_load {operand : Operand} {instr : MachineInstr}
    (generated : scope.load operand = .ok instr) : scope.Loads operand instr := by
  cases operand with
  | literal text ty =>
    by_cases void : ty = .void
    · rw [load, if_pos void] at generated
      cases generated
    · rw [load, if_neg void] at generated
      cases generated
      exact .literal text void
  | receiver =>
    cases generated
    exact .receiver trivial
  | «variable» name ty =>
    by_cases isReceiver : ty = .receiver
    · rw [load, if_pos isReceiver] at generated
      cases generated
      exact .receiver isReceiver
    · rw [load, if_neg isReceiver, bind_eq_ok_iff] at generated
      rcases generated with ⟨slot, bound, generated⟩
      cases hasKind : ty.kind? with
      | none =>
        rw [hasKind] at generated
        cases generated
      | some kind =>
        rw [hasKind] at generated
        cases generated
        exact .variable isReceiver (slot_eq_ok_iff.1 bound) hasKind

theorem loadsAll_of_mapM {operands : List Operand} {loads : List MachineInstr}
    (generated : operands.mapM scope.load = .ok loads) : scope.LoadsAll operands loads := by
  induction operands generalizing loads with
  | nil =>
    cases generated
    exact .nil
  | cons operand rest inductionHypothesis =>
    simp only [List.mapM_cons, bind_eq_ok_iff, pure_eq_ok_iff] at generated
    rcases generated with ⟨load, loadGenerated, loadsRest, restGenerated, rfl⟩
    exact .cons (loads_of_load loadGenerated) (inductionHypothesis restGenerated)

theorem invokeCode_eq_ok {call : Call} {owner name : String} {code : List MachineInstr}
    (generated : scope.invokeCode call owner name = .ok code) :
    ∃ descriptor loads, scope.callDescriptor call = .ok descriptor ∧ scope.LoadsAll call.args loads ∧
      code = loads ++ [.invoke (call.invocation owner name descriptor)] := by
  simp only [invokeCode, bind_eq_ok_iff, pure_eq_ok_iff] at generated
  rcases generated with ⟨descriptor, described, loads, loadsGenerated, rfl⟩
  exact ⟨descriptor, loads, described, loadsAll_of_mapM loadsGenerated, rfl⟩

theorem methodName_eq_ok_iff {call : Call} {name : String} :
    call.methodName = .ok name ↔ call.method? = some name := by
  unfold Call.methodName
  cases call.method? <;> simp

theorem calls_of_callCode {call : Call} {code : List MachineInstr}
    (generated : scope.callCode call = .ok code) : scope.Calls call code := by
  rw [callCode, bind_eq_ok_iff] at generated
  rcases generated with ⟨owner, owned, generated⟩
  cases kind : call.kind with
  | allocate =>
    rw [kind] at generated
    cases generated
    exact .allocate kind
  | special =>
    rw [kind] at generated
    rcases invokeCode_eq_ok generated with ⟨descriptor, loads, described, loadsArgs, rfl⟩
    exact .special kind described loadsArgs
  | virtual =>
    simp only [kind, bind_eq_ok_iff, methodName_eq_ok_iff, pure_eq_ok_iff] at generated
    rcases generated with ⟨name, named, load, loadGenerated, invokeCode, generated, rfl⟩
    rcases invokeCode_eq_ok generated with ⟨descriptor, loads, described, loadsArgs, rfl⟩
    exact .virtual kind owned named described (loads_of_load loadGenerated) loadsArgs
  | static =>
    simp only [kind, bind_eq_ok_iff, methodName_eq_ok_iff] at generated
    rcases generated with ⟨name, named, generated⟩
    rcases invokeCode_eq_ok generated with ⟨descriptor, loads, described, loadsArgs, rfl⟩
    exact .static kind owned named described loadsArgs

theorem yields_of_valueCode {instr : Instr} {code : List MachineInstr}
    (generated : scope.valueCode instr = .ok code) : scope.Yields instr code := by
  cases instr with
  | single operand =>
    simp only [valueCode, bind_eq_ok_iff, pure_eq_ok_iff] at generated
    rcases generated with ⟨load, loadGenerated, rfl⟩
    exact .single (loads_of_load loadGenerated)
  | binary operator left right ty =>
    rw [valueCode, binaryCode] at generated
    cases computes : operator.machineInstr? with
    | none =>
      rw [computes] at generated
      cases generated
    | some instr =>
      simp only [computes, bind_eq_ok_iff, pure_eq_ok_iff] at generated
      rcases generated with ⟨leftLoad, leftGenerated, rightLoad, rightGenerated, rfl⟩
      exact .binary computes (loads_of_load leftGenerated) (loads_of_load rightGenerated)
  | call invocation =>
    rw [valueCode] at generated
    cases leaves : invocation.resultType? with
    | none =>
      rw [leaves] at generated
      cases generated
    | some ty =>
      rw [leaves] at generated
      exact .call leaves (calls_of_callCode generated)
  | getField place =>
    simp only [valueCode, bind_eq_ok_iff, pure_eq_ok_iff] at generated
    rcases generated with ⟨load, loadGenerated, owner, owned, field, denotes, rfl⟩
    exact .getField (loads_of_load loadGenerated) owned denotes
  | assign | ret | putField => cases generated

theorem store_eq_ok {name : String} {ty : Ty} {instr : MachineInstr}
    (generated : scope.store name ty = .ok instr) :
    ∃ slot kind, scope.table.slot? name = some slot ∧ ty ≠ .receiver ∧ ty.kind? = some kind ∧
      instr = .store kind slot := by
  rw [store, bind_eq_ok_iff] at generated
  rcases generated with ⟨slot, bound, generated⟩
  unfold Ty.storeKind? at generated
  by_cases isReceiver : ty = .receiver
  · rw [if_pos isReceiver] at generated
    cases generated
  · rw [if_neg isReceiver] at generated
    cases hasKind : ty.kind? with
    | none =>
      rw [hasKind] at generated
      cases generated
    | some kind =>
      rw [hasKind] at generated
      cases generated
      exact ⟨slot, kind, slot_eq_ok_iff.1 bound, isReceiver, rfl, rfl⟩

theorem emits_of_statementCode {instr : Instr} {code : List MachineInstr}
    (generated : scope.statementCode instr = .ok code) : scope.Emits instr code := by
  cases instr with
  | assign target source =>
    cases target with
    | «variable» name ty =>
      simp only [statementCode, assignCode, bind_eq_ok_iff, pure_eq_ok_iff] at generated
      rcases generated with ⟨valueCode, valueGenerated, store, storeGenerated, rfl⟩
      rcases store_eq_ok storeGenerated with ⟨slot, kind, bound, notReceiver, hasKind, rfl⟩
      exact .assign (yields_of_valueCode valueGenerated) bound notReceiver hasKind
    | literal | receiver => cases generated
  | single operand =>
    simp only [statementCode, bind_eq_ok_iff, pure_eq_ok_iff] at generated
    rcases generated with ⟨load, loadGenerated, rfl⟩
    exact .single (loads_of_load loadGenerated)
  | ret ty value? =>
    rw [statementCode, returnCode] at generated
    cases hasKind : ty.kind? with
    | none =>
      rw [hasKind] at generated
      cases generated
      rw [Ty.kind?_eq_none_iff.1 hasKind]
      exact .retVoid value?
    | some kind =>
      cases value? with
      | none =>
        rw [hasKind] at generated
        cases generated
      | some value =>
        simp only [hasKind, bind_eq_ok_iff, pure_eq_ok_iff] at generated
        rcases generated with ⟨load, loadGenerated, rfl⟩
        exact .ret hasKind (loads_of_load loadGenerated)
  | call invocation =>
    rw [statementCode, callStatementCode] at generated
    by_cases allocates : invocation.kind = .allocate
    · rw [if_pos allocates] at generated
      cases generated
    · simp only [if_neg allocates, bind_eq_ok_iff, pure_eq_ok_iff] at generated
      rcases generated with ⟨callCode, callGenerated, rfl⟩
      exact .call allocates (calls_of_callCode callGenerated)
  | putField place value =>
    simp only [statementCode, putFieldCode, bind_eq_ok_iff, pure_eq_ok_iff] at generated
    rcases generated with ⟨owner, owned, field, denotes, objectLoad, objectGenerated, valueLoad,
      valueGenerated, rfl⟩
    exact .putField owned denotes (loads_of_load objectGenerated) (loads_of_load valueGenerated)
  | binary | getField => cases generated

/-- Where statements are counted from makes no difference to their code. -/
theorem emitsAll_of_parts {methodName : String} {instrs : List Instr} {start : Nat}
    {parts : List (List MachineInstr)}
    (generated : (instrs.zipIdx start).mapM (fun (instr, index) =>
      (scope.statementCode instr).mapError (Fault.inMethod scope.className methodName index)) =
        .ok parts) :
    scope.EmitsAll instrs parts.flatten := by
  induction instrs generalizing start parts with
  | nil =>
    cases generated
    exact .nil
  | cons instr rest inductionHypothesis =>
    simp only [List.zipIdx_cons, List.mapM_cons, bind_eq_ok_iff, mapError_eq_ok_iff,
      pure_eq_ok_iff] at generated
    rcases generated with ⟨code, instrGenerated, restParts, restGenerated, rfl⟩
    exact .cons (emits_of_statementCode instrGenerated) (inductionHypothesis restGenerated)

/-- A body is accepted if each of its statements is, wherever it stands. -/
theorem bodyParts_eq_ok_iff {methodName : String} {instrs : List Instr}
    {parts : List (List MachineInstr)} :
    scope.bodyParts methodName instrs = .ok parts ↔ instrs.map scope.statementCode = parts.map .ok := by
  have countedFrom (start : Nat) :
      (instrs.zipIdx start).mapM (fun (instr, index) =>
        (scope.statementCode instr).mapError (Fault.inMethod scope.className methodName index)) =
          .ok parts ↔ instrs.map scope.statementCode = parts.map .ok := by
    rw [← mapM_eq_ok_iff]
    induction instrs generalizing start parts with
    | nil => exact Iff.rfl
    | cons instr rest inductionHypothesis =>
      simp only [List.zipIdx_cons, List.mapM_cons, bind_eq_ok_iff, mapError_eq_ok_iff,
        pure_eq_ok_iff, inductionHypothesis]
  exact countedFrom 0

end Scope

/-- The code of a method is that of its statements, and the return that they leave out. -/
theorem Method.emitsAll_of_code {method : Method} {className : String} {code : List MachineInstr}
    (generated : method.code className = .ok code) :
    ∃ bodyCode, (method.scope className).EmitsAll method.instrs bodyCode ∧
      code = bodyCode ++ method.impliedReturn := by
  rw [Method.code, bind_eq_ok_iff] at generated
  rcases generated with ⟨parts, partsGenerated, generated⟩
  cases generated
  exact ⟨parts.flatten, Scope.emitsAll_of_parts partsGenerated, rfl⟩

/-- Whatever is in the code belongs to a statement, or is the return that the body leaves out. -/
theorem Method.exists_part_of_mem_code {method : Method} {className : String}
    {code : List MachineInstr} {machineInstr : MachineInstr}
    (generated : method.code className = .ok code) (member : machineInstr ∈ code) :
    (∃ instr ∈ method.instrs, ∃ part,
      (method.scope className).statementCode instr = .ok part ∧ machineInstr ∈ part) ∨
      machineInstr = .retVoid := by
  rw [Method.code, bind_eq_ok_iff] at generated
  rcases generated with ⟨parts, partsGenerated, generated⟩
  cases generated
  rw [Scope.bodyParts_eq_ok_iff] at partsGenerated
  rcases List.mem_append.1 member with inBody | isReturn
  · rcases List.mem_flatten.1 inBody with ⟨part, isPart, inside⟩
    have generatedPart : .ok part ∈ method.instrs.map (method.scope className).statementCode :=
      partsGenerated ▸ List.mem_map_of_mem isPart
    rcases List.mem_map.1 generatedPart with ⟨instr, isInstr, instrGenerated⟩
    exact .inl ⟨instr, isInstr, part, instrGenerated, inside⟩
  · unfold impliedReturn at isReturn
    split at isReturn
    · exact .inr (List.mem_singleton.1 isReturn)
    · exact absurd isReturn List.not_mem_nil

end Stackwright
