import Stackwright.Code.Instr

/-!
Contract: the variables of instructions.

Owns:
- the operands that an instruction evaluates, in order;
- the variable that is read for an operand, and whether the receiver is;
- the variable that an instruction assigns.

A class that a static call addresses is no operand, and neither is the value of a
`void` return.
-/

namespace Stackwright

/-- The variable that is read for an operand. A variable of the receiver type is not
read, because it denotes the receiver. -/
def Operand.variable? : Operand → Option String
  | .variable name ty => if ty = .receiver then none else some name
  | .literal _ _ | .receiver => none

def Operand.IsReceiver : Operand → Prop
  | .variable _ ty => ty = .receiver
  | .receiver => True
  | .literal _ _ => False

instance (operand : Operand) : Decidable operand.IsReceiver :=
  match operand with
  | .variable _ ty => inferInstanceAs (Decidable (ty = .receiver))
  | .receiver => .isTrue trivial
  | .literal _ _ => .isFalse id

namespace Instr

/-- The operands that an instruction evaluates. -/
def operands : Instr → List Operand
  | .assign _ source => source.operands
  | .single operand => [operand]
  | .binary _ left right _ => [left, right]
  | .ret ty value? => if ty = .void then [] else value?.toList
  | .call invocation =>
    if invocation.kind = .virtual then invocation.target :: invocation.args else invocation.args
  | .putField place value => [place.object, value]
  | .getField place => [place.object]

theorem mem_operands_of_mem_args {call : Call} {arg : Operand} (member : arg ∈ call.args) :
    arg ∈ (Instr.call call).operands := by
  rw [operands]
  split
  · exact List.mem_cons_of_mem call.target member
  · exact member

/-- The instruction makes no object: it neither allocates one nor calls a constructor. -/
def MakesNoObject : Instr → Prop
  | .assign _ source => source.MakesNoObject
  | .call invocation => invocation.kind ≠ .allocate ∧ invocation.kind ≠ .special
  | .single _ | .binary _ _ _ _ | .ret _ _ | .putField _ _ | .getField _ => True

/-- Whether an instruction makes an object, by the instruction that it assigns. -/
def decideMakesNoObject : (instr : Instr) → Decidable instr.MakesNoObject
  | .assign _ source => source.decideMakesNoObject
  | .call invocation =>
    inferInstanceAs (Decidable (invocation.kind ≠ .allocate ∧ invocation.kind ≠ .special))
  | .single _ | .binary _ _ _ _ | .ret _ _ | .putField _ _ | .getField _ => .isTrue trivial

instance (instr : Instr) : Decidable instr.MakesNoObject :=
  instr.decideMakesNoObject

def assigned? : Instr → Option String
  | .assign (.variable name _) _ => some name
  | _ => none

end Instr

def assignedNames (instrs : List Instr) : List String :=
  instrs.filterMap Instr.assigned?

def readNames (instrs : List Instr) : List String :=
  instrs.flatMap fun instr => instr.operands.filterMap Operand.variable?

def ReadsReceiver (instrs : List Instr) : Prop :=
  ∃ instr ∈ instrs, ∃ operand ∈ instr.operands, operand.IsReceiver

instance (instrs : List Instr) : Decidable (ReadsReceiver instrs) :=
  inferInstanceAs (Decidable (∃ instr ∈ instrs, ∃ operand ∈ instr.operands, operand.IsReceiver))

/-- The variables of instructions. -/
def usedNames (instrs : List Instr) : List String :=
  readNames instrs ++ assignedNames instrs

/-- Some instruction evaluates the operand. -/
def Evaluates (instrs : List Instr) (operand : Operand) : Prop :=
  ∃ instr ∈ instrs, operand ∈ instr.operands

theorem mem_usedNames_of_assigned {instrs : List Instr} {name : String}
    (assigned : name ∈ assignedNames instrs) : name ∈ usedNames instrs :=
  List.mem_append_right _ assigned

theorem Evaluates.mem_usedNames {instrs : List Instr} {operand : Operand} {name : String}
    (evaluates : Evaluates instrs operand) (reads : operand.variable? = some name) :
    name ∈ usedNames instrs := by
  rcases evaluates with ⟨instr, member, isOperand⟩
  apply List.mem_append_left
  exact List.mem_flatMap.2 ⟨instr, member, List.mem_filterMap.2 ⟨operand, isOperand, reads⟩⟩

theorem Evaluates.readsReceiver {instrs : List Instr} {operand : Operand}
    (evaluates : Evaluates instrs operand) (isReceiver : operand.IsReceiver) : ReadsReceiver instrs := by
  rcases evaluates with ⟨instr, member, isOperand⟩
  exact ⟨instr, member, operand, isOperand, isReceiver⟩

@[simp] theorem assignedNames_append (first second : List Instr) :
    assignedNames (first ++ second) = assignedNames first ++ assignedNames second :=
  List.filterMap_append

@[simp] theorem assignedNames_assign (name : String) (ty : Ty) (source : Instr) :
    assignedNames [.assign (.variable name ty) source] = [name] := rfl

end Stackwright
