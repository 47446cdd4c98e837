import Stackwright.Proofs.Generation.Depth
import Stackwright.Proofs.Machine.Height
import Stackwright.Proofs.Semantics.Instr

/-!
Contract: what statements leave on the operand stack, and what they take from it.

Owns:
- the statements that leave a value behind, and those that take an object that lies there;
- the height of each statement's code: it takes at most one value that it has not put there
  itself, and leaves at most one;
- the depth of a body at every point, by counting its statements.

A value is left on purpose in two places only: an operand that stands as a statement is not
popped, and an allocation keeps a second copy of the object for the constructor call.
-/

namespace Stackwright

namespace Instr

/-- The instruction is a call of the given kind. -/
def isCallOf (kind : CallKind) : Instr → Bool
  | .call invocation => invocation.kind = kind
  | .assign _ _ | .single _ | .binary _ _ _ _ | .ret _ _ | .putField _ _ | .getField _ => false

/-- As a statement, the instruction leaves a value: it is an operand, or it assigns a new
object. -/
def leavesValue : Instr → Bool
  | .single _ => true
  | .assign _ source => source.isCallOf .allocate
  | .call _ | .binary _ _ _ _ | .ret _ _ | .putField _ _ | .getField _ => false

/-- The instruction is a constructor call, or assigns the result of one. -/
def takesObject : Instr → Bool
  | .assign _ source => source.isCallOf .special
  | .call invocation => invocation.kind = .special
  | .single _ | .binary _ _ _ _ | .ret _ _ | .putField _ _ | .getField _ => false

/-- A constructor call leaves nothing, whether its result is dropped or stored. -/
theorem leavesValue_of_takesObject {instr : Instr} (takes : instr.takesObject = true) :
    instr.leavesValue = false := by
  cases instr with
  | assign target source =>
    cases source with
    | call invocation =>
      have special : invocation.kind = .special := of_decide_eq_true takes
      exact decide_eq_false (by simp [special])
    | assign | single | binary | ret | putField | getField => rfl
  | call => rfl
  | single | binary | ret | putField | getField => cases takes

end Instr

namespace Scope

variable {scope : Scope}

/-! ### Heights of the parts of a statement -/

theorem Loads.heightAfter? {operand : Operand} {load : MachineInstr} (loads : scope.Loads operand load)
    (height : Nat) (rest : List MachineInstr) :
    heightAfter? height (load :: rest) = heightAfter? (height + 1) rest := by
  cases loads with
  | literal | receiver | «variable» => exact heightAfter?_cons _ rest height

theorem LoadsAll.heightAfter? {operands : List Operand} {loads : List MachineInstr}
    (loadsAll : scope.LoadsAll operands loads) (height : Nat) (rest : List MachineInstr) :
    heightAfter? height (loads ++ rest) = heightAfter? (height + operands.length) rest := by
  induction loadsAll generalizing height with
  | nil => rfl
  | @cons operand operands load loads loadsFirst loadsRest inductionHypothesis =>
    rw [List.cons_append, loadsFirst.heightAfter?, inductionHypothesis, List.length_cons,
      Nat.add_assoc, Nat.add_comm 1]

/-- A call takes its arguments, and the object below them if it has one. -/
theorem heightAfter?_invoke (call : Call) (owner name descriptor : String) (height : Nat) :
    heightAfter? (height + (if call.kind.hasReceiver then 1 else 0) + call.args.length)
        [.invoke (call.invocation owner name descriptor)] =
      some (height + (if call.result = .void then 0 else 1)) := by
  have invokes := heightAfter?_cons (.invoke (call.invocation owner name descriptor)) [] height
  rw [MachineInstr.takes, ← Nat.add_assoc] at invokes
  refine invokes.trans ?_
  by_cases void : call.result = .void <;> simp [heightAfter?, MachineInstr.puts, Call.invocation, void]

/-- A call leaves its result. An allocation leaves the object twice, and a constructor call
takes the object it is for from below its arguments. -/
theorem Calls.heightAfter? {call : Call} {code : List MachineInstr} (calls : scope.Calls call code) :
    heightAfter? (if call.kind = .special then 1 else 0) code =
      some (if call.kind = .allocate then 2 else if call.result = .void then 0 else 1) := by
  cases calls with
  | allocate kind =>
    rw [kind]
    rfl
  | @special owner descriptor loads kind described loadsArgs =>
    have invokes := heightAfter?_invoke call owner "<init>" descriptor 0
    rw [kind] at invokes ⊢
    rw [loadsArgs.heightAfter?]
    simpa [CallKind.hasReceiver] using invokes
  | @virtual owner name descriptor load loads kind owned named described loadsTarget loadsArgs =>
    have invokes := heightAfter?_invoke call owner name descriptor 0
    rw [kind] at invokes ⊢
    rw [loadsTarget.heightAfter?, loadsArgs.heightAfter?]
    simpa [CallKind.hasReceiver] using invokes
  | @static owner name descriptor loads kind owned named described loadsArgs =>
    have invokes := heightAfter?_invoke call owner name descriptor 0
    rw [kind] at invokes ⊢
    rw [loadsArgs.heightAfter?]
    simpa [CallKind.hasReceiver] using invokes

/-- The code of an assigned value leaves one value, and the copy of a new object. -/
theorem Yields.heightAfter? {instr : Instr} {code : List MachineInstr} (yields : scope.Yields instr code) :
    heightAfter? (if instr.isCallOf .special then 1 else 0) code =
      some ((if instr.isCallOf .allocate then 1 else 0) + 1) := by
  cases yields with
  | single loads => exact loads.heightAfter? 0 []
  | @binary operator left right ty leftLoad rightLoad instr computes loadsLeft loadsRight =>
    refine (loadsLeft.heightAfter? 0 _).trans ((loadsRight.heightAfter? 1 _).trans ?_)
    cases operator with
    | less => cases computes
    | add | sub | mul | div | and =>
      cases computes
      rfl
  | @call invocation code ty leaves calls =>
    have height := calls.heightAfter?
    simp only [Instr.isCallOf, decide_eq_true_eq]
    rw [height]
    by_cases allocates : invocation.kind = .allocate
    · rw [if_pos allocates, if_pos allocates]
    · have notVoid := Call.result_ne_void_of_resultType allocates leaves
      rw [if_neg allocates, if_neg allocates, if_neg notVoid]
  | getField loadsObject owned denotes => exact loadsObject.heightAfter? 0 _

/-- The code of a statement takes an object that lies on the stack, or nothing; it leaves one
value, or nothing. -/
theorem Emits.heightAfter? {instr : Instr} {code : List MachineInstr} (emits : scope.Emits instr code) :
    heightAfter? (if instr.takesObject then 1 else 0) code = some (if instr.leavesValue then 1 else 0) := by
  cases emits with
  | assign yields bound notReceiver hasKind =>
    exact heightAfter?_append yields.heightAfter?
  | single loads => exact loads.heightAfter? 0 []
  | retVoid value? => rfl
  | ret hasKind loads => exact loads.heightAfter? 0 _
  | @call invocation code notAllocate calls =>
    have height := calls.heightAfter?
    rw [if_neg notAllocate] at height
    simp only [Instr.takesObject, Instr.leavesValue, decide_eq_true_eq]
    rw [heightAfter?_append height]
    by_cases void : invocation.result = .void
    · rw [if_pos void, if_pos void]
      rfl
    · rw [if_neg void, if_neg void]
      rfl
  | putField owned denotes loadsObject loadsValue =>
    exact (loadsObject.heightAfter? 0 _).trans (loadsValue.heightAfter? 1 _)

/-! ### Depths of bodies -/

theorem Emits.countable {instr : Instr} {code : List MachineInstr} (emits : scope.Emits instr code)
    (small : ∀ call, instr.call? = some call → call.args.length < 0x80000000) :
    ∀ machineInstr ∈ code, machineInstr.Countable := by
  refine Emits.forall_mem ?_ emits ?_ ?_
  · intro machineInstr isPlain
    cases machineInstr with
    | invoke => exact isPlain.elim
    | _ => trivial
  · intro _ machineInstr isReturn
    cases machineInstr with
    | invoke => exact isReturn.elim
    | _ => trivial
  · exact fun call _ _ _ made _ _ => small call made

/-- A statement changes the depth by what it leaves less what it takes. -/
theorem Emits.depthAfter_eq {instr : Instr} {code : List MachineInstr} (emits : scope.Emits instr code)
    (small : ∀ call, instr.call? = some call → call.args.length < 0x80000000) :
    depthAfter code = (if instr.leavesValue then 1 else 0) - (if instr.takesObject then 1 else 0) := by
  rw [depthAfter_of_heightAfter? (emits.countable small) emits.heightAfter?]
  split <;> split <;> rfl

end Scope

/-- How many values statements leave, less how many they take. -/
def stackBalance (instrs : List Instr) : Int :=
  instrs.countP Instr.leavesValue - instrs.countP Instr.takesObject

theorem stackBalance_cons (instr : Instr) (rest : List Instr) :
    stackBalance (instr :: rest) =
      (if instr.leavesValue then 1 else 0) - (if instr.takesObject then 1 else 0) + stackBalance rest := by
  simp only [stackBalance, List.countP_cons]
  split <;> split <;> omega

/-- The calls of the statements have few enough arguments to be counted. -/
def FewArguments (instrs : List Instr) : Prop :=
  ∀ call ∈ instrs.filterMap Instr.call?, call.args.length < 0x80000000

theorem FewArguments.of_mem {instrs : List Instr} (few : FewArguments instrs) {instr : Instr}
    (member : instr ∈ instrs) {call : Call} (made : instr.call? = some call) :
    call.args.length < 0x80000000 :=
  few call (List.mem_filterMap.2 ⟨instr, member, made⟩)

theorem FewArguments.of_subset {instrs fewer : List Instr} (few : FewArguments instrs)
    (subset : fewer ⊆ instrs) : FewArguments fewer := by
  intro call member
  rcases List.mem_filterMap.1 member with ⟨instr, isInstr, made⟩
  exact few.of_mem (subset isInstr) made

/-- Some of the parts are a prefix of all of them put together. -/
theorem take_length_flatten_take {α : Type} (parts : List (List α)) (rest : List α) (count : Nat) :
    (parts.flatten ++ rest).take (parts.take count).flatten.length = (parts.take count).flatten := by
  have split : parts.flatten = (parts.take count).flatten ++ (parts.drop count).flatten := by
    rw [← List.flatten_append, List.take_append_drop]
  rw [split, List.append_assoc, List.take_left]

namespace Scope

variable {scope : Scope} {instrs : List Instr} {parts : List (List MachineInstr)}

theorem depthAfter_parts (generated : instrs.map scope.statementCode = parts.map .ok)
    (few : FewArguments instrs) : depthAfter parts.flatten = stackBalance instrs := by
  induction instrs generalizing parts with
  | nil =>
    cases parts with
    | nil => rfl
    | cons part rest => cases generated
  | cons instr rest inductionHypothesis =>
    cases parts with
    | nil => cases generated
    | cons code restParts =>
      rcases List.cons.inj generated with ⟨instrGenerated, restGenerated⟩
      have ofInstr := (emits_of_statementCode instrGenerated).depthAfter_eq
        fun call made => few.of_mem List.mem_cons_self made
      rw [List.flatten_cons, depthAfter_append, stackBalance_cons, ofInstr,
        inductionHypothesis restGenerated (few.of_subset (List.subset_cons_self instr rest))]

/-- A body has the values that it takes if no prefix of it takes more than it leaves and than
were there before. -/
theorem exists_heightAfter?_parts (generated : instrs.map scope.statementCode = parts.map .ok)
    {height : Nat} (enough : ∀ count, (instrs.take count).countP Instr.takesObject ≤
      height + (instrs.take count).countP Instr.leavesValue) :
    ∃ high, heightAfter? height parts.flatten = some high := by
  induction instrs generalizing parts height with
  | nil =>
    cases parts with
    | nil => exact ⟨height, rfl⟩
    | cons part rest => cases generated
  | cons instr rest inductionHypothesis =>
    cases parts with
    | nil => cases generated
    | cons code restParts =>
      rcases List.cons.inj generated with ⟨instrGenerated, restGenerated⟩
      have ofInstr := (emits_of_statementCode instrGenerated).heightAfter?
      -- What the statement takes is there: it is a prefix itself, and leaves nothing if it takes.
      have taken : (if instr.takesObject then 1 else 0) ≤ height := by
        have alone := enough 1
        simp only [List.take_succ_cons, List.take_zero, List.countP_cons, List.countP_nil] at alone
        by_cases takes : instr.takesObject = true
        · have leavesNothing : instr.leavesValue = false := Instr.leavesValue_of_takesObject takes
          rw [leavesNothing] at alone
          simpa using alone
        · rw [if_neg takes]
          exact Nat.zero_le height
      have lifts := heightAfter?_add ofInstr (height - (if instr.takesObject then 1 else 0))
      rw [Nat.add_sub_cancel' taken] at lifts
      rw [List.flatten_cons, heightAfter?_append lifts]
      apply inductionHypothesis restGenerated
      intro count
      have longer := enough (count + 1)
      simp only [List.take_succ_cons, List.countP_cons] at longer
      omega

theorem countable_parts (generated : instrs.map scope.statementCode = parts.map .ok)
    (few : FewArguments instrs) : ∀ machineInstr ∈ parts.flatten, machineInstr.Countable := by
  intro machineInstr member
  rcases List.mem_flatten.1 member with ⟨code, isPart, inside⟩
  have generatedCode : .ok code ∈ instrs.map scope.statementCode :=
    generated ▸ List.mem_map_of_mem isPart
  rcases List.mem_map.1 generatedCode with ⟨instr, isInstr, instrGenerated⟩
  exact (emits_of_statementCode instrGenerated).countable
    (fun call made => few.of_mem isInstr made) machineInstr inside

end Scope

theorem Method.heightAfter?_impliedReturn (method : Method) (height : Nat) :
    heightAfter? height method.impliedReturn = some height := by
  unfold impliedReturn
  split <;> rfl

theorem Method.countable_impliedReturn (method : Method) :
    ∀ machineInstr ∈ method.impliedReturn, machineInstr.Countable := by
  unfold impliedReturn
  split
  · exact List.forall_mem_singleton.2 trivial
  · exact List.forall_mem_nil _

/-- The lowest depth inside code that comes after other code, its start and its end included. -/
structure IsLowestInside (before code : List MachineInstr) (lowest : Int) : Prop where
  reached : ∃ count, depthAfter (before ++ code.take count) = lowest
  bounds : ∀ count, lowest ≤ depthAfter (before ++ code.take count)

/-- The depth inside a statement never falls below where it was before, unless the statement
takes an object, which is then the only value that it takes. -/
theorem Scope.Emits.isLowestInside {scope : Scope} {instr : Instr} {code : List MachineInstr}
    (emits : scope.Emits instr code)
    (small : ∀ call, instr.call? = some call → call.args.length < 0x80000000)
    (before : List MachineInstr) :
    IsLowestInside before code (depthAfter before - (if instr.takesObject then 1 else 0)) where
  reached := by
    by_cases takes : instr.takesObject = true
    · have whole := emits.depthAfter_eq small
      rw [Instr.leavesValue_of_takesObject takes, takes] at whole
      refine ⟨code.length, ?_⟩
      rw [List.take_length, depthAfter_append, whole, takes]
      rfl
    · refine ⟨0, ?_⟩
      rw [List.take_zero, List.append_nil, if_neg takes, Int.sub_zero]
  bounds count := by
    have inside := neg_le_depthAfter_take (emits.countable small) emits.heightAfter? count
    rw [depthAfter_append]
    split at inside <;> split <;> omega

/-- Where values are left before objects are taken, there is nothing to take from below. -/
theorem Method.nonneg_depthAfter (method : Method) {className : String} {parts : List (List MachineInstr)}
    (generated : method.instrs.map (method.scope className).statementCode = parts.map .ok)
    (few : FewArguments method.instrs)
    (enough : ∀ count, (method.instrs.take count).countP Instr.takesObject ≤
      (method.instrs.take count).countP Instr.leavesValue) (count : Nat) :
    0 ≤ depthAfter ((parts.flatten ++ method.impliedReturn).take count) := by
  have enoughFromNothing (count : Nat) : (method.instrs.take count).countP Instr.takesObject ≤
      0 + (method.instrs.take count).countP Instr.leavesValue := by
    rw [Nat.zero_add]
    exact enough count
  rcases Scope.exists_heightAfter?_parts generated enoughFromNothing with ⟨high, lifts⟩
  have countable : ∀ instr ∈ parts.flatten ++ method.impliedReturn, instr.Countable :=
    List.forall_mem_append.2 ⟨Scope.countable_parts generated few, method.countable_impliedReturn⟩
  have lowest := neg_le_depthAfter_take countable
    ((heightAfter?_append lifts).trans (method.heightAfter?_impliedReturn high)) count
  omega

/-- The stack balance of a body whose statements have the parts as their code. -/
structure Method.Balances (method : Method) (className : String) (parts : List (List MachineInstr)) :
    Prop where
  /-- The first statements alone have the first parts as their code. -/
  prefixes : ∀ count, (method.scope className).bodyParts method.name (method.instrs.take count) =
    .ok (parts.take count)
  /-- After any number of statements, the depth is their balance. -/
  depth : ∀ count, depthAfter (parts.take count).flatten = stackBalance (method.instrs.take count)
  /-- Inside a statement the depth falls by one where an object is taken, and not otherwise. -/
  inside : ∀ index instr code, method.instrs[index]? = some instr → parts[index]? = some code →
    IsLowestInside (parts.take index).flatten code
      (depthAfter (parts.take index).flatten - (if instr.takesObject then 1 else 0))
  /-- The depth is never negative if no more objects are taken than values were left before. -/
  nonneg_iff :
    (∀ count, 0 ≤ depthAfter ((parts.flatten ++ method.impliedReturn).take count)) ↔
      ∀ count, (method.instrs.take count).countP Instr.takesObject ≤
        (method.instrs.take count).countP Instr.leavesValue

/-- Whatever is accepted has an exact stack balance: operands that stand as statements and new
objects that are assigned are left on the stack, constructor calls take one value each, and no
other statement changes the depth. -/
theorem Method.code_balances {method : Method} {className : String} {code : List MachineInstr}
    (accepted : method.code className = .ok code) (few : FewArguments method.instrs) :
    ∃ parts, code = parts.flatten ++ method.impliedReturn ∧ method.Balances className parts := by
  rw [Method.code, bind_eq_ok_iff] at accepted
  rcases accepted with ⟨parts, partsGenerated, generated⟩
  cases generated
  have statementsGenerated := Scope.bodyParts_eq_ok_iff.1 partsGenerated
  have prefixGenerated (count : Nat) : (method.instrs.take count).map (method.scope className).statementCode =
      (parts.take count).map .ok := by
    rw [List.map_take, List.map_take, statementsGenerated]
  have depth (count : Nat) :
      depthAfter (parts.take count).flatten = stackBalance (method.instrs.take count) :=
    Scope.depthAfter_parts (prefixGenerated count) (few.of_subset (List.take_subset count method.instrs))
  refine ⟨parts, rfl, fun count => Scope.bodyParts_eq_ok_iff.2 (prefixGenerated count), depth, ?_, ?_⟩
  · intro index instr code found foundCode
    have generated : (method.scope className).statementCode instr = .ok code := by
      have same := congrArg (·[index]?) statementsGenerated
      simpa [found, foundCode] using same
    exact (Scope.emits_of_statementCode generated).isLowestInside
      (fun call made => few.of_mem (List.mem_of_getElem? found) made) _
  · constructor
    · intro nonneg count
      have atPrefix := nonneg (parts.take count).flatten.length
      rw [take_length_flatten_take, depth, stackBalance] at atPrefix
      omega
    · exact method.nonneg_depthAfter statementsGenerated few

/-- An allocation of an object of a class, kept in a variable. -/
def Instr.allocate (name className : String) : Instr :=
  .assign (.variable name (.classRef className)) (.call
    { kind := .allocate, target := .variable className (.classRef className), method? := none,
      args := [], result := .classRef className })

/-- The constructor call for an object that was allocated. -/
def Instr.construct (name className : String) (args : List Operand) : Instr :=
  .call
    { kind := .special, target := .variable name (.classRef className), method? := none, args,
      result := .void }

/-- Makes a box with a new point inside. The point is constructed while the box waits for its
own constructor call. -/
def boxedPointInstrs : List Instr :=
  [.allocate "box" "Box", .allocate "point" "Point",
    .assign (.variable "y" .int) (.binary .add (.variable "x" .int) (.int 1) .int),
    .construct "point" "Point" [.variable "x" .int, .variable "y" .int],
    .construct "box" "Box" [.variable "point" (.classRef "Point")]]

/-- Makes a boxed point, and leaves a number on the stack. -/
def boxPointMethod : Method where
  name := "boxPoint"
  params := [⟨"x", .int⟩]
  result := .void
  instrs := boxedPointInstrs ++ [.single (.variable "x" .int)]
  table := FrameTable.layout false [⟨"x", .int⟩]
    [⟨"box", .classRef "Box"⟩, ⟨"point", .classRef "Point"⟩, ⟨"y", .int⟩]

/-- The code of each of the statements that make a boxed point. -/
def boxedPointParts : List (List MachineInstr) :=
  [[.new "Box", .dup, .store .reference 2], [.new "Point", .dup, .store .reference 3],
    [.load .int 1, .ldc "1", .iadd, .store .int 4],
    [.load .int 1, .load .int 4, .invoke
      { kind := .special, owner := "Point", name := "<init>", descriptor := "(II)V", argCount := 2,
        hasReceiver := true, returnsValue := false }],
    [.load .reference 3, .invoke
      { kind := .special, owner := "Box", name := "<init>", descriptor := "(LPoint;)V", argCount := 1,
        hasReceiver := true, returnsValue := false }]]

def boxPointParts : List (List MachineInstr) :=
  boxedPointParts ++ [[.load .int 1]]

/-- The code of the whole method, whose return is implied. -/
def boxPointCode : List MachineInstr :=
  boxPointParts.flatten ++ [.retVoid]

theorem Method.code_balances_of_boxPoint :
    boxPointMethod.code "Main" = .ok boxPointCode ∧ FewArguments boxPointMethod.instrs ∧
      ∃ parts, boxPointCode = parts.flatten ++ boxPointMethod.impliedReturn ∧
        boxPointMethod.Balances "Main" parts := by
  have parts : (boxPointMethod.scope "Main").bodyParts boxPointMethod.name boxPointMethod.instrs =
      .ok boxPointParts := Scope.bodyParts_eq_ok_iff.2 rfl
  have accepted : boxPointMethod.code "Main" = .ok boxPointCode := by
    rw [Method.code, parts]
    rfl
  have few : FewArguments boxPointMethod.instrs := by
    unfold FewArguments
    decide
  exact ⟨accepted, few, Method.code_balances accepted few⟩

/-- Both objects are taken again, so only the number is left. -/
example : stackBalance boxPointMethod.instrs = 1 := by decide

end Stackwright
