import Stackwright.Member.Method
import Stackwright.Proofs.Frame.Layout

/-!
Contract: methods that are built step by step.

Owns:
- the steps that change a method after its declaration, and runs of them;
- each part of a built method is what its own steps have last made of it;
- the table of a built method follows its staticness, unless a table was supplied;
- the locals limit is then the parameter frame, unless parameters that share a name wrap around;
- the last table supplied is kept, with one exception: it cannot be told apart from the
  standard frame, and the method becomes static only later.

Whether a table was supplied is no part of a method. What makes a method static compares
tables instead, so the exception rests on the order of steps.
-/

namespace Stackwright

/-- A change of a method that has been declared. -/
inductive BuildStep where
  | setAccess (access : Access)
  | makeStatic
  | supplyTable (table : FrameTable)
  | addInstr (instr : Instr)
  | addInstrs (instrs : List Instr)
  | setFinal (isFinal : Bool)
  | setConstructor (isConstructor : Bool)

namespace BuildStep

/-- The access that a step sets. -/
def access? : BuildStep → Option Access
  | .setAccess access => some access
  | .makeStatic | .supplyTable _ | .addInstr _ | .addInstrs _ | .setFinal _ | .setConstructor _ => none

def isFinal? : BuildStep → Option Bool
  | .setFinal isFinal => some isFinal
  | .setAccess _ | .makeStatic | .supplyTable _ | .addInstr _ | .addInstrs _ | .setConstructor _ => none

def isConstructor? : BuildStep → Option Bool
  | .setConstructor isConstructor => some isConstructor
  | .setAccess _ | .makeStatic | .supplyTable _ | .addInstr _ | .addInstrs _ | .setFinal _ => none

/-- The instructions that a step appends. -/
def appended : BuildStep → List Instr
  | .addInstr instr => [instr]
  | .addInstrs instrs => instrs
  | .setAccess _ | .makeStatic | .supplyTable _ | .setFinal _ | .setConstructor _ => []

end BuildStep

namespace Method

/-- A method after a step. -/
def step (method : Method) : BuildStep → Method
  | .setAccess access => method.withAccess access
  | .makeStatic => method.toStatic
  | .supplyTable table => method.withTable table
  | .addInstr instr => method.append [instr]
  | .addInstrs instrs => method.append instrs
  | .setFinal isFinal => method.withFinal isFinal
  | .setConstructor isConstructor => method.withConstructor isConstructor

/-- A method after several steps. -/
def build (method : Method) : List BuildStep → Method
  | [] => method
  | step :: rest => (method.step step).build rest

theorem build_append (method : Method) (first second : List BuildStep) :
    method.build (first ++ second) = (method.build first).build second := by
  induction first generalizing method with
  | nil => rfl
  | cons step rest inductionHypothesis => exact inductionHypothesis (method.step step)

/-! ### Parts that are set -/

/-- A part that is changed by its own steps alone is what they have set last. -/
theorem part_build {Part : Type} (part : Method → Part) (set? : BuildStep → Option Part)
    (changes : ∀ method step, part (method.step step) = (set? step).getD (part method))
    (method : Method) (steps : List BuildStep) :
    part (method.build steps) = (steps.filterMap set?).getLastD (part method) := by
  induction steps generalizing method with
  | nil => rfl
  | cons step rest inductionHypothesis =>
    rw [build, inductionHypothesis, changes]
    cases sets : set? step with
    | none => rw [List.filterMap_cons_none sets, Option.getD_none]
    | some value => rw [List.filterMap_cons_some sets, Option.getD_some, List.getLastD_cons]

/-- A part that no step changes stays as declared. -/
theorem part_build_eq {Part : Type} (part : Method → Part)
    (keeps : ∀ method step, part (method.step step) = part method) (method : Method)
    (steps : List BuildStep) : part (method.build steps) = part method := by
  have built := part_build part (fun _ => none) keeps method steps
  rwa [List.filterMap_none] at built

/-- A step leaves the parameters alone. -/
theorem params_build (method : Method) (steps : List BuildStep) :
    (method.build steps).params = method.params :=
  part_build_eq Method.params (fun _ step => by cases step <;> rfl) method steps

/-- A method is static from the first step on that makes it so. -/
theorem isStatic_build (method : Method) (steps : List BuildStep) :
    (method.build steps).isStatic = true ↔ method.isStatic = true ∨ .makeStatic ∈ steps := by
  induction steps generalizing method with
  | nil => simp [build]
  | cons step rest inductionHypothesis =>
    rw [build, inductionHypothesis, List.mem_cons]
    cases step with
    | makeStatic => simp [step, toStatic, isStatic]
    | setAccess | supplyTable | addInstr | addInstrs | setFinal | setConstructor =>
      simp [step, withAccess, withTable, append, withFinal, withConstructor, isStatic]

theorem instrs_build (method : Method) (steps : List BuildStep) :
    (method.build steps).instrs = method.instrs ++ (steps.map BuildStep.appended).flatten := by
  induction steps generalizing method with
  | nil => rw [build, List.map_nil, List.flatten_nil, List.append_nil]
  | cons step rest inductionHypothesis =>
    have appends : (method.step step).instrs = method.instrs ++ step.appended := by
      cases step with
      | addInstr | addInstrs => rfl
      | setAccess | makeStatic | supplyTable | setFinal | setConstructor =>
        exact (List.append_nil method.instrs).symm
    rw [build, inductionHypothesis, appends, List.map_cons, List.flatten_cons, List.append_assoc]

/-! ### The table -/

/-- The table of a method is the standard one of an instance method, and steps make the method
static that was none before. -/
def IsRelaid (method : Method) (steps : List BuildStep) : Prop :=
  method.isStatic = false ∧ method.table.Agrees (method.standardTable false) ∧ .makeStatic ∈ steps

theorem standardTable_step (method : Method) (step : BuildStep) (isStatic : Bool) :
    (method.step step).standardTable isStatic = method.standardTable isStatic := by
  cases step <;> rfl

section OtherSteps

variable {step : BuildStep} (notStatic : step ≠ .makeStatic)
  (suppliesNone : ∀ table, step ≠ .supplyTable table)

include notStatic suppliesNone

/-- The other steps leave the table alone. -/
theorem table_step (method : Method) : (method.step step).table = method.table := by
  cases step with
  | makeStatic => exact absurd rfl notStatic
  | supplyTable table => exact absurd rfl (suppliesNone table)
  | setAccess | addInstr | addInstrs | setFinal | setConstructor => rfl

theorem isRelaid_cons (method : Method) (rest : List BuildStep) :
    method.IsRelaid (step :: rest) ↔ (method.step step).IsRelaid rest := by
  have keepsStaticness : (method.step step).isStatic = method.isStatic := by
    cases step with
    | makeStatic => exact absurd rfl notStatic
    | supplyTable | setAccess | addInstr | addInstrs | setFinal | setConstructor => rfl
  rw [IsRelaid, IsRelaid, keepsStaticness, table_step notStatic suppliesNone, standardTable_step,
    List.mem_cons, or_iff_right notStatic.symm]

end OtherSteps

/-- Steps that supply no table change it only where they make an instance method static whose
table is the standard one. -/
theorem table_build (method : Method) {steps : List BuildStep}
    (suppliesNone : ∀ table, .supplyTable table ∉ steps) :
    (method.IsRelaid steps → (method.build steps).table = method.standardTable true) ∧
    (¬method.IsRelaid steps → (method.build steps).table = method.table) := by
  induction steps generalizing method with
  | nil => exact ⟨fun relaid => absurd relaid.2.2 List.not_mem_nil, fun _ => rfl⟩
  | cons step rest inductionHypothesis =>
    have restSuppliesNone (table : FrameTable) : .supplyTable table ∉ rest :=
      fun member => suppliesNone table (List.mem_cons_of_mem step member)
    by_cases makesStatic : step = .makeStatic
    · subst makesStatic
      -- the method is static from here on, so only this step can change the table
      have kept : (method.build (.makeStatic :: rest)).table = method.toStatic.table :=
        (inductionHypothesis method.toStatic restSuppliesNone).2 fun relaid => Bool.noConfusion relaid.1
      have relaid : method.IsRelaid (.makeStatic :: rest) ↔
          method.isStatic = false ∧ method.table.Agrees (method.standardTable false) := by
        rw [IsRelaid, and_iff_left List.mem_cons_self]
      rw [relaid, kept]
      exact ⟨fun standard => if_pos standard, fun other => if_neg other⟩
    · have stepSuppliesNone (table : FrameTable) : step ≠ .supplyTable table := by
        rintro rfl
        exact suppliesNone table List.mem_cons_self
      rw [isRelaid_cons makesStatic stepSuppliesNone, ← standardTable_step method step,
        ← table_step makesStatic stepSuppliesNone method]
      exact inductionHypothesis (method.step step) restSuppliesNone

/-- The last table that steps supply, with the steps before and after. -/
structure SuppliesLast (steps before : List BuildStep) (table : FrameTable) (after : List BuildStep) :
    Prop where
  split : steps = before ++ .supplyTable table :: after
  isLast : ∀ other, .supplyTable other ∉ after

/-- A table is taken for the standard one of the parameters: it agrees with the standard frame of
an instance method, and all steps that make the method static come after it. -/
structure TakenForStandard (params : List Variable) (before : List BuildStep) (table : FrameTable)
    (after : List BuildStep) : Prop where
  agrees : table.Agrees (.layout false params [])
  notBefore : .makeStatic ∉ before
  isAfter : .makeStatic ∈ after

/-- A method is built from its declaration by steps: each part is what its own steps have made of
it, and the table follows the staticness of the method unless one was supplied. The locals limit
follows as long as the receiver and the parameters have slots enough or no parameters share a name. -/
structure BuiltBy (name : String) (params : List Variable) (result : Ty) (steps : List BuildStep)
    (built : Method) : Prop where
  name_eq : built.name = name
  params_eq : built.params = params
  result_eq : built.result = result
  access_eq : built.modifiers.access = (steps.filterMap BuildStep.access?).getLastD .packageAccess
  isFinal_eq : built.modifiers.isFinal = (steps.filterMap BuildStep.isFinal?).getLastD false
  isConstructor_eq : built.isConstructor = (steps.filterMap BuildStep.isConstructor?).getLastD false
  isStatic_iff : built.isStatic = true ↔ .makeStatic ∈ steps
  instrs_eq : built.instrs = (steps.map BuildStep.appended).flatten
  standardTable : (∀ table, .supplyTable table ∉ steps) →
    built.table = .layout built.isStatic params []
  standardLimit : (∀ table, .supplyTable table ∉ steps) →
    FrameTable.headSize built.isStatic params ≤ 65536 ∨ (params.map Variable.name).Nodup →
    built.localsLimit = built.paramSlots
  relaidTable : ∀ before table after, SuppliesLast steps before table after →
    TakenForStandard params before table after → built.table = .layout true params []
  suppliedTable : ∀ before table after, SuppliesLast steps before table after →
    ¬TakenForStandard params before table after → built.table = table

/-! ### Methods from their declaration -/

section Declared

variable (name : String) (params : List Variable) (result : Ty)

/-- Without a supplied table, the method has the standard one for its staticness. -/
theorem table_build_declare {steps : List BuildStep} (suppliesNone : ∀ table, .supplyTable table ∉ steps) :
    ((declare name params result).build steps).table =
      .layout ((declare name params result).build steps).isStatic params [] := by
  have built := (declare name params result).table_build suppliesNone
  by_cases becomesStatic : .makeStatic ∈ steps
  · rw [built.1 ⟨rfl, fun _ => rfl, becomesStatic⟩, (isStatic_build _ _).2 (.inr becomesStatic)]
    rfl
  · have isInstance : ((declare name params result).build steps).isStatic = false := by
      rw [← Bool.not_eq_true, isStatic_build]
      rintro (isDeclared | becomes)
      · cases isDeclared
      · exact becomesStatic becomes
    rw [built.2 fun relaid => becomesStatic relaid.2.2, isInstance]
    rfl

theorem standardTable_build {before : List BuildStep} {table : FrameTable} (isStatic : Bool) :
    (((declare name params result).build before).withTable table).standardTable isStatic =
      .layout isStatic params [] := by
  rw [standardTable, withTable, params_build, declare]

/-- A declared method with a table that was supplied after some steps is laid out again exactly if
the table is taken for the standard one. -/
theorem isRelaid_withTable_iff {before after : List BuildStep} {table : FrameTable} :
    (((declare name params result).build before).withTable table).IsRelaid after ↔
      TakenForStandard params before table after := by
  have isInstance : ((declare name params result).build before).isStatic = false ↔
      .makeStatic ∉ before := by
    rw [← Bool.not_eq_true, isStatic_build]
    simp [declare, isStatic]
  rw [IsRelaid, standardTable_build]
  constructor
  · rintro ⟨isStatic_eq, agrees, isAfter⟩
    exact ⟨agrees, isInstance.1 isStatic_eq, isAfter⟩
  · intro taken
    exact ⟨isInstance.2 taken.notBefore, taken.agrees, taken.isAfter⟩

end Declared

/-- Whatever the steps are and in whichever order, table and staticness stay in step. -/
theorem declare_builtBy (name : String) (params : List Variable) (result : Ty)
    (steps : List BuildStep) :
    BuiltBy name params result steps ((declare name params result).build steps) where
  name_eq := part_build_eq Method.name (fun _ step => by cases step <;> rfl) _ steps
  params_eq := params_build _ steps
  result_eq := part_build_eq Method.result (fun _ step => by cases step <;> rfl) _ steps
  access_eq :=
    part_build (fun method => method.modifiers.access) BuildStep.access?
      (fun _ step => by cases step <;> rfl) _ steps
  isFinal_eq :=
    part_build (fun method => method.modifiers.isFinal) BuildStep.isFinal?
      (fun _ step => by cases step <;> rfl) _ steps
  isConstructor_eq :=
    part_build Method.isConstructor BuildStep.isConstructor?
      (fun _ step => by cases step <;> rfl) _ steps
  isStatic_iff := by
    rw [isStatic_build]
    exact or_iff_right nofun
  instrs_eq := instrs_build _ steps
  standardTable := table_build_declare name params result
  standardLimit suppliesNone keeps := by
    have sameParams : ((declare name params result).build steps).params = params :=
      params_build _ steps
    have agree : ((declare name params result).build steps).table.Agrees
        (.layout ((declare name params result).build steps).isStatic
          ((declare name params result).build steps).params []) := by
      intro bound
      rw [table_build_declare name params result suppliesNone, sameParams]
    exact FrameTable.localsLimit_eq_paramSlots agree (by rwa [sameParams])
  relaidTable before table after supplies taken := by
    rw [supplies.split, build_append]
    exact ((table_build _ supplies.isLast).1 ((isRelaid_withTable_iff name params result).2 taken)).trans
      (standardTable_build name params result true)
  suppliedTable before table after supplies notTaken := by
    have notRelaid := (isRelaid_withTable_iff name params result).not.2 notTaken
    rw [supplies.split, build_append]
    exact (table_build _ supplies.isLast).2 notRelaid

/-- As many parameters as there are slots, and one more. All but the second have the same name, and
the last of these wraps around to the first slot. -/
def crowdedParams : List Variable :=
  [⟨"p", .int⟩, ⟨"q", .int⟩] ++ List.replicate 65535 ⟨"p", .int⟩

theorem maxSlot?_crowdedParams :
    (FrameTable.layout true crowdedParams []).maxSlot? = some 1 := by
  have atP : (FrameTable.layout true crowdedParams []).get? "p" = some ⟨0, .int⟩ := by
    have split : crowdedParams =
        ([⟨"p", .int⟩, ⟨"q", .int⟩] ++ List.replicate 65534 ⟨"p", .int⟩) ++ ⟨"p", .int⟩ :: [] := by
      rw [crowdedParams, List.replicate_succ', List.append_assoc]
    refine FrameTable.get?_layout_nil.2 (.inl ⟨_, ⟨_, _, _, split, rfl, List.not_mem_nil, rfl⟩, ?_⟩)
    rw [List.length_append, List.length_replicate]
    rfl
  have atQ : (FrameTable.layout true crowdedParams []).get? "q" = some ⟨1, .int⟩ := by
    have split : crowdedParams =
        [⟨"p", .int⟩] ++ ⟨"q", .int⟩ :: List.replicate 65535 ⟨"p", .int⟩ := rfl
    refine FrameTable.get?_layout_nil.2 (.inl ⟨_, ⟨_, _, _, split, rfl, ?_, rfl⟩, rfl⟩)
    rw [List.map_replicate]
    exact fun member => absurd (List.eq_of_mem_replicate member) (by decide)
  rw [FrameTable.maxSlot?_eq_some_iff]
  refine ⟨⟨"q", _, atQ, rfl⟩, ?_⟩
  intro name binding bound
  have isParam : name = "p" ∨ name = "q" := by
    rcases FrameTable.get?_layout_nil.1 bound with ⟨place, last, -⟩ | ⟨-, isInstance, -⟩
    · have member := last.mem_names
      rw [crowdedParams, List.map_append, List.map_replicate, List.mem_append] at member
      rcases member with isFirst | isLater
      · simpa using isFirst
      · exact .inl (List.eq_of_mem_replicate isLater)
    · cases isInstance
  rcases isParam with rfl | rfl
  · cases atP.symm.trans bound
    decide
  · cases atQ.symm.trans bound
    decide

/-- A static method with these parameters needs the slots of the first two. Its parameter frame counts
no more than the one that wrapped around. -/
theorem declare_limit_differs :
    (∀ table, BuildStep.supplyTable table ∉ [BuildStep.makeStatic]) ∧
    ((declare "f" crowdedParams .void).build [.makeStatic]).localsLimit = 2 ∧
    ((declare "f" crowdedParams .void).build [.makeStatic]).paramSlots = 1 := by
  have suppliesNone (table : FrameTable) : BuildStep.supplyTable table ∉ [BuildStep.makeStatic] := by
    simp
  have standard := table_build_declare "f" crowdedParams .void suppliesNone
  have isStatic : ((declare "f" crowdedParams .void).build [.makeStatic]).isStatic = true := rfl
  have counted : ((declare "f" crowdedParams .void).build [.makeStatic]).paramSlots = 1 := by
    rw [paramSlots, params_build, isStatic, declare, crowdedParams, List.length_append,
      List.length_replicate]
    rfl
  refine ⟨suppliesNone, ?_, counted⟩
  rw [localsLimit, counted, standard, isStatic, FrameTable.slotCount, maxSlot?_crowdedParams]
  rfl

end Method

end Stackwright
