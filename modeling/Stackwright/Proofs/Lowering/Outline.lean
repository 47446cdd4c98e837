import Mathlib.Data.List.Forall2
import Stackwright.Proofs.Lowering.Walk

/-!
Contract: the instructions of a tree, up to the names of temporaries.

Owns:
- instructions in which temporaries are numbers, and filling in their names;
- the outline of a tree: the operand for its value, and one instruction for each part that computes,
  assigns or returns, with the operands that stand for the trees inside that part;
- a tree has at most one outline, which assigns the temporaries that the tree takes, each once and in
  the order of their numbers, and uses no others.

Names are filled in where an outline has a number. A variable of the source keeps its name, also
where that is the name of a temporary.
-/

namespace Stackwright

/-! ### Instructions with numbered temporaries -/

/-- An operand of the source, or a temporary that is known by its number. -/
inductive OpenOperand where
  | source (operand : Operand)
  | temp (number : Nat) (ty : Ty)
deriving DecidableEq, Repr

namespace OpenOperand

def fill (names : Nat → String) : OpenOperand → Operand
  | .source operand => operand
  | .temp number ty => .variable (names number) ty

def numbers : OpenOperand → List Nat
  | .source _ => []
  | .temp number _ => [number]

theorem fill_congr {names others : Nat → String} {operand : OpenOperand}
    (same : ∀ number ∈ operand.numbers, names number = others number) :
    operand.fill names = operand.fill others := by
  cases operand with
  | source operand => rfl
  | temp number ty => rw [fill, fill, same number List.mem_cons_self]

theorem map_fill_congr {names others : Nat → String} {operands : List OpenOperand}
    (same : ∀ number ∈ operands.flatMap numbers, names number = others number) :
    operands.map (fill names) = operands.map (fill others) := by
  refine List.map_congr_left fun operand member => fill_congr fun number used => ?_
  exact same number (List.mem_flatMap.2 ⟨operand, member, used⟩)

end OpenOperand

/-- An instruction of lowered code. Operators and calls keep their results in temporaries, unless
there is none to keep. -/
inductive OpenInstr where
  | binary (temp : Nat) (operator : Operator) (left right : OpenOperand) (ty : Ty)
  | call (temp? : Option Nat) (kind : CallKind) (target : OpenOperand) (method : String)
      (args : List OpenOperand) (result : Ty)
  | assign (name : String) (ty : Ty) (value : OpenOperand)
  | ret (ty : Ty) (value? : Option OpenOperand)
deriving DecidableEq, Repr

namespace OpenInstr

def fill (names : Nat → String) : OpenInstr → Instr
  | .binary temp operator left right ty =>
    .assign (.variable (names temp) ty) (.binary operator (left.fill names) (right.fill names) ty)
  | .call temp? kind target method args result =>
    let source : Instr := .call
      { kind, target := target.fill names, method? := some method,
        args := args.map (OpenOperand.fill names), result }
    match temp? with
    | some temp => .assign (.variable (names temp) result) source
    | none => source
  | .assign name ty value => .assign (.variable name ty) (.single (value.fill names))
  | .ret ty value? => .ret ty (value?.map (OpenOperand.fill names))

/-- The temporary that is assigned. -/
def temp? : OpenInstr → Option Nat
  | .binary temp _ _ _ _ => some temp
  | .call temp? _ _ _ _ _ => temp?
  | .assign _ _ _ | .ret _ _ => none

/-- All temporaries, assigned or used. -/
def numbers : OpenInstr → List Nat
  | .binary temp _ left right _ => temp :: (left.numbers ++ right.numbers)
  | .call temp? _ target _ args _ => temp?.toList ++ target.numbers ++ args.flatMap OpenOperand.numbers
  | .assign _ _ value => value.numbers
  | .ret _ value? => value?.toList.flatMap OpenOperand.numbers

/-- Only the names of the temporaries in an instruction are filled in. -/
theorem fill_congr {names others : Nat → String} {instr : OpenInstr}
    (same : ∀ number ∈ instr.numbers, names number = others number) :
    instr.fill names = instr.fill others := by
  cases instr with
  | binary temp operator left right ty =>
    rw [numbers, List.forall_mem_cons, List.forall_mem_append] at same
    rw [fill, fill, same.1, OpenOperand.fill_congr same.2.1, OpenOperand.fill_congr same.2.2]
  | call temp? kind target method args result =>
    rw [numbers, List.forall_mem_append, List.forall_mem_append] at same
    have target_eq := OpenOperand.fill_congr same.1.2
    have args_eq := OpenOperand.map_fill_congr same.2
    cases temp? with
    | none => simp only [fill, target_eq, args_eq]
    | some temp => simp only [fill, target_eq, args_eq, same.1.1 temp List.mem_cons_self]
  | assign name ty value => rw [fill, fill, OpenOperand.fill_congr same]
  | ret ty value? =>
    cases value? with
    | none => rfl
    | some value =>
      rw [numbers, Option.toList_some, List.flatMap_singleton] at same
      rw [fill, fill, Option.map_some, Option.map_some, OpenOperand.fill_congr same]

end OpenInstr

/-! ### The outline of a tree -/

/-- A tree that has an instruction of its own: it computes, assigns or returns. -/
def Node.emits : Node → Bool
  | .binary _ _ _ _ | .call _ _ _ | .assign _ _ _ | .ret _ _ | .retBare _ => true
  | .int _ | .bool _ | .varRef _ _ | .receiver | .block _ => false

namespace Visit

variable (symbols : Symbols)

/-- The operand that stands for the value of a part. -/
def operand? (visit : Visit) : Option OpenOperand :=
  match visit.node with
  | .int value => some (.source (.int value))
  | .bool value => some (.source (.bool value))
  | .varRef name ty => some (.source (.variable name ty))
  | .receiver => some (.source .receiver)
  | .binary _ _ _ ty => (visit.temp? symbols).map fun temp => .temp temp ty
  | .call _ method _ => (visit.temp? symbols).map fun temp => .temp temp (symbols.resultOf method)
  | .assign _ _ _ | .ret _ _ | .retBare _ | .block _ => none

/-- The operands that stand for the values of several trees, one entered after the other. -/
def operandsFrom? (drawn : Nat) : List Node → Option (List OpenOperand)
  | [] => some []
  | node :: rest => do
    let operand ← operand? symbols ⟨node, drawn⟩
    return operand :: (← operandsFrom? (drawn + node.draws symbols) rest)

/-- How a call is dispatched whose target is this part, and what it is addressed to. -/
def target? (visit : Visit) : Option (CallKind × OpenOperand) :=
  match visit.node.staticTarget? symbols with
  | some path => some (.static, .source (.variable path (.classRef path)))
  | none => (visit.operand? symbols).map (.virtual, ·)

/-- The instruction of a part: its own operator, name and types, and the operands of the trees
inside it in order. -/
inductive HasInstr : Visit → OpenInstr → Prop where
  | binary {left right : Node} {leftOperand rightOperand : OpenOperand} (operator : Operator) (ty : Ty)
      (drawn : Nat) (leftStands : operand? symbols ⟨left, drawn⟩ = some leftOperand)
      (rightStands : operand? symbols ⟨right, drawn + left.draws symbols⟩ = some rightOperand) :
      HasInstr ⟨.binary operator left right ty, drawn⟩
        (.binary (drawn + left.draws symbols + right.draws symbols) operator leftOperand rightOperand ty)
  | call {target : Node} {args : List Node} {kind : CallKind} {receiver : OpenOperand}
      {operands : List OpenOperand} (method : String) (drawn : Nat)
      (targetStands : target? symbols ⟨target, drawn⟩ = some (kind, receiver))
      (argsStand : operandsFrom? symbols (drawn + target.draws symbols) args = some operands) :
      HasInstr ⟨.call target method args, drawn⟩
        (.call (temp? symbols ⟨.call target method args, drawn⟩) kind receiver method operands
          (symbols.resultOf method))
  | assign {value : Node} {operand : OpenOperand} (name : String) (ty : Ty) (drawn : Nat)
      (stands : operand? symbols ⟨value, drawn⟩ = some operand) :
      HasInstr ⟨.assign name ty value, drawn⟩ (.assign name ty operand)
  | retVoid (value : Node) (drawn : Nat) : HasInstr ⟨.ret value .void, drawn⟩ (.ret .void none)
  | retValue {value : Node} {operand : OpenOperand} {ty : Ty} (drawn : Nat) (notVoid : ty ≠ .void)
      (stands : operand? symbols ⟨value, drawn⟩ = some operand) :
      HasInstr ⟨.ret value ty, drawn⟩ (.ret ty (some operand))
  | retBare (ty : Ty) (drawn : Nat) : HasInstr ⟨.retBare ty, drawn⟩ (.ret ty none)

end Visit

/-- The parts that are left on the way and have an instruction of their own. -/
def Stop.emitting (stops : List Stop) : List Visit :=
  (visits stops).filter fun visit => visit.node.emits

variable {symbols : Symbols}

/-! ### Temporaries of an outline -/

namespace Visit

variable {visit : Visit} {number : Nat}

theorem temp?_lt (taken : visit.temp? symbols = some number) :
    number < visit.drawn + visit.node.draws symbols := by
  obtain ⟨node, drawn⟩ := visit
  cases node with
  | binary operator left right ty =>
    simp only [temp?, Option.some.injEq] at taken
    simp only [Node.draws]
    omega
  | call target method args =>
    by_cases void : symbols.resultOf method = .void
    · simp [temp?, void] at taken
    · simp only [temp?, void, if_false, Option.some.injEq] at taken
      simp only [Node.draws, void, if_false]
      omega
  | _ => cases taken

/-- A part has a temporary for its operand exactly if it takes one. -/
theorem operand?_eq_temp_iff :
    (∃ ty, visit.operand? symbols = some (.temp number ty)) ↔ visit.temp? symbols = some number := by
  obtain ⟨node, drawn⟩ := visit
  cases node <;> simp [operand?, temp?]

theorem operand?_lt {operand : OpenOperand} (stands : visit.operand? symbols = some operand)
    (member : number ∈ operand.numbers) : number < visit.drawn + visit.node.draws symbols := by
  cases operand with
  | source operand => exact absurd member List.not_mem_nil
  | temp temp ty =>
    cases List.mem_singleton.1 member
    exact temp?_lt (operand?_eq_temp_iff.1 ⟨ty, stands⟩)

theorem operandsFrom?_lt {drawn : Nat} {nodes : List Node} {operands : List OpenOperand}
    (stand : operandsFrom? symbols drawn nodes = some operands)
    (member : number ∈ operands.flatMap OpenOperand.numbers) :
    number < drawn + Node.drawsOfList symbols nodes := by
  induction nodes generalizing drawn operands with
  | nil =>
    cases stand
    exact absurd member List.not_mem_nil
  | cons node rest inductionHypothesis =>
    simp only [operandsFrom?, Option.bind_eq_bind, Option.bind_eq_some_iff, Option.pure_def,
      Option.some.injEq] at stand
    obtain ⟨operand, stands, operandsOfRest, standRest, rfl⟩ := stand
    rw [List.flatMap_cons, List.mem_append] at member
    rw [Node.drawsOfList]
    rcases member with ofFirst | ofRest
    · have bound := operand?_lt stands ofFirst
      simp only at bound
      omega
    · have bound := inductionHypothesis standRest ofRest
      omega

theorem target?_lt {kind : CallKind} {receiver : OpenOperand}
    (stands : visit.target? symbols = some (kind, receiver))
    (member : number ∈ receiver.numbers) : number < visit.drawn + visit.node.draws symbols := by
  unfold target? at stands
  split at stands
  · cases stands
    exact absurd member List.not_mem_nil
  · obtain ⟨operand, operandStands, same⟩ := Option.map_eq_some_iff.1 stands
    cases same
    exact operand?_lt operandStands member

namespace HasInstr

variable {instr : OpenInstr}

theorem unique {other : OpenInstr} (has : visit.HasInstr symbols instr)
    (hasOther : visit.HasInstr symbols other) : instr = other := by
  cases has <;> cases hasOther <;> simp_all

/-- The instruction of a part assigns the temporary that the part takes. -/
theorem temp?_eq (has : visit.HasInstr symbols instr) : instr.temp? = visit.temp? symbols := by
  cases has <;> rfl

/-- An instruction uses no temporaries but those that its part takes. -/
theorem numbers_lt (has : visit.HasInstr symbols instr) (member : number ∈ instr.numbers) :
    number < visit.drawn + visit.node.draws symbols := by
  cases has with
  | @binary left right leftOperand rightOperand operator ty drawn leftStands rightStands =>
    rw [OpenInstr.numbers, List.mem_cons, List.mem_append] at member
    show number < drawn + (left.draws symbols + right.draws symbols + 1)
    rcases member with rfl | ofLeft | ofRight
    · omega
    · have bound : number < drawn + left.draws symbols := operand?_lt leftStands ofLeft
      omega
    · have bound : number < drawn + left.draws symbols + right.draws symbols := operand?_lt rightStands ofRight
      omega
  | @call target args kind receiver operands method drawn targetStands argsStand =>
    rw [OpenInstr.numbers, List.mem_append, List.mem_append, Option.mem_toList] at member
    rcases member with (taken | ofTarget) | ofArgs
    · exact temp?_lt taken
    · have bound : number < drawn + target.draws symbols := target?_lt targetStands ofTarget
      simp only [Node.draws]
      omega
    · have bound := operandsFrom?_lt argsStand ofArgs
      simp only [Node.draws]
      omega
  | assign name ty drawn stands =>
    have bound := operand?_lt stands member
    exact bound
  | retVoid value drawn => exact absurd member List.not_mem_nil
  | retValue drawn notVoid stands =>
    rw [OpenInstr.numbers, Option.toList_some, List.flatMap_singleton] at member
    have bound := operand?_lt stands member
    exact bound
  | retBare ty drawn => exact absurd member List.not_mem_nil

end HasInstr

section Lists

variable {visits : List Visit} {instrs : List OpenInstr}

theorem exists_of_mem_instrs {instr : OpenInstr} (paired : List.Forall₂ (HasInstr symbols) visits instrs)
    (member : instr ∈ instrs) : ∃ visit ∈ visits, visit.HasInstr symbols instr := by
  induction paired with
  | nil => exact absurd member List.not_mem_nil
  | @cons visit first visits rest has _ inductionHypothesis =>
    rcases List.mem_cons.1 member with rfl | later
    · exact ⟨visit, List.mem_cons_self, has⟩
    · obtain ⟨other, left, hasOther⟩ := inductionHypothesis later
      exact ⟨other, List.mem_cons_of_mem visit left, hasOther⟩

theorem filterMap_temp?_eq (paired : List.Forall₂ (HasInstr symbols) visits instrs) :
    instrs.filterMap OpenInstr.temp? = visits.filterMap (temp? symbols) := by
  induction paired with
  | nil => rfl
  | cons has _ inductionHypothesis =>
    rw [List.filterMap_cons, List.filterMap_cons, has.temp?_eq, inductionHypothesis]

end Lists

end Visit

/-- Only parts with an instruction of their own take temporaries. -/
theorem Stop.filterMap_temp?_emitting (stops : List Stop) :
    (emitting stops).filterMap (Visit.temp? symbols) = temps symbols stops := by
  rw [emitting, temps, List.filterMap_filter]
  refine List.filterMap_congr fun visit _ => ?_
  obtain ⟨node, drawn⟩ := visit
  cases node <;> rfl

/-! ### Outlines of whole trees -/

/-- What a tree is lowered to, with the temporaries left open. -/
structure Outline where
  value? : Option OpenOperand
  instrs : List OpenInstr

namespace Outline

def fill (names : Nat → String) (outline : Outline) : Lowered where
  value? := outline.value?.map (OpenOperand.fill names)
  instrs := outline.instrs.map (OpenInstr.fill names)

/-- All temporaries of an outline. -/
def numbers (outline : Outline) : List Nat :=
  outline.value?.toList.flatMap OpenOperand.numbers ++ outline.instrs.flatMap OpenInstr.numbers

theorem fill_congr {names others : Nat → String} {outline : Outline}
    (same : ∀ number ∈ outline.numbers, names number = others number) :
    outline.fill names = outline.fill others := by
  rw [numbers, List.forall_mem_append] at same
  have value_eq : outline.value?.map (OpenOperand.fill names) = outline.value?.map (OpenOperand.fill others) := by
    refine Option.map_congr fun operand isValue => OpenOperand.fill_congr fun number used => ?_
    exact same.1 number (List.mem_flatMap.2 ⟨operand, Option.mem_toList.2 isValue, used⟩)
  have instrs_eq : outline.instrs.map (OpenInstr.fill names) = outline.instrs.map (OpenInstr.fill others) := by
    refine List.map_congr_left fun instr member => OpenInstr.fill_congr fun number used => ?_
    exact same.2 number (List.mem_flatMap.2 ⟨instr, member, used⟩)
  rw [fill, fill, value_eq, instrs_eq]

end Outline

/-- The outline of a tree: the operand for its value, and one instruction for each part that has
one, in the order in which parts are left. -/
structure Node.HasOutline (symbols : Symbols) (node : Node) (outline : Outline) : Prop where
  value_eq : outline.value? = Visit.operand? symbols ⟨node, 0⟩
  instrs : List.Forall₂ (Visit.HasInstr symbols) (Stop.emitting (node.walk symbols 0)) outline.instrs

namespace Node.HasOutline

variable {node : Node} {outline other : Outline}

theorem unique (has : node.HasOutline symbols outline) (hasOther : node.HasOutline symbols other) :
    outline = other := by
  have instrs_eq : outline.instrs = other.instrs :=
    List.right_unique_forall₂' (fun _ _ _ first second => first.unique second) has.instrs hasOther.instrs
  cases outline
  cases other
  cases has.value_eq.trans hasOther.value_eq.symm
  cases instrs_eq
  rfl

/-- Every temporary is assigned once, in the order of the numbers. -/
theorem temps_eq (has : node.HasOutline symbols outline) :
    outline.instrs.filterMap OpenInstr.temp? = List.range (node.draws symbols) := by
  calc outline.instrs.filterMap OpenInstr.temp?
    _ = (Stop.emitting (node.walk symbols 0)).filterMap (Visit.temp? symbols) :=
      Visit.filterMap_temp?_eq has.instrs
    _ = Stop.temps symbols (node.walk symbols 0) := Stop.filterMap_temp?_emitting _
    _ = List.range (node.draws symbols) := by rw [Node.temps_walk, List.range_eq_range']

theorem numbers_lt {number : Nat} (has : node.HasOutline symbols outline)
    (member : number ∈ outline.numbers) : number < node.draws symbols := by
  rcases List.mem_append.1 member with ofValue | ofInstrs
  · obtain ⟨operand, stands, used⟩ := List.mem_flatMap.1 ofValue
    rw [Option.mem_toList, has.value_eq] at stands
    have bound := Visit.operand?_lt stands used
    rwa [Nat.zero_add] at bound
  · obtain ⟨instr, written, used⟩ := List.mem_flatMap.1 ofInstrs
    obtain ⟨visit, left, hasInstr⟩ := Visit.exists_of_mem_instrs has.instrs written
    have bound := hasInstr.numbers_lt used
    have within := Node.le_of_mem_visits_walk 0 node (List.mem_filter.1 left).1
    omega

end Node.HasOutline

end Stackwright
