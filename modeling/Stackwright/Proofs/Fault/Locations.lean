import Mathlib.Data.List.Chain
import Mathlib.Logic.ExistsUnique
import Stackwright.Proofs.Fault

/-!
Contract: a fault as a cause with any number of locations around it.

Owns:
- locations as data, and the words that each of them puts in front of a message;
- every fault is one cause within one list of locations, and induction over that list;
- what one location changes and what it leaves alone, and from it the same for any number of them;
- the sources of a fault, as the failures directly inside one another.

Locations are listed from the outside in. A missing encoding is a cause like the others: it is
reported in the words of the encoding, and nothing is inside it.
-/

namespace Stackwright

/-! ### One location -/

/-- Where a failure was met: at an instruction of a method, or at a member of a class. -/
inductive Location where
  | instr (className methodName : String) (index : Nat)
  | member (className memberName : String)
deriving DecidableEq, Repr

namespace Location

/-- The failure with the location around it. -/
def around : Location → Fault → Fault
  | .instr className methodName index, source => .inMethod className methodName index source
  | .member className memberName, source => .inClass className memberName source

/-- The words for the location, in front of those for what is inside. -/
def text : Location → String
  | .instr className methodName index =>
    className ++ "." ++ methodName ++ ", instruction " ++ toString index ++ ": "
  | .member className memberName => className ++ "." ++ memberName ++ ": "

end Location

namespace Fault

/-- The locations of a fault, the outermost first. -/
def locations : Fault → List Location
  | .inMethod className methodName index source => .instr className methodName index :: source.locations
  | .inClass className memberName source => .member className memberName :: source.locations
  | _ => []

/-- The failure directly inside a located one. An encoding fault is not inside the cause that
reports it. -/
def source? : Fault → Option Fault
  | .inMethod _ _ _ source | .inClass _ _ source => some source
  | _ => none

section Around

variable (location : Location) (source : Fault)

@[simp] theorem root_around : (location.around source).root = source.root := by
  cases location <;> rfl

@[simp] theorem kind_around : (location.around source).kind = source.kind := by
  cases location <;> rfl

@[simp] theorem message_around : (location.around source).message = location.text ++ source.message := by
  cases location <;> rfl

@[simp] theorem locations_around : (location.around source).locations = location :: source.locations := by
  cases location <;> rfl

@[simp] theorem source?_around : (location.around source).source? = some source := by
  cases location <;> rfl

@[simp] theorem sources_around : (location.around source).sources = source :: source.sources := by
  cases location <;> rfl

end Around

/-! ### Causes, and faults as causes within locations -/

theorem IsCause.locations_eq {cause : Fault} (isCause : cause.IsCause) : cause.locations = [] := by
  cases cause with
  | inMethod | inClass => exact isCause.elim
  | unsupportedType | unsupportedShape | unsupportedTarget | unsupportedOperand | unsupportedOperator
  | unresolved | missingValue => rfl

theorem IsCause.source?_eq {cause : Fault} (isCause : cause.IsCause) : cause.source? = none := by
  cases cause with
  | inMethod | inClass => exact isCause.elim
  | unsupportedType | unsupportedShape | unsupportedTarget | unsupportedOperand | unsupportedOperator
  | unresolved | missingValue => rfl

theorem IsCause.sources_eq {cause : Fault} (isCause : cause.IsCause) : cause.sources = [] := by
  cases cause with
  | inMethod | inClass => exact isCause.elim
  | unsupportedType | unsupportedShape | unsupportedTarget | unsupportedOperand | unsupportedOperator
  | unresolved | missingValue => rfl

/-- Every fault is made from a cause by putting locations around it, one after another. -/
@[elab_as_elim]
theorem induction_around {motive : Fault → Prop} (cause : ∀ fault, fault.IsCause → motive fault)
    (around : ∀ location source, motive source → motive (Location.around location source))
    (fault : Fault) : motive fault := by
  induction fault with
  | inMethod className methodName index source inductionHypothesis =>
    exact around (.instr className methodName index) source inductionHypothesis
  | inClass className memberName source inductionHypothesis =>
    exact around (.member className memberName) source inductionHypothesis
  | unsupportedType | unsupportedShape | unsupportedTarget | unsupportedOperand | unsupportedOperator
  | unresolved | missingValue => exact cause _ trivial

/-- The fault within locations, the first of which is the outermost. -/
def within (fault : Fault) (locations : List Location) : Fault :=
  locations.foldr Location.around fault

@[simp] theorem within_cons (fault : Fault) (location : Location) (locations : List Location) :
    fault.within (location :: locations) = location.around (fault.within locations) :=
  rfl

/-- The root of a fault is a cause. -/
theorem isCause_root (fault : Fault) : fault.root.IsCause := by
  induction fault using induction_around with
  | cause fault isCause => rwa [isCause.root_eq]
  | around location source inductionHypothesis => rwa [root_around]

/-- A fault is its root within its locations. -/
theorem root_within_locations (fault : Fault) : fault.root.within fault.locations = fault := by
  induction fault using induction_around with
  | cause fault isCause =>
    rw [isCause.root_eq, isCause.locations_eq]
    rfl
  | around location source inductionHypothesis =>
    rw [root_around, locations_around, within_cons, inductionHypothesis]

/-! ### Any number of locations -/

section Within

variable (fault : Fault) (locations : List Location)

theorem locations_within : (fault.within locations).locations = locations ++ fault.locations := by
  induction locations with
  | nil => rfl
  | cons location rest inductionHypothesis =>
    rw [within_cons, locations_around, inductionHypothesis, List.cons_append]

theorem root_within : (fault.within locations).root = fault.root := by
  induction locations with
  | nil => rfl
  | cons location rest inductionHypothesis => rw [within_cons, root_around, inductionHypothesis]

theorem kind_within : (fault.within locations).kind = fault.kind := by
  induction locations with
  | nil => rfl
  | cons location rest inductionHypothesis => rw [within_cons, kind_around, inductionHypothesis]

theorem message_within :
    (fault.within locations).message = String.join (locations.map Location.text) ++ fault.message := by
  induction locations with
  | nil => exact String.empty_append.symm
  | cons location rest inductionHypothesis =>
    rw [within_cons, message_around, inductionHypothesis, List.map_cons, String.join_cons,
      String.append_assoc]

/-- A source is what is left when the locations before it are taken off. -/
theorem getElem?_sources_within {index : Nat} (inside : index < locations.length) :
    (fault.within locations).sources[index]? = some (fault.within (locations.drop (index + 1))) := by
  induction locations generalizing index with
  | nil => exact absurd inside (Nat.not_lt_zero index)
  | cons location rest inductionHypothesis =>
    rw [within_cons, sources_around, List.drop_succ_cons]
    cases index with
    | zero => rfl
    | succ index => exact inductionHypothesis (Nat.lt_of_succ_lt_succ inside)

end Within

theorem IsCause.root_within {cause : Fault} (isCause : cause.IsCause) (locations : List Location) :
    (cause.within locations).root = cause := by
  rw [Fault.root_within, isCause.root_eq]

theorem IsCause.locations_within {cause : Fault} (isCause : cause.IsCause) (locations : List Location) :
    (cause.within locations).locations = locations := by
  rw [Fault.locations_within, isCause.locations_eq, List.append_nil]

/-- There is one source for each location. -/
theorem length_sources (fault : Fault) : fault.sources.length = fault.locations.length := by
  induction fault using induction_around with
  | cause fault isCause =>
    rw [isCause.sources_eq, isCause.locations_eq]
    rfl
  | around location source inductionHypothesis =>
    rw [sources_around, locations_around, List.length_cons, List.length_cons, inductionHypothesis]

/-- Each source is directly inside the one before it, and the first of them inside the fault. -/
theorem isChain_sources (fault : Fault) :
    (fault :: fault.sources).IsChain fun outer inner => outer.source? = some inner := by
  induction fault using induction_around with
  | cause fault isCause =>
    rw [isCause.sources_eq]
    exact .singleton fault
  | around location source inductionHypothesis =>
    rw [sources_around]
    exact inductionHypothesis.cons_cons (source?_around location source)

/-- The innermost failure is the root. -/
theorem getLast?_sources (fault : Fault) : (fault :: fault.sources).getLast? = some fault.root := by
  induction fault using induction_around with
  | cause fault isCause => rw [isCause.sources_eq, isCause.root_eq, List.getLast?_singleton]
  | around location source inductionHypothesis =>
    rw [sources_around, List.getLast?_cons_cons, inductionHypothesis, root_around]

/-- What a cause within locations shows of the cause and of the locations. -/
structure ShowsThrough (cause : Fault) (locations : List Location) : Prop where
  root : (cause.within locations).root = cause
  kind : (cause.within locations).kind = cause.kind
  message : (cause.within locations).message =
    String.join (locations.map Location.text) ++ cause.message
  sources_length : (cause.within locations).sources.length = locations.length
  sources_entry : ∀ index < locations.length,
    (cause.within locations).sources[index]? = some (cause.within (locations.drop (index + 1)))
  sources_chain : (cause.within locations :: (cause.within locations).sources).IsChain
    fun outer inner => outer.source? = some inner
  sources_end : (cause.within locations :: (cause.within locations).sources).getLast? = some cause
  nothing_inside : cause.source? = none

end Fault

/-- Every fault is one cause within one list of locations, and whatever the locations are, they
leave the root and the kind of the cause alone, put their words in front of its message, and are
taken off one by one in the sources. -/
theorem causes_show_through_locations :
    (∀ fault : Fault, ∃! parts : Fault × List Location,
      parts.1.IsCause ∧ parts.1.within parts.2 = fault) ∧
    ∀ (cause : Fault) (locations : List Location), cause.IsCause → cause.ShowsThrough locations := by
  constructor
  · intro fault
    refine ⟨(fault.root, fault.locations), ⟨fault.isCause_root, fault.root_within_locations⟩, ?_⟩
    -- the parts are read back as the root and the locations
    rintro ⟨cause, locations⟩ ⟨isCause, rfl⟩
    rw [isCause.root_within, isCause.locations_within]
  · intro cause locations isCause
    exact {
      root := isCause.root_within locations
      kind := cause.kind_within locations
      message := cause.message_within locations
      sources_length :=
        (Fault.length_sources _).trans (congrArg List.length (isCause.locations_within locations))
      sources_entry := fun _ inside => cause.getElem?_sources_within locations inside
      sources_chain := Fault.isChain_sources _
      sources_end := (Fault.getLast?_sources _).trans (congrArg some (isCause.root_within locations))
      nothing_inside := isCause.source?_eq }

/-- A missing encoding within three locations of both forms. -/
def nestedFault : Fault :=
  .inClass "Shop" "cart" (.inMethod "Cart" "total" 3 (.inClass "Cart" "items" (.unsupportedType
    { typeText := "void", site := .field })))

/-- Its kind, its message and its sources. -/
theorem causes_show_through_locations_of_nested :
    (Fault.unsupportedType { typeText := "void", site := .field }).IsCause ∧
    nestedFault.kind = .type ∧
    nestedFault.message = "Shop.cart: Cart.total, instruction 3: Cart.items: " ++
      "Unsupported type `void` in field position" ∧
    nestedFault.sources.length = 3 ∧
    nestedFault.sources[0]? = some (.inMethod "Cart" "total" 3 (.inClass "Cart" "items"
      (.unsupportedType { typeText := "void", site := .field }))) := by
  have shows := causes_show_through_locations.2
    (.unsupportedType { typeText := "void", site := .field })
    [.member "Shop" "cart", .instr "Cart" "total" 3, .member "Cart" "items"] trivial
  exact ⟨trivial, shows.kind, shows.message, shows.sources_length, shows.sources_entry 0 (by decide)⟩

end Stackwright
