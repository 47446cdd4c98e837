import Stackwright.Fault

/-!
Contract: steps whose success is decided by a condition, and the ways in which steps fail.

Owns:
- steps that succeed exactly under a condition, and fail only in a known way;
- steps that fail only in a known way, whether or not they succeed;
- steps whose results have a property, whether or not they succeed;
- changes of a step that show only where it fails in a known way;
- the steps that are put together from such steps;
- which of several steps decides a failure.

The condition of a step may rely on the success of the steps before it, because it is
asked for only then.
-/

namespace Stackwright

/-- A step succeeds exactly if it is accepted, and all its failures are of one form. -/
def Settles {Error α : Type} (form : Error → Prop) (step : Except Error α) (accepted : Prop) : Prop :=
  match step with
  | .ok _ => accepted
  | .error fault => ¬accepted ∧ form fault

namespace Settles

variable {Error α β : Type} {form : Error → Prop} {step : Except Error α} {accepted : Prop}

theorem ok_iff (settles : Settles form step accepted) : (∃ result, step = .ok result) ↔ accepted := by
  cases step with
  | ok result => exact ⟨fun _ => settles, fun _ => ⟨result, rfl⟩⟩
  | error fault => simp [settles.1]

theorem error_iff (settles : Settles form step accepted) : (∃ fault, step = .error fault) ↔ ¬accepted := by
  cases step with
  | ok result => exact iff_of_false nofun (not_not_intro settles)
  | error fault => exact iff_of_true ⟨fault, rfl⟩ settles.1

theorem form_of_error (settles : Settles form step accepted) {fault : Error}
    (failed : step = .error fault) : form fault := by
  subst failed
  exact settles.2

theorem accepted_of_ok (settles : Settles form step accepted) {result : α}
    (succeeded : step = .ok result) : accepted :=
  settles.ok_iff.1 ⟨result, succeeded⟩

theorem congr {condition : Prop} (settles : Settles form step accepted)
    (same : accepted ↔ condition) : Settles form step condition := by
  cases step with
  | ok result => exact same.1 settles
  | error fault => exact ⟨fun holds => settles.1 (same.2 holds), settles.2⟩

/-- Nothing need be said of the failures. -/
theorem forget (settles : Settles form step accepted) : Settles (fun _ => True) step accepted := by
  cases step with
  | ok result => exact settles
  | error fault => exact ⟨settles.1, trivial⟩

theorem pure (value : α) : Settles form (.ok value) True :=
  trivial

theorem error {fault : Error} (ofForm : form fault) : Settles form (.error fault : Except Error α) False :=
  ⟨id, ofForm⟩

/-- Two steps in a row: the second is asked only after the first has succeeded. -/
theorem bind {next : α → Except Error β} {acceptedNext : Prop} (settles : Settles form step accepted)
    (settlesNext : ∀ value, step = .ok value → Settles form (next value) acceptedNext) :
    Settles form (step >>= next) (accepted ∧ acceptedNext) := by
  cases step with
  | ok value =>
    have nextSettles := settlesNext value rfl
    show Settles form (next value) (accepted ∧ acceptedNext)
    exact nextSettles.congr ⟨fun holds => ⟨settles, holds⟩, And.right⟩
  | error fault => exact ⟨fun both => settles.1 both.1, settles.2⟩

theorem map {next : α → β} (settles : Settles form step accepted) :
    Settles form (step >>= fun value => .ok (next value)) accepted :=
  (settles.bind fun value _ => .pure (next value)).congr ⟨And.left, fun holds => ⟨holds, trivial⟩⟩

theorem of_map {next : α → β} (settles : Settles form (step >>= fun value => .ok (next value)) accepted) :
    Settles form step accepted := by
  cases step with
  | ok value => exact settles
  | error fault => exact settles

theorem mapError {Error' : Type} {form' : Error' → Prop} {locate : Error → Error'}
    (settles : Settles form step accepted) (keeps : ∀ fault, form fault → form' (locate fault)) :
    Settles form' (step.mapError locate) accepted := by
  cases step with
  | ok value => exact settles
  | error fault => exact ⟨settles.1, keeps fault settles.2⟩

/-- A step for each element of a list: all of them are asked. -/
theorem mapM {γ : Type} {each : γ → Except Error α} {acceptedEach : γ → Prop} (items : List γ)
    (settlesEach : ∀ item, Settles form (each item) (acceptedEach item)) :
    Settles form (items.mapM each) (∀ item ∈ items, acceptedEach item) := by
  induction items with
  | nil => exact fun _ member => absurd member List.not_mem_nil
  | cons item rest inductionHypothesis =>
    rw [List.mapM_cons, List.forall_mem_cons]
    exact (settlesEach item).bind fun _ _ => inductionHypothesis.map

end Settles

/-- All failures of a step are of one form. -/
def FailsOnly {Error α : Type} (form : Error → Prop) (step : Except Error α) : Prop :=
  ∀ fault, step = .error fault → form fault

namespace FailsOnly

variable {Error α β : Type} {form : Error → Prop} {step : Except Error α}

theorem ok (value : α) : FailsOnly form (.ok value : Except Error α) := nofun

theorem error {fault : Error} (ofForm : form fault) : FailsOnly form (.error fault : Except Error α) := by
  intro other same
  cases same
  exact ofForm

theorem bind {next : α → Except Error β} (fails : FailsOnly form step)
    (failsNext : ∀ value, FailsOnly form (next value)) : FailsOnly form (step >>= next) := by
  cases step with
  | ok value => exact failsNext value
  | error fault => exact error (fails fault rfl)

theorem map {next : α → β} (fails : FailsOnly form step) :
    FailsOnly form (step >>= fun value => .ok (next value)) :=
  fails.bind fun value => ok (next value)

theorem mapError {Error' : Type} {form' : Error' → Prop} {locate : Error → Error'}
    (fails : FailsOnly form step) (keeps : ∀ fault, form fault → form' (locate fault)) :
    FailsOnly form' (step.mapError locate) := by
  cases step with
  | ok value => exact ok value
  | error fault => exact error (keeps fault (fails fault rfl))

theorem mapM {γ : Type} {each : γ → Except Error α} {items : List γ}
    (failsEach : ∀ item ∈ items, FailsOnly form (each item)) : FailsOnly form (items.mapM each) := by
  induction items with
  | nil => exact ok []
  | cons item rest inductionHypothesis =>
    rw [List.forall_mem_cons] at failsEach
    rw [List.mapM_cons]
    exact failsEach.1.bind fun _ => (inductionHypothesis failsEach.2).map

end FailsOnly

/-- All results of a step have a property. -/
def Gives {Error α : Type} (holds : α → Prop) (step : Except Error α) : Prop :=
  ∀ result, step = .ok result → holds result

namespace Gives

variable {Error α β : Type} {holds : α → Prop} {holdsNext : β → Prop} {step : Except Error α}

theorem ok {value : α} (holdsOf : holds value) : Gives holds (.ok value : Except Error α) := by
  rintro _ ⟨⟩
  exact holdsOf

theorem error (fault : Error) : Gives holds (.error fault : Except Error α) := nofun

theorem bind {next : α → Except Error β} (gives : Gives holds step)
    (givesNext : ∀ value, holds value → Gives holdsNext (next value)) : Gives holdsNext (step >>= next) := by
  cases step with
  | ok value => exact givesNext value (gives value rfl)
  | error fault => exact error fault

theorem map {next : α → β} (gives : Gives holds step) (holdsOf : ∀ value, holds value → holdsNext (next value)) :
    Gives holdsNext (step >>= fun value => .ok (next value)) :=
  gives.bind fun value holdsValue => ok (holdsOf value holdsValue)

theorem mapError {Error' : Type} {locate : Error → Error'} (gives : Gives holds step) :
    Gives holds (step.mapError locate) := by
  cases step with
  | ok value => exact ok (gives value rfl)
  | error fault => exact error (locate fault)

theorem mapM {γ : Type} {each : γ → Except Error α} {items : List γ}
    (givesEach : ∀ item ∈ items, Gives holds (each item)) :
    Gives (∀ result ∈ ·, holds result) (items.mapM each) := by
  induction items with
  | nil => exact ok (List.forall_mem_nil _)
  | cons item rest inductionHypothesis =>
    rw [List.forall_mem_cons] at givesEach
    rw [List.mapM_cons]
    exact givesEach.1.bind fun first holdsFirst =>
      (inductionHypothesis givesEach.2).map fun others holdOthers =>
        List.forall_mem_cons.2 ⟨holdsFirst, holdOthers⟩

end Gives

/-- The changed step gives what the step gives, unless the step fails in the given form. -/
def KeepsUnless {Error α : Type} (form : Error → Prop) (step changed : Except Error α) : Prop :=
  changed = step ∨ ∃ fault, step = .error fault ∧ form fault

namespace KeepsUnless

variable {Error α β : Type} {form : Error → Prop} {step changed : Except Error α}

theorem same (step : Except Error α) : KeepsUnless form step step :=
  .inl rfl

theorem of_eq (unchanged : changed = step) : KeepsUnless form step changed :=
  .inl unchanged

theorem bind {next changedNext : α → Except Error β} (keeps : KeepsUnless form step changed)
    (keepsNext : ∀ value, KeepsUnless form (next value) (changedNext value)) :
    KeepsUnless form (step >>= next) (changed >>= changedNext) := by
  rcases keeps with rfl | ⟨fault, rfl, ofForm⟩
  · cases changed with
    | ok value => exact keepsNext value
    | error fault => exact .inl rfl
  · exact .inr ⟨fault, rfl, ofForm⟩

theorem map {next : α → β} (keeps : KeepsUnless form step changed) :
    KeepsUnless form (step >>= fun value => .ok (next value))
      (changed >>= fun value => .ok (next value)) :=
  keeps.bind fun value => same (.ok (next value))

theorem mapError {Error' : Type} {form' : Error' → Prop} {locate : Error → Error'}
    (keeps : KeepsUnless form step changed) (carries : ∀ fault, form fault → form' (locate fault)) :
    KeepsUnless form' (step.mapError locate) (changed.mapError locate) := by
  rcases keeps with rfl | ⟨fault, rfl, ofForm⟩
  · exact .inl rfl
  · exact .inr ⟨locate fault, rfl, carries fault ofForm⟩

/-- A change of each element of a list. -/
theorem mapM {γ δ : Type} {each : γ → Except Error α} {changedEach : δ → Except Error α}
    {change : γ → δ} (items : List γ)
    (keepsEach : ∀ item, KeepsUnless form (each item) (changedEach (change item))) :
    KeepsUnless form (items.mapM each) ((items.map change).mapM changedEach) := by
  induction items with
  | nil => exact same (.ok [])
  | cons item rest inductionHypothesis =>
    rw [List.map_cons, List.mapM_cons, List.mapM_cons]
    exact (keepsEach item).bind fun _ => inductionHypothesis.map

/-- A change that rules out the failures of the form shows exactly where the step fails in it. -/
theorem eq_iff (keeps : KeepsUnless form step changed)
    (rulesOut : FailsOnly (fun fault => ¬form fault) changed) :
    changed = step ↔ ∀ fault, step = .error fault → ¬form fault := by
  constructor
  · rintro rfl
    exact rulesOut
  · intro notOfForm
    rcases keeps with unchanged | ⟨fault, failed, ofForm⟩
    · exact unchanged
    · exact absurd ofForm (notOfForm fault failed)

end KeepsUnless

/-! ### How steps in a row succeed, and which of them decides a failure -/

section InARow

variable {Error Error' α β : Type}

theorem bind_eq_ok_iff {step : Except Error α} {next : α → Except Error β} {result : β} :
    step >>= next = .ok result ↔ ∃ value, step = .ok value ∧ next value = .ok result := by
  cases step with
  | error fault => simp [bind, Except.bind]
  | ok value => simp [bind, Except.bind]

theorem pure_eq_ok_iff {value result : α} :
    (pure value : Except Error α) = .ok result ↔ value = result := by
  simp [pure, Except.pure]

@[simp] theorem mapError_ok {locate : Error → Error'} {value : α} :
    (Except.ok value).mapError locate = .ok value :=
  rfl

@[simp] theorem mapError_error {locate : Error → Error'} {cause : Error} :
    (Except.error cause : Except Error α).mapError locate = .error (locate cause) :=
  rfl

theorem mapError_eq_ok_iff {step : Except Error α} {locate : Error → Error'} {result : α} :
    step.mapError locate = .ok result ↔ step = .ok result := by
  cases step with
  | error fault => exact iff_of_false nofun nofun
  | ok value => simp

theorem bind_eq_error_iff {step : Except Error α} {next : α → Except Error β} {fault : Error} :
    step >>= next = .error fault ↔
      step = .error fault ∨ ∃ value, step = .ok value ∧ next value = .error fault := by
  cases step with
  | ok value => simp [bind, Except.bind]
  | error other => simp [bind, Except.bind]

theorem map_eq_error_iff {step : Except Error α} {next : α → β} {fault : Error} :
    (step >>= fun value => .ok (next value)) = .error fault ↔ step = .error fault := by
  simp [bind_eq_error_iff]

theorem mapError_eq_error_iff {step : Except Error α} {locate : Error → Error'} {fault : Error'} :
    step.mapError locate = .error fault ↔ ∃ cause, step = .error cause ∧ fault = locate cause := by
  cases step with
  | ok value => simp
  | error cause => simp [eq_comm]

/-- Of several steps in a row, the first that fails decides the failure. -/
theorem mapM_eq_error_iff {each : α → Except Error β} {items : List α} {fault : Error} :
    items.mapM each = .error fault ↔
      ∃ index item, items[index]? = some item ∧ each item = .error fault ∧
        ∀ earlier ∈ items.take index, ∃ result, each earlier = .ok result := by
  induction items with
  | nil => simp [pure, Except.pure]
  | cons head rest inductionHypothesis =>
    rw [List.mapM_cons, bind_eq_error_iff]
    constructor
    · rintro (headFails | ⟨result, headSucceeds, laterFails⟩)
      · exact ⟨0, head, rfl, headFails, by simp⟩
      · rcases inductionHypothesis.1 (map_eq_error_iff.1 laterFails) with
          ⟨index, item, found, fails, earlier⟩
        refine ⟨index + 1, item, found, fails, ?_⟩
        rw [List.take_succ_cons, List.forall_mem_cons]
        exact ⟨⟨result, headSucceeds⟩, earlier⟩
    · rintro ⟨index, item, found, fails, earlier⟩
      cases index with
      | zero =>
        cases found
        exact .inl fails
      | succ index =>
        rw [List.take_succ_cons, List.forall_mem_cons] at earlier
        rcases earlier.1 with ⟨result, headSucceeds⟩
        have laterFails := inductionHypothesis.2 ⟨index, item, found, fails, earlier.2⟩
        exact .inr ⟨result, headSucceeds, map_eq_error_iff.2 laterFails⟩

/-- Steps succeed in a row exactly if each of them succeeds, and give their results in order. -/
theorem mapM_eq_ok_iff {each : α → Except Error β} {items : List α} {results : List β} :
    items.mapM each = .ok results ↔ items.map each = results.map .ok := by
  induction items generalizing results with
  | nil => cases results <;> simp [pure, Except.pure]
  | cons item rest inductionHypothesis =>
    simp only [List.mapM_cons, bind_eq_ok_iff, pure_eq_ok_iff, inductionHypothesis, List.map_cons]
    constructor
    · rintro ⟨first, succeeds, others, succeedRest, rfl⟩
      rw [succeeds, succeedRest, List.map_cons]
    · intro same
      cases results with
      | nil => cases same
      | cons first others => exact ⟨first, (List.cons.inj same).1, others, (List.cons.inj same).2, rfl⟩

/-- Where steps are said to have failed makes no difference to their success. -/
theorem mapM_mapError_eq_ok_iff {each : α → Except Error β} {locate : α → Error → Error'} {items : List α}
    {results : List β} :
    items.mapM (fun item => (each item).mapError (locate item)) = .ok results ↔
      items.map each = results.map .ok := by
  rw [← mapM_eq_ok_iff]
  induction items generalizing results with
  | nil => rw [List.mapM_nil, List.mapM_nil, pure_eq_ok_iff, pure_eq_ok_iff]
  | cons item rest inductionHypothesis =>
    simp only [List.mapM_cons, bind_eq_ok_iff, mapError_eq_ok_iff, pure_eq_ok_iff, inductionHypothesis]

end InARow

/-! ### Forms of failure -/

namespace Fault

/-- The fault is a cause and no location around another one. -/
def IsCause : Fault → Prop
  | .inMethod _ _ _ _ | .inClass _ _ _ => False
  | .unsupportedType _ | .unsupportedShape _ | .unsupportedTarget _ | .unsupportedOperand _
  | .unsupportedOperator _ | .unresolved _ | .missingValue _ => True

/-- The fault is a cause, and if it is a missing encoding, then one of the given form. -/
def IsCauseOf (form : EncodingFault → Prop) : Fault → Prop
  | .unsupportedType encoding => form encoding
  | fault => fault.IsCause

/-- The fault is exactly one location around a cause. -/
def IsLocatedCause : Fault → Prop
  | .inMethod _ _ _ source | .inClass _ _ source => source.IsCause
  | _ => False

theorem IsCauseOf.isCause {form : EncodingFault → Prop} {fault : Fault} (causeOf : fault.IsCauseOf form) :
    fault.IsCause := by
  cases fault with
  | inMethod | inClass => exact causeOf
  | unsupportedType | unsupportedShape | unsupportedTarget | unsupportedOperand | unsupportedOperator
  | unresolved | missingValue => exact trivial

/-- A cause is its own root. -/
theorem IsCause.root_eq {fault : Fault} (isCause : fault.IsCause) : fault.root = fault := by
  cases fault with
  | inMethod | inClass => exact isCause.elim
  | unsupportedType | unsupportedShape | unsupportedTarget | unsupportedOperand | unsupportedOperator
  | unresolved | missingValue => rfl

end Fault

/-- The fault comes down to a missing encoding of the given form. -/
def Fault.ComesFrom (form : EncodingFault → Prop) (fault : Fault) : Prop :=
  ∃ encoding, fault.root = .unsupportedType encoding ∧ form encoding

@[simp] theorem Fault.comesFrom_unsupportedType_iff {form : EncodingFault → Prop}
    {encoding : EncodingFault} : (Fault.unsupportedType encoding).ComesFrom form ↔ form encoding := by
  simp [ComesFrom, root]

/-- Locations make no difference to what a fault comes from. -/
@[simp] theorem Fault.comesFrom_inMethod_iff {form : EncodingFault → Prop}
    {className methodName : String} {index : Nat} {source : Fault} :
    (Fault.inMethod className methodName index source).ComesFrom form ↔ source.ComesFrom form :=
  Iff.rfl

@[simp] theorem Fault.comesFrom_inClass_iff {form : EncodingFault → Prop}
    {className memberName : String} {source : Fault} :
    (Fault.inClass className memberName source).ComesFrom form ↔ source.ComesFrom form :=
  Iff.rfl

/-- A cause that is no missing encoding of the form does not come from one. -/
theorem Fault.IsCauseOf.not_comesFrom {form : EncodingFault → Prop} {fault : Fault}
    (causeOf : fault.IsCauseOf fun encoding => ¬form encoding) : ¬fault.ComesFrom form := by
  rintro ⟨encoding, isRoot, ofForm⟩
  rw [causeOf.isCause.root_eq] at isRoot
  subst isRoot
  exact causeOf ofForm

theorem KeepsUnless.liftEncoding {α : Type} {form : EncodingFault → Prop}
    {encoded changed : Except EncodingFault α} (keeps : KeepsUnless form encoded changed) :
    KeepsUnless (Fault.ComesFrom form) (Fault.liftEncoding encoded) (Fault.liftEncoding changed) :=
  keeps.mapError fun _ ofForm => Fault.comesFrom_unsupportedType_iff.2 ofForm

/-- A missing encoding becomes a cause. -/
theorem FailsOnly.liftEncoding {α : Type} {form : EncodingFault → Prop}
    {encoded : Except EncodingFault α} (fails : FailsOnly form encoded) :
    FailsOnly (Fault.IsCauseOf form) (Fault.liftEncoding encoded) :=
  fails.mapError fun _ ofForm => ofForm

/-- The fault is not that an instruction has an unsupported shape. -/
def Fault.NotOfShape (fault : Fault) : Prop :=
  ∀ defect, fault.root ≠ .unsupportedShape defect

/-- A missing encoding is no matter of shape. -/
theorem Settles.liftEncoding {α : Type} {encoded : Except EncodingFault α} {accepted : Prop}
    {form : EncodingFault → Prop} (settles : Settles form encoded accepted) :
    Settles Fault.NotOfShape (Fault.liftEncoding encoded) accepted :=
  settles.mapError fun _ _ _ same => by cases same

end Stackwright
