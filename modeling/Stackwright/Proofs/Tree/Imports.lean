import Mathlib.Data.List.TakeWhile
import Stackwright.Tree.Symbols

/-!
Contract: what a name stands for among imports.

Owns:
- the last segment of a path, by where the dots are;
- tables that imports are added to one after another;
- a qualified name stands for itself or for nothing, and a simple name for the first import that
  ends in it;
- to resolve what was resolved changes nothing, and neither do imports that are added later.

An import that is only looked for by its last segment may hide another one that is written just so.
That does no harm: the hidden one is a simple name, so nothing resolves to it.
-/

namespace Stackwright

/-! ### Last segments -/

/-- The segment is all of the path, or follows its last dot. -/
structure EndsIn (path segment : String) : Prop where
  simple : '.' ∉ segment.toList
  atEnd : path = segment ∨ ∃ qualifier, path = qualifier ++ "." ++ segment

theorem dot_notMem_lastSegment (path : String) : '.' ∉ (lastSegment path).toList := by
  rw [lastSegment, String.toList_ofList, List.mem_reverse]
  intro member
  have passes := List.mem_takeWhile_imp member
  simp at passes

theorem endsIn_lastSegment (path : String) : EndsIn path (lastSegment path) where
  simple := dot_notMem_lastSegment path
  atEnd := by
    have parted : path.toList.reverse.takeWhile (· ≠ '.') ++ path.toList.reverse.dropWhile (· ≠ '.') =
        path.toList.reverse := List.takeWhile_append_dropWhile
    cases rest : path.toList.reverse.dropWhile (· ≠ '.') with
    | nil =>
      left
      rw [rest, List.append_nil] at parted
      rw [lastSegment, parted, List.reverse_reverse, String.ofList_toList]
    | cons dot before =>
      right
      have isDot : dot = '.' := by
        have stopped := List.head?_dropWhile_not (· ≠ '.') path.toList.reverse
        rw [rest] at stopped
        simpa using stopped
      rw [rest, isDot] at parted
      refine ⟨String.ofList before.reverse, String.toList_injective ?_⟩
      have reversed := congrArg List.reverse parted
      rw [List.reverse_reverse] at reversed
      rw [← reversed]
      simp [lastSegment]

theorem lastSegment_eq_iff {path segment : String} :
    lastSegment path = segment ↔ EndsIn path segment := by
  constructor
  · rintro rfl
    exact endsIn_lastSegment path
  · intro ends
    have passes : ∀ char ∈ segment.toList.reverse, decide (char ≠ '.') = true := by
      intro char member
      refine decide_eq_true fun isDot => ends.simple ?_
      rw [← isDot]
      exact List.mem_reverse.1 member
    have segment_eq : segment.toList.reverse.takeWhile (· ≠ '.') = segment.toList.reverse :=
      List.takeWhile_eq_self_iff.2 passes
    rcases ends.atEnd with rfl | ⟨qualifier, rfl⟩
    · rw [lastSegment, segment_eq, List.reverse_reverse, String.ofList_toList]
    · have reversed : (qualifier ++ "." ++ segment).toList.reverse =
          segment.toList.reverse ++ '.' :: qualifier.toList.reverse := by simp
      rw [lastSegment, reversed, List.takeWhile_append_of_pos passes, List.takeWhile_cons_of_neg (by simp),
        List.append_nil, List.reverse_reverse, String.ofList_toList]

/-- A path without dots is its own last segment. -/
theorem lastSegment_of_simple {path : String} (simple : '.' ∉ path.toList) : lastSegment path = path :=
  lastSegment_eq_iff.2 ⟨simple, .inl rfl⟩

/-! ### Tables of imports -/

namespace Symbols

/-- A table with further imports, added one after another. -/
def importing (symbols : Symbols) (paths : List String) : Symbols :=
  paths.foldl addImport symbols

@[simp] theorem imports_importing (symbols : Symbols) (paths : List String) :
    (symbols.importing paths).imports = symbols.imports ++ paths := by
  induction paths generalizing symbols with
  | nil => rw [importing, List.foldl_nil, List.append_nil]
  | cons path rest inductionHypothesis =>
    have added := inductionHypothesis (symbols.addImport path)
    rw [importing] at added
    rw [importing, List.foldl_cons, added, addImport, List.append_assoc, List.singleton_append]

variable {symbols : Symbols} {name path : String}

theorem matches_of_resolveImport? (resolves : symbols.resolveImport? name = some path) :
    path ∈ symbols.imports ∧ (path = name ∨ lastSegment path = name) := by
  rw [resolveImport?] at resolves
  exact ⟨List.mem_of_find?_eq_some resolves, by simpa using List.find?_some resolves⟩

/-- No import ends in a qualified name, so one that is written just so is the only candidate. -/
theorem resolveImport?_of_qualified (qualified : '.' ∈ name.toList) :
    symbols.resolveImport? name = if name ∈ symbols.imports then some name else none := by
  have written (other : String) : (other = name ∨ lastSegment other = name) ↔ other = name := by
    refine or_iff_left ?_
    rintro rfl
    exact dot_notMem_lastSegment other qualified
  simp only [resolveImport?, written]
  split
  · next isImport =>
    cases found : symbols.imports.find? fun path => path = name with
    | none => exact absurd (decide_eq_true rfl) (List.find?_eq_none.1 found name isImport)
    | some path =>
      have same : path = name := by simpa using List.find?_some found
      rw [same]
  · next isNone =>
    refine List.find?_eq_none.2 fun path isImport same => isNone ?_
    rw [← of_decide_eq_true same]
    exact isImport

/-- An import that is written as a simple name also ends in it, so only the end of an import counts. -/
theorem resolveImport?_of_simple (simple : '.' ∉ name.toList) :
    symbols.resolveImport? name = symbols.imports.find? fun path => lastSegment path = name := by
  have ends (other : String) : (other = name ∨ lastSegment other = name) ↔ lastSegment other = name := by
    refine or_iff_right_of_imp ?_
    rintro rfl
    exact lastSegment_of_simple simple
  simp only [resolveImport?, ends]

theorem resolveImport?_of_simple_eq_some_iff (simple : '.' ∉ name.toList) :
    symbols.resolveImport? name = some path ↔
      ∃ before after, symbols.imports = before ++ path :: after ∧ EndsIn path name ∧
        ∀ earlier ∈ before, ¬EndsIn earlier name := by
  rw [resolveImport?_of_simple simple, List.find?_eq_some_iff_append]
  simp only [decide_eq_true_iff, lastSegment_eq_iff, Bool.not_eq_true', decide_eq_false_iff_not]
  constructor
  · rintro ⟨ends, before, after, imports_eq, first⟩
    exact ⟨before, after, imports_eq, ends, first⟩
  · rintro ⟨before, after, imports_eq, ends, first⟩
    exact ⟨ends, before, after, imports_eq, first⟩

/-- What a name resolves to resolves to itself. A simple one is the only name that it ends in. -/
theorem resolveImport?_resolved (resolves : symbols.resolveImport? name = some path) :
    symbols.resolveImport? path = some path := by
  obtain ⟨isImport, matched⟩ := matches_of_resolveImport? resolves
  by_cases qualified : '.' ∈ path.toList
  · rw [resolveImport?_of_qualified qualified, if_pos isImport]
  · rw [lastSegment_of_simple qualified, or_self] at matched
    rw [matched] at resolves ⊢
    exact resolves

/-- Imports that are added later come too late for a name that resolves. -/
theorem resolveImport?_importing (resolves : symbols.resolveImport? name = some path) (later : List String) :
    (symbols.importing later).resolveImport? name = some path := by
  rw [resolveImport?] at resolves
  rw [resolveImport?, imports_importing, List.find?_append, resolves, Option.some_or]

end Symbols

/-- An import that ends in a simple name hides another one that is written just so. -/
example :
    let symbols := Symbols.importing { className := "Point" } ["a.io", "io"]
    symbols.resolveImport? "io" = some "a.io" ∧ symbols.resolveImport? "a.io" = some "a.io" := by
  decide

end Stackwright
