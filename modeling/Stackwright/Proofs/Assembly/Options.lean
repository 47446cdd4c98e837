import Stackwright.Assembly.OptionsJson
import Stackwright.Proofs.Json.Members
import Stackwright.Proofs.Json.RoundTrip
import Stackwright.Proofs.Text.Decimal

/-!
Contract: options written as JSON and read again.

Owns:
- numbers of sixteen bits as JSON numbers;
- options that are written are read back as they were;
- what the members of an object say of limits and of options;
- of the members of an object, which matter, and for which option.
-/

namespace Stackwright

/-! ### Numbers -/

theorem Json.isNumeral_toDigits (number : Nat) : Json.IsNumeral (Nat.toDigits 10 number) := by
  have isDecimal := isDecimal_toDigits number
  refine ⟨isDecimal.nonempty, List.all_eq_true.2 isDecimal.digits, ?_⟩
  intro leadingZero
  rw [isDecimal.noLeadingZero leadingZero]
  rfl

theorem Json.isNumber_toDigits (number : Nat) : Json.IsNumber (Nat.toDigits 10 number) := by
  have isDecimal := isDecimal_toDigits number
  have unsigned : Json.afterMinus (Nat.toDigits 10 number) = Nat.toDigits 10 number := by
    unfold Json.afterMinus
    split
    · rename_i rest chars
      have isDigit := isDecimal.digits '-' (chars ▸ List.mem_cons_self)
      cases isDigit
    · rfl
  rw [Json.IsNumber, unsigned, List.takeWhile_eq_self_iff.2 isDecimal.digits,
    List.dropWhile_eq_nil_iff.2 isDecimal.digits]
  exact ⟨Json.isNumeral_toDigits number, rfl⟩

theorem Json.isProper_ofNat (number : Nat) : (Json.ofNat number).IsProper := by
  show Json.IsNumber (toString number).toList
  rw [Nat.toString_eq_repr, Nat.toList_repr]
  exact Json.isNumber_toDigits number

theorem Json.natural?_ofNat (number : Nat) : (Json.ofNat number).natural? = some number := by
  have denotes : Json.digitsValue (Nat.toDigits 10 number) = number :=
    Nat.ofDigitChars_toDigits (by decide) (by decide)
  rw [Json.ofNat, Json.natural?, Nat.toString_eq_repr, Nat.toList_repr,
    if_pos (Json.isNumeral_toDigits number), denotes]

theorem wordOfJson?_ofNat (word : UInt16) : wordOfJson? (.ofNat word.toNat) = some word := by
  rw [wordOfJson?, Json.natural?_ofNat, Option.bind_eq_bind, Option.bind_some, if_pos word.toNat_lt,
    UInt16.ofNat_toNat]

/-! ### Round trip -/

theorem Limits.isProper_toJson (limits : Limits) : limits.toJson.IsProper := by
  cases limits with
  | fixed stack locals => exact ⟨trivial, Json.isProper_ofNat _, Json.isProper_ofNat _, trivial⟩
  | computed => exact ⟨trivial, trivial⟩

theorem Limits.ofJson?_toJson (limits : Limits) : Limits.ofJson? limits.toJson = some limits := by
  cases limits with
  | fixed stack locals =>
    show (do return Limits.fixed (← wordOfJson? (.ofNat stack.toNat)) (← wordOfJson? (.ofNat locals.toNat))) = _
    rw [wordOfJson?_ofNat, wordOfJson?_ofNat]
    rfl
  | computed => rfl

namespace Options

theorem ofJson?_toJson (options : Options) : ofJson? options.toJson = some options := by
  show ((Limits.ofJson? options.limits.toJson).bind fun limits =>
    some ({ options with limits } : Options)) = some options
  rw [Limits.ofJson?_toJson, Option.bind_some]

theorem parse?_render (options : Options) : parse? options.render = some options := by
  have proper : options.toJson.IsProper := ⟨options.limits.isProper_toJson, trivial, trivial, trivial⟩
  rw [parse?, render, Json.parse?_render proper, Option.bind_some, ofJson?_toJson]

end Options

/-! ### What the members of an object say -/

theorem Json.string?_eq_some_iff {json : Json} {text : String} :
    json.string? = some text ↔ json = .string text := by
  cases json with
  | string other => simp [Json.string?]
  | null | bool | number | array | object => exact iff_of_false nofun nofun

namespace Limits

/-- The members describe limits. Only those of the mode are looked at. -/
inductive Described (members : List (String × Json)) : Limits → Prop where
  | fixed {stack locals : UInt16} (mode : Json.lookup? members "mode" = some (.string "fixed"))
      (isStack : (Json.lookup? members "stack").bind wordOfJson? = some stack)
      (isLocals : (Json.lookup? members "locals").bind wordOfJson? = some locals) :
      Described members (.fixed stack locals)
  | computed (mode : Json.lookup? members "mode" = some (.string "computed")) :
      Described members .computed

theorem ofJson?_object_eq_some_iff {members : List (String × Json)} {limits : Limits} :
    ofJson? (.object members) = some limits ↔ Described members limits := by
  show ofNamed? (.object members) = some limits ↔ _
  simp only [ofNamed?, Json.get?_object, Option.bind_eq_bind]
  constructor
  · intro read
    simp only [Option.bind_eq_some_iff] at read
    obtain ⟨modeJson, hasMode, mode, isString, read⟩ := read
    rw [Json.string?_eq_some_iff.1 isString] at hasMode
    split at read
    · subst mode
      simp only [Option.bind_eq_some_iff] at read
      obtain ⟨stackJson, hasStack, stack, isStack, localsJson, hasLocals, locals, isLocals, same⟩ := read
      cases same
      exact .fixed hasMode (Option.bind_eq_some_iff.2 ⟨_, hasStack, isStack⟩)
        (Option.bind_eq_some_iff.2 ⟨_, hasLocals, isLocals⟩)
    · split at read
      · subst mode
        cases read
        exact .computed hasMode
      · cases read
  · intro described
    cases described with
    | fixed mode isStack isLocals =>
      simp only [mode, Option.bind_some, Json.string?, if_true, ← Option.bind_assoc, isStack, isLocals]
      rfl
    | computed mode =>
      rw [mode]
      rfl

/-- The keys of limits. -/
def keys : List String :=
  ["mode", "stack", "locals"]

/-- Limits depend on what their keys say. -/
theorem ofJson?_object_congr {members others : List (String × Json)}
    (same : ∀ key ∈ keys, Json.lookup? members key = Json.lookup? others key) :
    ofJson? (.object members) = ofJson? (.object others) := by
  show ofNamed? (.object members) = ofNamed? (.object others)
  simp only [ofNamed?, Json.get?_object, same "mode" (by decide), same "stack" (by decide),
    same "locals" (by decide)]

/-- The members differ in what does not matter for limits: in members of other keys, in their order,
or in the numbers if the limits are computed. -/
inductive Alike (members others : List (String × Json)) : Prop where
  | only (same : Json.only keys members = Json.only keys others)
  | rearranged (perm : members.Perm others) (distinct : (members.map Prod.fst).Nodup)
  | computed (mode : Json.lookup? members "mode" = some (.string "computed"))
      (otherMode : Json.lookup? others "mode" = some (.string "computed"))

theorem Alike.ofJson?_eq {members others : List (String × Json)} (alike : Alike members others) :
    ofJson? (.object members) = ofJson? (.object others) := by
  cases alike with
  | only same => exact ofJson?_object_congr fun _ isKey => Json.lookup?_eq_of_only same isKey
  | rearranged perm distinct => exact ofJson?_object_congr fun key _ => Json.lookup?_perm perm distinct key
  | computed mode otherMode =>
    rw [ofJson?_object_eq_some_iff.2 (.computed mode), ofJson?_object_eq_some_iff.2 (.computed otherMode)]

end Limits

namespace Options

/-- The members of an object, laid over the defaults. -/
structure OverDefaults (members : List (String × Json)) (options : Options) : Prop where
  limits : Json.Overlaid members "limits" Limits.ofJson? ({} : Options).limits options.limits
  indent : Json.Overlaid members "indent" Json.string? ({} : Options).indent options.indent
  defaultSuper : Json.Overlaid members "default_super" Json.string? ({} : Options).defaultSuper
    options.defaultSuper

variable {members others : List (String × Json)} {options : Options} {json : Json}

theorem ofJson?_object (members : List (String × Json)) : ofJson? (.object members) = do
    let limits ← (Json.object members).getWithDefault? "limits" ({} : Options).limits Limits.ofJson?
    let indent ← (Json.object members).getWithDefault? "indent" ({} : Options).indent Json.string?
    let defaultSuper ← (Json.object members).getWithDefault? "default_super" ({} : Options).defaultSuper
      Json.string?
    return { limits, indent, defaultSuper } :=
  rfl

theorem ofJson?_object_eq_some_iff : ofJson? (.object members) = some options ↔ OverDefaults members options := by
  simp only [ofJson?_object, Option.bind_eq_bind, Option.bind_eq_some_iff, Json.getWithDefault?_eq_some_iff]
  constructor
  · intro read
    obtain ⟨limits, isLimits, indent, isIndent, defaultSuper, isSuper, same⟩ := read
    cases same
    exact ⟨isLimits, isIndent, isSuper⟩
  · intro laid
    exact ⟨_, laid.limits, _, laid.indent, _, laid.defaultSuper, rfl⟩

/-- Options depend on what their three keys say. -/
theorem ofJson?_object_congr
    (sameLimits : (Json.lookup? members "limits").map Limits.ofJson? =
      (Json.lookup? others "limits").map Limits.ofJson?)
    (sameIndent : Json.lookup? members "indent" = Json.lookup? others "indent")
    (sameSuper : Json.lookup? members "default_super" = Json.lookup? others "default_super") :
    ofJson? (.object members) = ofJson? (.object others) := by
  rw [ofJson?_object, ofJson?_object, Json.getWithDefault?_congr sameLimits,
    Json.getWithDefault?_congr (congrArg _ sameIndent), Json.getWithDefault?_congr (congrArg _ sameSuper)]

/-- Members of other keys do not matter. -/
theorem ofJson?_object_of_only (same : Json.only keys members = Json.only keys others) :
    ofJson? (.object members) = ofJson? (.object others) := by
  have sameValue (key : String) (isKey : key ∈ keys) :
      Json.lookup? members key = Json.lookup? others key :=
    Json.lookup?_eq_of_only same isKey
  exact ofJson?_object_congr (congrArg _ (sameValue _ (by decide))) (sameValue _ (by decide))
    (sameValue _ (by decide))

/-- What does not matter for limits does not matter for options that have them. -/
theorem ofJson?_object_of_alike {limits otherLimits : List (String × Json)}
    (alike : Limits.Alike limits otherLimits) (before after : List (String × Json)) :
    ofJson? (.object (before ++ ("limits", .object limits) :: after)) =
      ofJson? (.object (before ++ ("limits", .object otherLimits) :: after)) := by
  have elsewhere (key : String) (differs : key ≠ "limits") :
      Json.lookup? (before ++ ("limits", .object limits) :: after) key =
        Json.lookup? (before ++ ("limits", .object otherLimits) :: after) key := by
    simp only [Json.lookup?_append, Json.lookup?_cons, if_neg differs]
  refine ofJson?_object_congr ?_ (elsewhere "indent" (by decide)) (elsewhere "default_super" (by decide))
  rw [Json.lookup?_append, Json.lookup?_append, Json.lookup?_cons, Json.lookup?_cons, if_pos rfl, if_pos rfl]
  cases Json.lookup? after "limits" with
  | some later => rfl
  | none => exact congrArg some alike.ofJson?_eq

/-- The second object has the given value for the key, and for the keys of the other options the
same as the first one. -/
structure Changes (key : String) (json : Json) (members others : List (String × Json)) : Prop where
  changed : Json.lookup? others key = some json
  same : ∀ other ∈ keys, other ≠ key → Json.lookup? others other = Json.lookup? members other

/-- What other keys say is kept. -/
theorem Changes.keeps {key other : String} {Value : Type} {read : Json → Option Value} {default value : Value}
    (changes : Changes key json members others) (isKey : other ∈ keys) (differs : other ≠ key)
    (overlaid : Json.Overlaid members other read default value) :
    (Json.object others).getWithDefault? other default read = some value := by
  rw [Json.getWithDefault?_congr (congrArg _ (changes.same other isKey differs))]
  exact Json.getWithDefault?_eq_some_iff.2 overlaid

theorem ofJson?_of_changes_limits (changes : Changes "limits" json members others)
    (laid : OverDefaults members options) :
    ofJson? (.object others) = (Limits.ofJson? json).map fun limits => { options with limits } := by
  rw [ofJson?_object, Json.getWithDefault?_of_lookup? changes.changed,
    changes.keeps (by decide) (by decide) laid.indent, changes.keeps (by decide) (by decide) laid.defaultSuper]
  cases Limits.ofJson? json <;> rfl

theorem ofJson?_of_changes_indent (changes : Changes "indent" json members others)
    (laid : OverDefaults members options) :
    ofJson? (.object others) = json.string?.map fun indent => { options with indent } := by
  rw [ofJson?_object, changes.keeps (by decide) (by decide) laid.limits,
    Json.getWithDefault?_of_lookup? changes.changed, changes.keeps (by decide) (by decide) laid.defaultSuper]
  cases json.string? <;> rfl

theorem ofJson?_of_changes_super (changes : Changes "default_super" json members others)
    (laid : OverDefaults members options) :
    ofJson? (.object others) = json.string?.map fun defaultSuper => { options with defaultSuper } := by
  rw [ofJson?_object, changes.keeps (by decide) (by decide) laid.limits,
    changes.keeps (by decide) (by decide) laid.indent, Json.getWithDefault?_of_lookup? changes.changed]
  cases json.string? <;> rfl

/-- Options are read back as they were written. Objects are read over the defaults: only the keys
of the options count, wherever their members stand, and each of them for its own option alone. -/
structure ReadOverDefaults : Prop where
  parse_render : ∀ options : Options, parse? options.render = some options
  reads_iff : ∀ members options, ofJson? (.object members) = some options ↔ OverDefaults members options
  reads_limits_iff : ∀ members limits,
    Limits.ofJson? (.object members) = some limits ↔ Limits.Described members limits
  other_members : ∀ members others, Json.only keys members = Json.only keys others →
    ofJson? (.object members) = ofJson? (.object others)
  other_limits : ∀ before after limits otherLimits, Limits.Alike limits otherLimits →
    ofJson? (.object (before ++ ("limits", .object limits) :: after)) =
      ofJson? (.object (before ++ ("limits", .object otherLimits) :: after))
  any_order : ∀ members others, members.Perm others → (members.map Prod.fst).Nodup →
    ofJson? (.object members) = ofJson? (.object others)
  change_limits : ∀ members others json options, Changes "limits" json members others →
    ofJson? (.object members) = some options →
      ofJson? (.object others) = (Limits.ofJson? json).map fun limits => { options with limits }
  change_indent : ∀ members others json options, Changes "indent" json members others →
    ofJson? (.object members) = some options →
      ofJson? (.object others) = json.string?.map fun indent => { options with indent }
  change_super : ∀ members others json options, Changes "default_super" json members others →
    ofJson? (.object members) = some options →
      ofJson? (.object others) = json.string?.map fun defaultSuper => { options with defaultSuper }

theorem read_over_defaults : ReadOverDefaults where
  parse_render := parse?_render
  reads_iff _ _ := ofJson?_object_eq_some_iff
  reads_limits_iff _ _ := Limits.ofJson?_object_eq_some_iff
  other_members _ _ := ofJson?_object_of_only
  other_limits before after _ _ alike := ofJson?_object_of_alike alike before after
  any_order members others rearranged distinct := by
    have sameValue := Json.lookup?_perm rearranged distinct
    exact ofJson?_object_congr (congrArg _ (sameValue "limits")) (sameValue "indent") (sameValue "default_super")
  change_limits _ _ _ _ changes read := ofJson?_of_changes_limits changes (ofJson?_object_eq_some_iff.1 read)
  change_indent _ _ _ _ changes read := ofJson?_of_changes_indent changes (ofJson?_object_eq_some_iff.1 read)
  change_super _ _ _ _ changes read := ofJson?_of_changes_super changes (ofJson?_object_eq_some_iff.1 read)

example :
    ofJson? (.object [("limits", .object [("mode", .string "computed"), ("stack", .null)]),
      ("comment", .bool true), ("indent", .string "\t")]) =
      some { limits := .computed, indent := "\t" } := by
  rfl

end Options

end Stackwright
