/-!
Contract: JSON values.

Numbers keep their literal text: which number a literal denotes is asked for
only where an integer is expected, and a literal with a fraction, an exponent or
a sign in front of zero is then no integer at all. Objects keep their members in
order; a repeated key has its last value.
-/

namespace Stackwright

/-- A JSON value. -/
inductive Json where
  | null
  | bool (value : Bool)
  | number (literal : String)
  | string (text : String)
  | array (items : List Json)
  | object (members : List (String × Json))

namespace Json

/-- The number of a natural number. -/
def ofNat (value : Nat) : Json :=
  .number (toString value)

/-- The number of an integer. -/
def ofInt (value : Int) : Json :=
  .number (toString value)

def bool? : Json → Option Bool
  | .bool value => some value
  | _ => none

def string? : Json → Option String
  | .string text => some text
  | _ => none

def array? : Json → Option (List Json)
  | .array items => some items
  | _ => none

def members? : Json → Option (List (String × Json))
  | .object members => some members
  | _ => none

/-- Whether the characters are a decimal numeral without needless zeros. -/
def IsNumeral (digits : List Char) : Prop :=
  digits ≠ [] ∧ digits.all Char.isDigit ∧ (digits.head? = some '0' → digits.length = 1)

instance (digits : List Char) : Decidable (IsNumeral digits) :=
  inferInstanceAs (Decidable (_ ∧ _ ∧ _))

/-- The number that decimal digits denote. -/
def digitsValue (digits : List Char) : Nat :=
  digits.foldl (fun value digit => 10 * value + (digit.toNat - '0'.toNat)) 0

/-- The natural number that a plain numeral denotes. -/
def natural? : Json → Option Nat
  | .number literal =>
    if IsNumeral literal.toList then some (digitsValue literal.toList) else none
  | _ => none

/-- The integer that a numeral with an optional sign denotes. -/
def integer? : Json → Option Int
  | .number literal =>
    match literal.toList with
    | '-' :: digits =>
      if IsNumeral digits ∧ digits ≠ ['0'] then some (-digitsValue digits) else none
    | digits => if IsNumeral digits then some (digitsValue digits) else none
  | _ => none

/-- The value of a key among the members of an object. -/
def lookup? (members : List (String × Json)) (key : String) : Option Json :=
  members.reverse.lookup key

/-- The value of a key of an object. -/
def get? (json : Json) (key : String) : Option Json :=
  json.members?.bind fun members => lookup? members key

/-- The value of a key, as something that `read` accepts; a missing key stands
for `absent`. -/
def getWithDefault? {α : Type} (json : Json) (key : String) (absent : α)
    (read : Json → Option α) : Option α :=
  match json.get? key with
  | none => some absent
  | some value => read value

end Json

end Stackwright
