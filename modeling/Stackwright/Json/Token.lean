import Stackwright.Json.Basic
import Stackwright.Json.Quoted

/-!
Contract: the tokens of a JSON text.

Owns:
- tokens, and the grammar of the words among them;
- the scanner, one character at a time.

The scanner refuses unescaped control characters inside strings, unknown
escapes, and halves of surrogate pairs that stand alone. Outside strings it
splits at blanks and punctuation; whether a word means anything is settled when
it ends.
-/

namespace Stackwright.Json

/-- A token of a JSON text. -/
inductive Token where
  | beginObject
  | endObject
  | beginArray
  | endArray
  | colon
  | comma
  | text (text : String)
  | word (value : Json)

/-- What follows an optional minus sign. -/
def afterMinus : List Char → List Char
  | '-' :: rest => rest
  | chars => chars

/-- What follows an optional sign. -/
def afterSign : List Char → List Char
  | '+' :: rest | '-' :: rest => rest
  | chars => chars

/-- What follows at least one digit. -/
def afterDigits? (chars : List Char) : Option (List Char) :=
  if chars.takeWhile Char.isDigit = [] then none else some (chars.dropWhile Char.isDigit)

/-- What follows an optional fraction. -/
def afterFraction? : List Char → Option (List Char)
  | '.' :: rest => afterDigits? rest
  | chars => some chars

/-- What follows an optional exponent. -/
def afterExponent? : List Char → Option (List Char)
  | 'e' :: rest | 'E' :: rest => afterDigits? (afterSign rest)
  | chars => some chars

/-- Whether the characters are a number: a sign, a numeral without needless
zeros, a fraction and an exponent, of which only the numeral is required. -/
def IsNumber (chars : List Char) : Prop :=
  let unsigned := afterMinus chars
  IsNumeral (unsigned.takeWhile Char.isDigit) ∧
    (afterFraction? (unsigned.dropWhile Char.isDigit)).bind afterExponent? = some []

instance (chars : List Char) : Decidable (IsNumber chars) :=
  inferInstanceAs (Decidable (_ ∧ _))

/-- The value that a word outside strings denotes. -/
def wordValue? (word : List Char) : Option Json :=
  if word = "null".toList then some .null
  else if word = "true".toList then some (.bool true)
  else if word = "false".toList then some (.bool false)
  else if IsNumber word then some (.number (String.ofList word))
  else none

/-- The token of a punctuation mark. -/
def punctuation? (char : Char) : Option Token :=
  if char = '\x7b' then some .beginObject
  else if char = '\x7d' then some .endObject
  else if char = '[' then some .beginArray
  else if char = ']' then some .endArray
  else if char = ':' then some .colon
  else if char = ',' then some .comma
  else none

/-- The blanks that may stand between tokens. -/
def IsBlank (char : Char) : Prop :=
  char = ' ' ∨ char = '\t' ∨ char = '\n' ∨ char = '\r'

instance (char : Char) : Decidable (IsBlank char) :=
  inferInstanceAs (Decidable (_ ∨ _ ∨ _ ∨ _))

/-- The character that a one-letter escape denotes. -/
def escapeValue? (char : Char) : Option Char :=
  if char = '\x22' ∨ char = '\\' ∨ char = '/' then some char
  else if char = 'b' then some '\x08'
  else if char = 't' then some '\t'
  else if char = 'n' then some '\n'
  else if char = 'f' then some '\x0c'
  else if char = 'r' then some '\r'
  else none

/-- Where the scanner stands. Collected characters are kept in reverse. After the
first half of a surrogate pair the second has to follow at once. -/
inductive ScanState where
  | outside (word : List Char)
  | inside (text : List Char)
  | escape (text : List Char)
  | codeUnit (text : List Char) (high? : Option Nat) (digits : List Nat)
  | pairBackslash (text : List Char) (high : Nat)
  | pairMark (text : List Char) (high : Nat)

/-- The scanner: its state, and the tokens found so far, last one first. -/
structure Scanner where
  state : ScanState := .outside []
  tokens : List Token := []

namespace Scanner

/-- Ends the word that is being collected, if there is one. -/
def endWord (scanner : Scanner) (word : List Char) : Option Scanner :=
  if word = [] then
    some { scanner with state := .outside [] }
  else do
    let value ← wordValue? word.reverse
    return { state := .outside [], tokens := .word value :: scanner.tokens }

/-- Takes a finished UTF-16 unit: a character, or half of one. -/
def endUnit (scanner : Scanner) (text : List Char) (high? : Option Nat) (unit : Nat) :
    Option Scanner :=
  match high? with
  | none =>
    if 0xD800 ≤ unit ∧ unit < 0xDC00 then
      some { scanner with state := .pairBackslash text unit }
    else if 0xDC00 ≤ unit ∧ unit < 0xE000 then none
    else some { scanner with state := .inside (Char.ofNat unit :: text) }
  | some high =>
    if 0xDC00 ≤ unit ∧ unit < 0xE000 then
      let code := 0x10000 + (high - 0xD800) * 0x400 + (unit - 0xDC00)
      some { scanner with state := .inside (Char.ofNat code :: text) }
    else none

/-- Takes one character. -/
def step (scanner : Scanner) (char : Char) : Option Scanner :=
  match scanner.state with
  | .outside word =>
    if IsBlank char then scanner.endWord word
    else if char = '\x22' then do
      let ended ← scanner.endWord word
      return { ended with state := .inside [] }
    else match punctuation? char with
      | some token => do
        let ended ← scanner.endWord word
        return { ended with tokens := token :: ended.tokens }
      | none => some { scanner with state := .outside (char :: word) }
  | .inside text =>
    if char = '\x22' then
      some { state := .outside [], tokens := .text (String.ofList text.reverse) :: scanner.tokens }
    else if char = '\\' then some { scanner with state := .escape text }
    else if char.toNat < 0x20 then none
    else some { scanner with state := .inside (char :: text) }
  | .escape text =>
    if char = 'u' then some { scanner with state := .codeUnit text none [] }
    else do
      let value ← escapeValue? char
      return { scanner with state := .inside (value :: text) }
  | .codeUnit text high? digits => do
    let digit ← hexValue? char
    match digits with
    | [third, second, first] =>
      scanner.endUnit text high? (((first * 16 + second) * 16 + third) * 16 + digit)
    | _ => some { scanner with state := .codeUnit text high? (digit :: digits) }
  | .pairBackslash text high =>
    if char = '\\' then some { scanner with state := .pairMark text high } else none
  | .pairMark text high =>
    if char = 'u' then some { scanner with state := .codeUnit text (some high) [] } else none

/-- Ends the text. A string may not be open. -/
def finish (scanner : Scanner) : Option (List Token) :=
  match scanner.state with
  | .outside word => (scanner.endWord word).map fun ended => ended.tokens.reverse
  | _ => none

end Scanner

/-- The tokens of a text. -/
def tokens? (chars : List Char) : Option (List Token) := do
  let scanner ← chars.foldlM Scanner.step {}
  scanner.finish

end Stackwright.Json
