/-!
Contract: the quoted form of JSON strings.

Only what has to be escaped is escaped: the quotation mark, the backslash and
the control characters below the blank. Five of those have short names; the
others are written with four lower-case hexadecimal digits.
-/

namespace Stackwright.Json

/-- The lower-case hexadecimal digit of a number below sixteen. -/
def hexDigit (value : Nat) : Char :=
  if value < 10 then Char.ofNat ('0'.toNat + value) else Char.ofNat ('a'.toNat + (value - 10))

/-- The number that a hexadecimal digit of either case denotes. -/
def hexValue? (char : Char) : Option Nat :=
  if '0' ≤ char ∧ char ≤ '9' then some (char.toNat - '0'.toNat)
  else if 'a' ≤ char ∧ char ≤ 'f' then some (char.toNat - 'a'.toNat + 10)
  else if 'A' ≤ char ∧ char ≤ 'F' then some (char.toNat - 'A'.toNat + 10)
  else none

/-- The letter that stands for a control character after a backslash. -/
def controlLetter? (char : Char) : Option Char :=
  if char = '\x08' then some 'b'
  else if char = '\t' then some 't'
  else if char = '\n' then some 'n'
  else if char = '\x0c' then some 'f'
  else if char = '\r' then some 'r'
  else none

/-- The characters that stand for one character inside quotation marks. -/
def escaped (char : Char) : List Char :=
  if char = '\x22' ∨ char = '\\' then ['\\', char]
  else if char.toNat < 0x20 then
    match controlLetter? char with
    | some letter => ['\\', letter]
    | none =>
      ['\\', 'u', '0', '0', hexDigit (char.toNat / 16), hexDigit (char.toNat % 16)]
  else [char]

/-- A text between quotation marks. -/
def quoted (text : String) : String :=
  String.ofList ('\x22' :: text.toList.flatMap escaped ++ ['\x22'])

end Stackwright.Json
