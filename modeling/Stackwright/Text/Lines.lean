/-!
Contract: texts as sequences of lines.

`unlines` ends every line with a newline. `lines` takes a text apart again: the
last newline ends a line and does not begin another, and a carriage return that
stands before a newline belongs to the line break.
-/

namespace Stackwright

/-- The lines of a text, each ended by a newline. -/
def unlines (lines : List String) : String :=
  String.join (lines.map (· ++ "\n"))

/-- The pieces between the newlines of a text, one more than there are newlines. -/
def newlinePieces (chars : List Char) : List (List Char) :=
  chars.foldr
    (fun char pieces =>
      if char = '\n' then [] :: pieces
      else match pieces with
        | [] => [[char]]
        | piece :: rest => (char :: piece) :: rest)
    [[]]

/-- A line that a newline has ended, without the carriage return before it. -/
def withoutCarriageReturn (piece : List Char) : List Char :=
  if piece.getLast? = some '\r' then piece.dropLast else piece

/-- The lines of a text. -/
def lines (text : String) : List String :=
  let pieces := newlinePieces text.toList
  let ended := pieces.dropLast.map withoutCarriageReturn
  let unended := (pieces.getLast?.toList).filter fun piece => !piece.isEmpty
  (ended ++ unended).map String.ofList

end Stackwright
