import Stackwright.Json.Token

/-!
Contract: the value that a JSON text denotes.

The reader goes over the tokens once and keeps the containers that are still
open on a stack, innermost first, so nesting costs no recursion. Every token is
either the only thing that can come next or an error; in particular, a comma may
not stand before a closing mark.
-/

namespace Stackwright.Json

/-- A container that is still open. Its parts are kept in reverse. -/
inductive OpenContainer where
  | array (items : List Json)
  | object (members : List (String × Json))
  | member (members : List (String × Json)) (key : String)

/-- What may come next. -/
inductive Expectation where
  | value (orEnd : Bool)
  | key (orEnd : Bool)
  | colon (key : String)
  | separator
  | nothing (result : Json)

/-- The reader: what may come next, and the open containers. -/
structure Reader where
  expectation : Expectation := .value false
  containers : List OpenContainer := []

namespace Reader

/-- Puts a finished value into the innermost container. -/
def place (value : Json) : List OpenContainer → Option Reader
  | [] => some { expectation := .nothing value }
  | .array items :: outer =>
    some { expectation := .separator, containers := .array (value :: items) :: outer }
  | .member members key :: outer =>
    some { expectation := .separator, containers := .object ((key, value) :: members) :: outer }
  | .object _ :: _ => none

/-- Closes the innermost container, which has to be an array. -/
def closeArray : List OpenContainer → Option Reader
  | .array items :: outer => place (.array items.reverse) outer
  | _ => none

/-- Closes the innermost container, which has to be an object between members. -/
def closeObject : List OpenContainer → Option Reader
  | .object members :: outer => place (.object members.reverse) outer
  | _ => none

/-- Takes one token. -/
def step (reader : Reader) (token : Token) : Option Reader :=
  match reader.expectation, token with
  | .value _, .text text => place (.string text) reader.containers
  | .value _, .word value => place value reader.containers
  | .value _, .beginArray =>
    some { expectation := .value true, containers := .array [] :: reader.containers }
  | .value _, .beginObject =>
    some { expectation := .key true, containers := .object [] :: reader.containers }
  | .value true, .endArray => closeArray reader.containers
  | .key _, .text key => some { reader with expectation := .colon key }
  | .key true, .endObject => closeObject reader.containers
  | .colon key, .colon =>
    match reader.containers with
    | .object members :: outer =>
      some { expectation := .value false, containers := .member members key :: outer }
    | _ => none
  | .separator, .comma =>
    match reader.containers with
    | .array _ :: _ => some { reader with expectation := .value false }
    | .object _ :: _ => some { reader with expectation := .key false }
    | _ => none
  | .separator, .endArray => closeArray reader.containers
  | .separator, .endObject => closeObject reader.containers
  | _, _ => none

/-- Ends the text: a value has to be complete. -/
def finish (reader : Reader) : Option Json :=
  match reader.expectation with
  | .nothing result => some result
  | _ => none

end Reader

/-- The value of a JSON text. -/
def parse? (text : String) : Option Json := do
  let tokens ← tokens? text.toList
  let reader ← tokens.foldlM Reader.step {}
  reader.finish

end Stackwright.Json
