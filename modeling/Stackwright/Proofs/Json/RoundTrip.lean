import Stackwright.Json.Reader
import Stackwright.Proofs.Json.Scanning

/-!
Contract: printed JSON read back.

Owns:
- how the parts of a container are read, one after the other, with commas between them;
- the tokens of a value are read as the value, wherever a value may come next;
- the printed text of a value is parsed as the value.

What is read goes into the innermost open container. So reading a value is stated for any open
containers, and reading the parts of a container for any parts that were read before.
-/

namespace Stackwright.Json

/-! ### The parts of a container -/

/-- The states of the reader around the parts of a container. Parts that were read are kept in
reverse. Only where no part was read yet, and no comma either, may the container end at once. -/
structure PartReader (Part : Type) where
  opened : (orEnd : Bool) → List Part → Reader
  between : List Part → Reader
  closing : Token
  close : List Part → Option Reader
  step_comma : ∀ parts, (between parts).step .comma = some (opened false parts)
  step_closing : ∀ parts, (between parts).step closing = close parts
  step_closing_opened : ∀ parts, (opened true parts).step closing = close parts

namespace PartReader

def ofArray (outer : List OpenContainer) : PartReader Json where
  opened orEnd items := ⟨.value orEnd, .array items :: outer⟩
  between items := ⟨.separator, .array items :: outer⟩
  closing := .endArray
  close items := Reader.place (.array items.reverse) outer
  step_comma _ := rfl
  step_closing _ := rfl
  step_closing_opened _ := rfl

def ofObject (outer : List OpenContainer) : PartReader (String × Json) where
  opened orEnd members := ⟨.key orEnd, .object members :: outer⟩
  between members := ⟨.separator, .object members :: outer⟩
  closing := .endObject
  close members := Reader.place (.object members.reverse) outer
  step_comma _ := rfl
  step_closing _ := rfl
  step_closing_opened _ := rfl

theorem ofArray_close (outer : List OpenContainer) (items : List Json) :
    (ofArray outer).close items.reverse = Reader.place (.array items) outer :=
  congrArg (fun parts => Reader.place (.array parts) outer) items.reverse_reverse

theorem ofObject_close (outer : List OpenContainer) (members : List (String × Json)) :
    (ofObject outer).close members.reverse = Reader.place (.object members) outer :=
  congrArg (fun parts => Reader.place (.object parts) outer) members.reverse_reverse

variable {Part : Type} (reader : PartReader Part)

/-- The tokens are read as the part. -/
def ReadsPart (tokens : List Token) (part : Part) : Prop :=
  ∀ orEnd earlier, tokens.foldlM Reader.step (reader.opened orEnd earlier) = some (reader.between (part :: earlier))

/-- Parts with commas between them are read one after the other, and the closing mark ends them. -/
theorem foldlM_step_parts {tokenLists : List (List Token)} {parts : List Part}
    (each : List.Forall₂ reader.ReadsPart tokenLists parts) (earlier : List Part) {orEnd : Bool}
    (mayEnd : parts = [] → orEnd = true) :
    ([.comma].intercalate tokenLists ++ [reader.closing]).foldlM Reader.step (reader.opened orEnd earlier) =
      reader.close (parts.reverse ++ earlier) := by
  rw [List.foldlM_append]
  induction each generalizing earlier orEnd with
  | nil =>
    rw [mayEnd rfl]
    exact (bind_pure _).trans (reader.step_closing_opened earlier)
  | @cons tokens part tokenLists parts readsPart rest inductionHypothesis =>
    cases rest with
    | nil =>
      rw [List.intercalate_singleton, readsPart orEnd earlier]
      exact (bind_pure _).trans (reader.step_closing (part :: earlier))
    | cons readsNext others =>
      have separated : [Token.comma].foldlM Reader.step (reader.between (part :: earlier)) =
          some (reader.opened false (part :: earlier)) := by
        rw [List.foldlM_cons, reader.step_comma]
        rfl
      rw [List.intercalate_cons_cons, List.foldlM_append, List.foldlM_append, readsPart orEnd earlier,
        Option.bind_eq_bind, Option.bind_some, separated, Option.bind_some,
        List.reverse_cons, List.append_assoc]
      exact inductionHypothesis (part :: earlier) nofun

end PartReader

/-! ### Values -/

/-- Where a value may come next, the tokens put the value into the innermost container. -/
def Reads (tokens : List Token) (json : Json) : Prop :=
  ∀ orEnd containers, tokens.foldlM Reader.step ⟨.value orEnd, containers⟩ = Reader.place json containers

mutual

/-- The tokens of a value are read as the value. -/
theorem reads_tokens : ∀ json : Json, Reads json.tokens json
  | .null | .bool _ | .number _ | .string _ => fun _ _ => bind_pure _
  | .array items => by
    intro orEnd containers
    have read := (PartReader.ofArray containers).foldlM_step_parts (reads_itemTokens items containers) []
      fun _ => rfl
    rw [List.append_nil, PartReader.ofArray_close] at read
    rw [tokens, List.cons_append, List.foldlM_cons]
    exact read
  | .object members => by
    intro orEnd containers
    have read := (PartReader.ofObject containers).foldlM_step_parts (reads_memberTokens members containers) []
      fun _ => rfl
    rw [List.append_nil, PartReader.ofObject_close] at read
    rw [tokens, List.cons_append, List.foldlM_cons]
    exact read

theorem reads_itemTokens : ∀ (items : List Json) (outer : List OpenContainer),
    List.Forall₂ (PartReader.ofArray outer).ReadsPart (itemTokens items) items
  | [], _ => .nil
  | item :: rest, outer =>
    .cons (fun orEnd earlier => reads_tokens item orEnd (.array earlier :: outer)) (reads_itemTokens rest outer)

theorem reads_memberTokens : ∀ (members : List (String × Json)) (outer : List OpenContainer),
    List.Forall₂ (PartReader.ofObject outer).ReadsPart (memberTokens members) members
  | [], _ => .nil
  | (key, value) :: rest, outer =>
    .cons (fun _ earlier => reads_tokens value false (.member earlier key :: outer))
      (reads_memberTokens rest outer)

end

/-- The printed text of a value is parsed as the value. -/
theorem parse?_render {json : Json} (proper : json.IsProper) : parse? json.render = some json := by
  obtain ⟨scanner, scanned, word, isOutside, ended⟩ := scans_render json proper []
  have found : tokens? json.render.toList = some json.tokens := by
    have finished : scanner.finish = some json.tokens := by
      rw [Scanner.finish, isOutside]
      simp only [ended, Option.map_some, Scanner.after, List.nil_append, List.reverse_reverse]
    have start : ({} : Scanner) = .after [] := rfl
    rw [tokens?, start, scanned]
    exact finished
  have read : json.tokens.foldlM Reader.step {} = some ⟨.nothing json, []⟩ := reads_tokens json false []
  rw [parse?, found, Option.bind_eq_bind, Option.bind_some, read]
  rfl

end Stackwright.Json
