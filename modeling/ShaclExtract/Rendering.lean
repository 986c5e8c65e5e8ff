import ShaclExtract.Json.Basic
import ShaclExtract.Memo
import ShaclExtract.Path.Sparql

/-!
# ShaclExtract.Rendering

Extracted values as JSON. A reference is rendered as the value in its slot, in full wherever it
occurs, except inside itself: there it is an object with the slot's name under `$ref`. What has no
value is null, and so is a float that is not finite.

The slots that a reference is nested in are one set for the whole rendering, which is handed from
each part of a value to the next. A slot joins it when its reference is followed, and leaves it when
its content has been rendered.
-/

namespace ShaclExtract

def Term.toJson : Term → Json
  | .iri i => .object [("@id", .text i.text)]
  | .blank b => .object [("@id", .text ("_:" ++ b))]
  | .literal l => .text l.toText

namespace Value

mutual

def toJsonWith (reference : SlotId → Json) : Value → Json
  | .null => .null
  | .pending => .null
  | .bool b => .bool b
  | .integer n => .integer n
  | .float x => if x.isFinite then .float x else .null
  | .text s => .text s
  | .dateTime d => .text d.toText
  | .term t => t.toJson
  | .quads g => .array (g.map fun q => .text q.toText)
  | .path p => .text p.toSparql
  | .list items => .array (itemsToJson reference items)
  | .record fields => .object (fieldsToJson reference fields)
  | .ref s => reference s

def itemsToJson (reference : SlotId → Json) : List Value → List Json
  | [] => []
  | v :: vs => toJsonWith reference v :: itemsToJson reference vs

def fieldsToJson (reference : SlotId → Json) : List (String × Value) → List (String × Json)
  | [] => []
  | (name, v) :: fields => (name, toJsonWith reference v) :: fieldsToJson reference fields

end

mutual

/-- Renders a value with a rendering of references that may change a state, and may give up. -/
def render {σ : Type} (reference : SlotId → σ → Option (Json × σ)) :
    Value → σ → Option (Json × σ)
  | .list items, s =>
    match renderItems reference items s with
    | none => none
    | some (js, s) => some (.array js, s)
  | .record fields, s =>
    match renderFields reference fields s with
    | none => none
    | some (js, s) => some (.object js, s)
  | .ref slot, s => reference slot s
  | v, s => some (v.toJsonWith fun _ => .null, s)

def renderItems {σ : Type} (reference : SlotId → σ → Option (Json × σ)) :
    List Value → σ → Option (List Json × σ)
  | [], s => some ([], s)
  | v :: vs, s =>
    match render reference v s with
    | none => none
    | some (j, s) =>
      match renderItems reference vs s with
      | none => none
      | some (js, s) => some (j :: js, s)

def renderFields {σ : Type} (reference : SlotId → σ → Option (Json × σ)) :
    List (String × Value) → σ → Option (List (String × Json) × σ)
  | [], s => some ([], s)
  | (name, v) :: fields, s =>
    match render reference v s with
    | none => none
    | some (j, s) =>
      match renderFields reference fields s with
      | none => none
      | some (js, s) => some ((name, j) :: js, s)

end

end Value

namespace Memo

def backReference (s : SlotId) : Json := .object [("$ref", .text s.toText)]

/--
Renders a reference and keeps account of the slots whose references are followed. The depth bounds
the number of slots that are nested in each other; there is no answer if it is used up.
-/
def renderSlot (m : Memo) : Nat → SlotId → List SlotId → Option (Json × List SlotId)
  | 0, _, _ => none
  | depth + 1, s, visiting =>
    if s ∈ visiting then some (backReference s, visiting)
    else
      match m.slot? s with
      | some (.ready v) =>
        match v.render (m.renderSlot depth) (s :: visiting) with
        | none => none
        | some (j, visiting) => some (j, visiting.erase s)
      | _ => some (.null, (s :: visiting).erase s)

/-- No more slots can be nested in each other than there are, so the depth is not used up. -/
def toJson (m : Memo) (v : Value) : Json :=
  match v.render (m.renderSlot (m.slots.length + 1)) [] with
  | some (j, _) => j
  | none => .null

end Memo

end ShaclExtract
