import ShaclExtract.Extractor
import ShaclExtract.Path.Walk
import ShaclExtract.Shape.Basic
import ShaclExtract.Value.Basic

/-!
# ShaclExtract.Shape.Extraction

What a shape extracts: a record with a field for each of its properties. A property runs on the
nodes its path reaches from the focus; a failure is wrapped with the place where it happened. An
optional property that fails is left out, any other fails the shape.
-/

namespace ShaclExtract

variable {σ : Type}

def Path.hops (p : Path) : Extractor σ View (List View) := .ofExcept fun view =>
  match p.walk view.graph view.focus with
  | .error e => .error e
  | .ok nodes => .ok (nodes.map view.refocus)

namespace Property

def counted (f : Property) (target : Iri) : Extractor σ (List Value) Value := .ofExcept fun items =>
  if f.admits items.length then .ok (.list items)
  else .error (.cardinalityViolation target.text f.name f.minCount f.maxCount items.length)

/-- The value of a property: the list of all values, or the value of the only node. -/
def value (f : Property) (target : Iri) (element : Extractor σ View Value) :
    Extractor σ View Value :=
  if f.isList then (f.path.hops.andThen element.each).andThen (f.counted target)
  else (f.path.hops.andThen .only).andThen element

def located (f : Property) (shapeId : String) (target : Iri) (e : Failure) (view : View) :
    Failure :=
  .field shapeId target.text f.name view.focus.toText e

/-- A record of one field, or an empty one for an optional property that fails. -/
def entry (f : Property) (shapeId : String) (target : Iri) (element : Extractor σ View Value) :
    Extractor σ View Record :=
  let filled := ((f.value target element).mapError (f.located shapeId target)).map
    fun v => [(f.name, v)]
  if f.isOptional then filled.orElse (.const []) else filled

end Property

namespace Shape

def extractor (s : Shape) (element : ValueType → Extractor σ View Value) :
    Extractor σ View Value :=
  (Extractor.all (s.properties.map fun f => f.entry s.id s.target (element f.type))).map
    fun entries => .record (Record.ofList entries.flatten)

end Shape

end ShaclExtract
