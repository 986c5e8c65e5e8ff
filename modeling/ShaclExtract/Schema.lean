import ShaclExtract.Evaluation
import ShaclExtract.Rendering
import ShaclExtract.Shape.Reading

/-!
# ShaclExtract.Schema

The way in: compile a shapes graph once, then extract nodes of data graphs by class or by type.
Every extraction has a memo of its own, which its result keeps, since the value may refer to its
slots.
-/

namespace ShaclExtract

/-- The result of one extraction: the value and the memo that its references point into. -/
structure Extraction where
  /-- The value as it was computed, possibly a reference. -/
  raw : Value
  memo : Memo

namespace Extraction

def resolve (x : Extraction) (v : Value) : Value := x.memo.resolve v

def value (x : Extraction) : Value := x.resolve x.raw

def toJson (x : Extraction) : Json := x.memo.toJson x.raw

end Extraction

structure Options where
  transforms : Table Iri Transform
  /-- Programs registered before any shape is read, in order; the last one of a class counts. -/
  custom : List (Iri × Program)
  environment : Environment
  procedures : Table String Program

namespace Options

def default : Options := ⟨.empty, [], fun _ => none, .empty⟩

end Options

structure Schema where
  shapes : List Shape
  setting : Setting

namespace Schema

/-- What is registered when the given shapes have been read. -/
def registry (custom : List (Iri × Program)) (shapes : List Shape) : Registry :=
  let known := custom.foldl (fun r e => r.insert e.1 e.2) Registry.builtins
  shapes.foldl (fun r s => r.register s.target (.shape s)) known

/-- Compiles a shapes graph; `none` if a path description in it refers to itself. -/
def compile (options : Options) (g : Graph) : Option (Except Failure Schema) :=
  match Shape.readAll g with
  | none => none
  | some (.error e) => some (.error e)
  | some (.ok shapes) =>
    some (.ok
      { shapes
        setting :=
          { registry := registry options.custom shapes
            subclasses := .ofGraph g
            transforms := options.transforms
            environment := options.environment
            procedures := options.procedures } })

def classExtractor (schema : Schema) (cls : Iri) : Extractor RunState View Value :=
  schema.setting.run fun invoke => schema.setting.instanceOf .memoized invoke cls

def typedExtractor (schema : Schema) : Extractor RunState View (Option Value) :=
  schema.setting.run Setting.typed

/-- What is registered for a class, without sharing and without transform. -/
def registered? (schema : Schema) (cls : Iri) : Option (Extractor RunState View Value) :=
  (schema.setting.registry.program? cls).map schema.setting.runProgram

def propertyExtractor (schema : Schema) (s : Shape) (f : Property) :
    Extractor RunState View Record :=
  schema.setting.run fun invoke =>
    f.entry s.id s.target (schema.setting.element .memoized invoke f.type)

/-- Extracts with a fresh memo and goes on with the given counters. -/
def extractCounting (schema : Schema) (cls : Iri) (view : View) (counters : Counters) :
    Option (Except Failure Extraction × Counters) :=
  match schema.classExtractor cls view (.start counters) with
  | none => none
  | some (.error e, s) => some (.error e, s.counters)
  | some (.ok v, s) => some (.ok ⟨v, s.memo⟩, s.counters)

def extractTypedCounting (schema : Schema) (view : View) (counters : Counters) :
    Option (Except Failure (Option Extraction) × Counters) :=
  match schema.typedExtractor view (.start counters) with
  | none => none
  | some (.error e, s) => some (.error e, s.counters)
  | some (.ok none, s) => some (.ok none, s.counters)
  | some (.ok (some v), s) => some (.ok (some ⟨v, s.memo⟩), s.counters)

def extract (schema : Schema) (cls : Iri) (view : View) : Option (Except Failure Extraction) :=
  (schema.extractCounting cls view .empty).map Prod.fst

/-- Extracts the focus by its asserted types; there is no result if it asserts none. -/
def extractTyped (schema : Schema) (view : View) :
    Option (Except Failure (Option Extraction)) :=
  (schema.extractTypedCounting view .empty).map Prod.fst

end Schema

end ShaclExtract
