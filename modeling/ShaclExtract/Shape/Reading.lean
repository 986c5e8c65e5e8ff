import ShaclExtract.Path.Reading
import ShaclExtract.Path.Sparql
import ShaclExtract.Shape.Basic
import ShaclExtract.Text.Blank
import ShaclExtract.Number.Digits

/-!
# ShaclExtract.Shape.Reading

Reading shapes out of a shapes graph. Every subject typed `sh:NodeShape` is read, in the order in
which the subjects first appear, into one shape for each of its target classes; a subject without
target class targets itself, unless it is a blank node. The first thing that cannot be read fails
the whole graph. The answer is `none` if a path description refers to itself.
-/

namespace ShaclExtract

def malformedShape (node : Term) (reason : String) : Failure :=
  .malformedShape node.toText reason

namespace Property

def readCount (g : Graph) (node : Term) (predicate : Iri) : Except Failure (Option Nat) :=
  match g.object? node predicate with
  | none => .ok none
  | some t =>
    match Number.count? (Text.trim t.lexical.toList) with
    | some n => .ok (some n)
    | none => .error (malformedShape node (predicate.toText ++ " is not a count: " ++ t.toText))

def readIri (g : Graph) (node : Term) (predicate : Iri) : Except Failure (Option Iri) :=
  match g.object? node predicate with
  | none => .ok none
  | some (.iri i) => .ok (some i)
  | some t =>
    .error (malformedShape node (predicate.toText ++ " must be an IRI, found " ++ t.toText))

/-- Exactly one of a class and a datatype. -/
def readType (g : Graph) (node : Term) (name : String) : Except Failure ValueType :=
  match readIri g node Sh.classOf with
  | .error e => .error e
  | .ok cls =>
    match readIri g node Sh.datatype with
    | .error e => .error e
    | .ok datatype =>
      match cls, datatype with
      | some c, none => .ok (.ofClass c)
      | none, some d => .ok (.datatype d)
      | some _, some _ => .error (malformedShape node (name ++ ": both sh:class and sh:datatype"))
      | none, none => .error (malformedShape node (name ++ ": needs sh:class or sh:datatype"))

def readRest (g : Graph) (node : Term) (path : Path) : Except Failure Property :=
  match g.object? node Sh.name with
  | none => .error (malformedShape node ("missing sh:name for path " ++ path.toSparql))
  | some t =>
    let name := t.lexical
    match readCount g node Sh.minCount with
    | .error e => .error e
    | .ok minCount =>
      match readCount g node Sh.maxCount with
      | .error e => .error e
      | .ok maxCount =>
        match readType g node name with
        | .error e => .error e
        | .ok type => .ok { name, path, minCount := minCount.getD 0, maxCount, type }

def read (g : Graph) (node : Term) : Option (Except Failure Property) :=
  match g.object? node Sh.path with
  | none => some (.error (malformedShape node "missing sh:path"))
  | some p =>
    match Path.read g p with
    | none => none
    | some (.error e) => some (.error e)
    | some (.ok path) => some (readRest g node path)

def readEach (g : Graph) : List Term → Option (Except Failure (List Property))
  | [] => some (.ok [])
  | node :: rest =>
    match read g node with
    | none => none
    | some (.error e) => some (.error e)
    | some (.ok f) =>
      match readEach g rest with
      | none => none
      | some (.error e) => some (.error e)
      | some (.ok fs) => some (.ok (f :: fs))

end Property

namespace Shape

/-- The first name that is already in the list before it. -/
def duplicate? : List String → List String → Option String
  | _, [] => none
  | seen, name :: rest => if name ∈ seen then some name else duplicate? (name :: seen) rest

def targets (g : Graph) (subject : Term) : List Iri :=
  match (g.objects subject Sh.targetClass).filterMap Term.iri? with
  | [] => subject.iri?.toList
  | classes => classes

/-- Reads the shapes of one subject, one for each target class. -/
def readSubject (g : Graph) (subject : Term) : Option (Except Failure (List Shape)) :=
  if !g.hasType subject Sh.nodeShape then some (.error (.typeMismatch subject.toText))
  else
    match Property.readEach g (g.objects subject Sh.property) with
    | none => none
    | some (.error e) => some (.error e)
    | some (.ok properties) =>
      match duplicate? [] (properties.map Property.name) with
      | some name =>
        some (.error (malformedShape subject ("duplicate field name " ++ Text.quoted name)))
      | none =>
        let description := (g.object? subject Sh.description).map Term.lexical
        some (.ok ((targets g subject).map fun target =>
          { id := subject.lexical, target, description, properties }))

/-- Every subject typed `sh:NodeShape`, each once, in order of first appearance. -/
def subjects (g : Graph) : List Term :=
  (g.subjects (.iri Sh.nodeShape) Rdf.type).eraseDups

def readSubjects (g : Graph) : List Term → Option (Except Failure (List Shape))
  | [] => some (.ok [])
  | subject :: rest =>
    match readSubject g subject with
    | none => none
    | some (.error e) => some (.error e)
    | some (.ok shapes) =>
      match readSubjects g rest with
      | none => none
      | some (.error e) => some (.error e)
      | some (.ok more) => some (.ok (shapes ++ more))

def readAll (g : Graph) : Option (Except Failure (List Shape)) := readSubjects g (subjects g)

end Shape

end ShaclExtract
