import ShaclExtract.Path.Basic

/-!
# ShaclExtract.Shape.Basic

Shapes. A shape describes how instances of its target class are extracted: each property walks a
path from the focus and reads the nodes it reaches as instances of a class or by a datatype. The
record that is extracted has a field for each property, with the name of the property.
-/

namespace ShaclExtract

/-- How the nodes that a property reaches are read. -/
inductive ValueType where
  | ofClass (cls : Iri)
  | datatype (iri : Iri)
deriving DecidableEq, Repr

def ValueType.toText : ValueType → String
  | .ofClass c => "class <" ++ c.text ++ ">"
  | .datatype d => "datatype <" ++ d.text ++ ">"

structure Property where
  name : String
  path : Path
  minCount : Nat
  /-- None is unbounded. -/
  maxCount : Option Nat
  type : ValueType
deriving DecidableEq, Repr

namespace Property

/-- A property that may have two or more values has a list of them. -/
def isList (f : Property) : Bool :=
  match f.maxCount with
  | none => true
  | some m => 2 ≤ m

def isOptional (f : Property) : Bool := f.minCount = 0

def admits (f : Property) (found : Nat) : Bool :=
  f.minCount ≤ found &&
    match f.maxCount with
    | none => true
    | some m => found ≤ m

end Property

structure Shape where
  /-- The IRI or label of the node the shape was read from. -/
  id : String
  target : Iri
  description : Option String
  properties : List Property
deriving DecidableEq, Repr

namespace Shape

def property? (s : Shape) (name : String) : Option Property :=
  s.properties.find? fun p => p.name == name

end Shape

end ShaclExtract
