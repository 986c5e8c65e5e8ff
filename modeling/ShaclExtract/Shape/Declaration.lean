import ShaclExtract.Number.Digits
import ShaclExtract.Path.Writing
import ShaclExtract.Shape.Basic

/-!
# ShaclExtract.Shape.Declaration

Shapes as they are declared, and the quads that declare them. A declaration leaves out the bounds
that are not given and may name any number of target classes; the shapes it stands for are one for
each target class, or one for the subject itself.
-/

namespace ShaclExtract

structure PropertyDeclaration where
  name : String
  path : Path
  minCount : Option Nat
  maxCount : Option Nat
  type : ValueType
deriving DecidableEq, Repr

structure ShapeDeclaration where
  subject : Iri
  targets : List Iri
  description : Option String
  properties : List PropertyDeclaration
deriving DecidableEq, Repr

/-! ## what is declared -/

def PropertyDeclaration.property (p : PropertyDeclaration) : Property :=
  { name := p.name, path := p.path, minCount := p.minCount.getD 0, maxCount := p.maxCount,
    type := p.type }

def ShapeDeclaration.shapes (s : ShapeDeclaration) : List Shape :=
  (if s.targets = [] then [s.subject] else s.targets).map fun target =>
    { id := s.subject.text, target, description := s.description,
      properties := s.properties.map PropertyDeclaration.property }

/-! ## quads -/

def countTerm (n : Nat) : Term := .literal (.typed (String.ofList (Number.toDigits n)) Xsd.integer)

def ValueType.quad (node : Resource) : ValueType → Quad
  | .ofClass c => ⟨node, Sh.classOf, .iri c, none⟩
  | .datatype d => ⟨node, Sh.datatype, .iri d, none⟩

/-- The quads of a property at the node numbered `n`; its path takes the numbers behind that. -/
def PropertyDeclaration.write (label : Nat → String) (n : Nat) (p : PropertyDeclaration) :
    Path.Written :=
  let node : Resource := .blank (label n)
  let path := p.path.write label (n + 1)
  { node := node.toTerm
    quads :=
      [⟨node, Sh.path, path.node, none⟩, ⟨node, Sh.name, .literal (.simple p.name), none⟩,
        p.type.quad node] ++
      p.minCount.toList.map (fun m => ⟨node, Sh.minCount, countTerm m, none⟩) ++
      p.maxCount.toList.map (fun m => ⟨node, Sh.maxCount, countTerm m, none⟩) ++ path.quads
    next := path.next }

/-- The quads of properties of a subject, and the first number not used for them. -/
def writeProperties (label : Nat → String) (subject : Resource) (n : Nat) :
    List PropertyDeclaration → Graph × Nat
  | [] => ([], n)
  | p :: ps =>
    let property := p.write label n
    let more := writeProperties label subject property.next ps
    (⟨subject, Sh.property, property.node, none⟩ :: property.quads ++ more.1, more.2)

def ShapeDeclaration.write (label : Nat → String) (n : Nat) (s : ShapeDeclaration) : Graph × Nat :=
  let subject : Resource := .iri s.subject
  let properties := writeProperties label subject n s.properties
  (⟨subject, Rdf.type, .iri Sh.nodeShape, none⟩ ::
    s.targets.map (fun t => ⟨subject, Sh.targetClass, .iri t, none⟩) ++
    s.description.toList.map (fun d => ⟨subject, Sh.description, .literal (.simple d), none⟩) ++
    properties.1, properties.2)

namespace ShapeDeclaration

/-- The quads of several declarations, with labels from the number `n` on. -/
def writeAll (label : Nat → String) (n : Nat) : List ShapeDeclaration → Graph
  | [] => []
  | s :: ss =>
    let quads := s.write label n
    quads.1 ++ writeAll label quads.2 ss

end ShapeDeclaration

end ShaclExtract
