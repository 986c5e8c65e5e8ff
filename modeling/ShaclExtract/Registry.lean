import ShaclExtract.Program
import ShaclExtract.Table

/-!
# ShaclExtract.Registry

What is registered for each class: programs to be tried in order. A class is registered if it has an
entry, and an entry has at least one program.
-/

namespace ShaclExtract

structure Registry where
  alternatives : Table Iri (List Program)

namespace Registry

def empty : Registry := ⟨.empty⟩

def contains (r : Registry) (cls : Iri) : Bool := r.alternatives.contains cls

def alternativesOf (r : Registry) (cls : Iri) : List Program := (r.alternatives.get? cls).getD []

def insert (r : Registry) (cls : Iri) (p : Program) : Registry :=
  ⟨r.alternatives.insert cls [p]⟩

def register (r : Registry) (cls : Iri) (p : Program) : Registry :=
  ⟨r.alternatives.insert cls (r.alternativesOf cls ++ [p])⟩

def program? (r : Registry) (cls : Iri) : Option Program :=
  (r.alternatives.get? cls).map .firstOf

def classes (r : Registry) : List String :=
  (r.alternatives.keys.map Iri.text).mergeSort fun a b => a ≤ b

def size (r : Registry) : Nat := r.alternatives.size

def builtins : Registry :=
  (((empty.insert Rdfl.cbd .description).insert Rdfl.pathLens .path).insert
    Rdfl.context .context).insert Rdfl.typedExtract .typed

end Registry

end ShaclExtract
