import ShaclExtract.Rdf.Graph
import ShaclExtract.Search
import ShaclExtract.Table

/-!
# ShaclExtract.Subclasses

Subclass links. A class has at most one parent, the one that was declared last; links count only
between IRIs. The chain of a class lists the class and its ancestors, and stops when it comes back
to a class that is on it.
-/

namespace ShaclExtract

structure Subclasses where
  parents : Table Iri Iri

namespace Subclasses

def empty : Subclasses := ⟨.empty⟩

def insert (s : Subclasses) (cls parent : Iri) : Subclasses := ⟨s.parents.insert cls parent⟩

def link? (q : Quad) : Option (Iri × Iri) :=
  if q.predicate = Rdfs.subClassOf then
    match q.subject, q.object with
    | .iri c, .iri p => some (c, p)
    | _, _ => none
  else none

def ofGraph (g : Graph) : Subclasses := ⟨Table.ofList (g.filterMap link?)⟩

def parent? (s : Subclasses) (cls : Iri) : Option Iri := s.parents.get? cls

/-- The class, its parent, the parent of that, and so on. -/
def chain (s : Subclasses) (cls : Iri) : List Iri :=
  Search.reach (fun c => (s.parent? c).toList) s.parents.values cls

def size (s : Subclasses) : Nat := s.parents.size

def isEmpty (s : Subclasses) : Bool := s.parents.isEmpty

end Subclasses

end ShaclExtract
