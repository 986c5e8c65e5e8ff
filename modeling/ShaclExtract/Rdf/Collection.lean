import ShaclExtract.Failure.Basic
import ShaclExtract.Rdf.Graph

/-!
# ShaclExtract.Rdf.Collection

Lists written in RDF: a chain of cells that ends in `rdf:nil`, each with one `rdf:first`, its
member, and one `rdf:rest`, the next cell. A chain that comes back to one of its cells, or has a
cell without exactly one of each, is malformed, and the failure names the first cell at which that
shows.

The chain ends because a cell that is followed is the subject of a quad and is not met again.
-/

namespace ShaclExtract
namespace Collection

inductive Fault where
  | revisited
  | missingFirst
  | missingRest
  | severalLinks
deriving DecidableEq, Repr

def Fault.reason : Fault → String
  | .revisited => "list cell revisited"
  | .missingFirst => "missing rdf:first"
  | .missingRest => "missing rdf:rest"
  | .severalLinks => "more than one rdf:first or rdf:rest"

def malformed (cell : Term) (fault : Fault) : Failure :=
  .malformedList cell.toText fault.reason

/-- The quads whose subject is none of the given cells. -/
def untouched (g : Graph) (seen : List Term) : Graph :=
  g.filter fun q => q.subject.toTerm ∉ seen

theorem length_untouched_lt {g : Graph} {seen : List Term} {cell o : Term} {p : Iri}
    (hs : cell ∉ seen) (ho : o ∈ g.objects cell p) :
    (untouched g (cell :: seen)).length < (untouched g seen).length := by
  obtain ⟨q, hq, hc, -, -⟩ := Graph.mem_objects.1 ho
  have h : untouched g (cell :: seen) =
      (untouched g seen).filter fun q => q.subject.toTerm ≠ cell := by
    simp [untouched, List.filter_filter]
  rw [h]
  refine List.length_filter_lt_length_iff_exists.2 ⟨q, ?_, ?_⟩
  · simp [untouched, hq, hc, hs]
  · simp [hc]

/-- The members from a cell on, where the cells seen so far must not come again. -/
def readFrom (g : Graph) (seen : List Term) (cell : Term) : Except Failure (List Term) :=
  if cell = .iri Rdf.nil then .ok []
  else if _hs : cell ∈ seen then .error (malformed cell .revisited)
  else
    match _hf : g.objects cell Rdf.first, g.objects cell Rdf.rest with
    | [first], [rest] =>
      match readFrom g (cell :: seen) rest with
      | .ok items => .ok (first :: items)
      | .error e => .error e
    | [], _ => .error (malformed cell .missingFirst)
    | _, [] => .error (malformed cell .missingRest)
    | _, _ => .error (malformed cell .severalLinks)
termination_by (untouched g seen).length
decreasing_by
  have h : first ∈ g.objects cell Rdf.first := by rw [_hf]; exact List.mem_singleton_self first
  exact length_untouched_lt _hs h

def read (g : Graph) (head : Term) : Except Failure (List Term) := readFrom g [] head

/-- The first cell and the quads of a list, given the label of each cell with its member. -/
def write : List (String × Term) → Term × Graph
  | [] => (.iri Rdf.nil, [])
  | (label, member) :: more =>
    let tail := write more
    (.blank label,
      ⟨.blank label, Rdf.first, member, none⟩ :: ⟨.blank label, Rdf.rest, tail.1, none⟩ :: tail.2)

/-- A node that is read as a list: `rdf:nil`, or an IRI or blank node with an `rdf:first`. -/
def isHead (g : Graph) (node : Term) : Bool :=
  node = .iri Rdf.nil || (g.object? node Rdf.first).isSome

end Collection

/-- The members of the list at the focus, each in the focus of a view of the same graph. -/
def View.members (v : View) : Except Failure (List View) :=
  match Collection.read v.graph v.focus with
  | .ok members => .ok (members.map v.refocus)
  | .error e => .error e

end ShaclExtract
