import ShaclExtract.Path.Basic
import ShaclExtract.Rdf.Collection

/-!
# ShaclExtract.Path.Writing

The description of a property path in a shapes graph: an IRI for a predicate, a list for a sequence,
and for any other form a blank node that points to the list or path inside. Blank nodes are labelled
by number, each number being used once.
-/

namespace ShaclExtract
namespace Path

/-- A node, the quads that describe what stands at it, and the first number not used for them. -/
structure Written where
  node : Term
  quads : Graph
  next : Nat

/-- A blank node of the given label that points to a written node. -/
def Written.wrapped (w : Written) (label : String) (predicate : Iri) : Written :=
  { w with node := .blank label, quads := ⟨.blank label, predicate, w.node, none⟩ :: w.quads }

mutual

def write (label : Nat → String) (n : Nat) : Path → Written
  | .predicate i => ⟨.iri i, [], n⟩
  | .inverse p => (write label (n + 1) p).wrapped (label n) Sh.inversePath
  | .sequence ps => writeList label n ps
  | .alternative ps => (writeList label (n + 1) ps).wrapped (label n) Sh.alternativePath
  | .zeroOrMore p => (write label (n + 1) p).wrapped (label n) Sh.zeroOrMorePath
  | .oneOrMore p => (write label (n + 1) p).wrapped (label n) Sh.oneOrMorePath
  | .zeroOrOne p => (write label (n + 1) p).wrapped (label n) Sh.zeroOrOnePath

/-- Describes a list of paths, the cell before the member it holds and the cells behind it. -/
def writeList (label : Nat → String) (n : Nat) : List Path → Written
  | [] => ⟨.iri Rdf.nil, [], n⟩
  | p :: ps =>
    let member := write label (n + 1) p
    let tail := writeList label member.next ps
    let cell : Resource := .blank (label n)
    { node := cell.toTerm
      quads := ⟨cell, Rdf.first, member.node, none⟩ :: ⟨cell, Rdf.rest, tail.node, none⟩ ::
        (member.quads ++ tail.quads)
      next := tail.next }

end

end Path
end ShaclExtract
