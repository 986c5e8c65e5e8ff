import ShaclExtract.Rdf.Graph
import ShaclExtract.Search

/-!
# ShaclExtract.Rdf.Description

Concise bounded descriptions. The description of a node are the quads that start at it and, for
every blank node among their objects, the description of that blank node. Each node is expanded
once, in breadth-first order, so blank nodes that refer to each other in a circle do no harm.
-/

namespace ShaclExtract

namespace Graph

def blankObjects (g : Graph) (node : Term) : List Term :=
  ((g.outgoing node).map Quad.object).filter Term.isBlank

/-- The focus and the blank nodes its description covers, in the order they are met. -/
def described (g : Graph) (focus : Term) : List Term :=
  Search.reach g.blankObjects g.terms focus

def description (g : Graph) (focus : Term) : Graph :=
  (g.described focus).flatMap g.outgoing

end Graph

def View.bounded (focus : Term) (g : Graph) : View := ⟨focus, g.description focus⟩

end ShaclExtract
