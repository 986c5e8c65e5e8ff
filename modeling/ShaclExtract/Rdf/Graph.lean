import ShaclExtract.Rdf.Text
import ShaclExtract.Rdf.Vocabulary

/-!
# ShaclExtract.Rdf.Graph

Quads and graphs. A graph is the list of its quads: their order is the order in which everything
read from the graph comes out, and a quad that is listed twice counts twice. The name of the graph a
quad belongs to is kept for printing and never consulted.
-/

namespace ShaclExtract

structure Quad where
  subject : Resource
  predicate : Iri
  object : Term
  /-- The name of the graph; none is the default graph. -/
  graph : Option Resource
deriving DecidableEq, Repr

/-- The terms in order, one space between them, the graph name only when there is one. -/
def Quad.toText (q : Quad) : String :=
  let statement := q.subject.toText ++ " " ++ q.predicate.toText ++ " " ++ q.object.toText
  match q.graph with
  | none => statement
  | some g => statement ++ " " ++ g.toText

abbrev Graph := List Quad

namespace Graph

def outgoing (g : Graph) (node : Term) : Graph :=
  g.filter fun q => q.subject.toTerm = node

def objects (g : Graph) (node : Term) (predicate : Iri) : List Term :=
  ((g.outgoing node).filter fun q => q.predicate = predicate).map Quad.object

def subjects (g : Graph) (node : Term) (predicate : Iri) : List Term :=
  (g.filter fun q => q.predicate = predicate ∧ q.object = node).map fun q => q.subject.toTerm

/-- The first of the objects; further ones are ignored. -/
def object? (g : Graph) (node : Term) (predicate : Iri) : Option Term :=
  (g.objects node predicate).head?

def types (g : Graph) (node : Term) : List Term := g.objects node Rdf.type

def hasType (g : Graph) (node : Term) (cls : Iri) : Bool :=
  (g.types node).contains (.iri cls)

/-- Every subject and every object of the graph, quad by quad. -/
def terms (g : Graph) : List Term :=
  g.flatMap fun q => [q.subject.toTerm, q.object]

/-! ## membership -/

theorem mem_outgoing {g : Graph} {node : Term} {q : Quad} :
    q ∈ g.outgoing node ↔ q ∈ g ∧ q.subject.toTerm = node := by
  simp [outgoing]

theorem mem_objects {g : Graph} {node : Term} {p : Iri} {o : Term} :
    o ∈ g.objects node p ↔ ∃ q ∈ g, q.subject.toTerm = node ∧ q.predicate = p ∧ q.object = o := by
  simp [objects, outgoing, and_assoc, and_left_comm]

theorem mem_subjects {g : Graph} {node : Term} {p : Iri} {s : Term} :
    s ∈ g.subjects node p ↔ ∃ q ∈ g, q.subject.toTerm = s ∧ q.predicate = p ∧ q.object = node := by
  simp only [subjects, List.mem_map, List.mem_filter, decide_eq_true_eq]
  constructor
  · rintro ⟨q, ⟨hq, hp, ho⟩, rfl⟩
    exact ⟨q, hq, rfl, hp, ho⟩
  · rintro ⟨q, hq, rfl, hp, ho⟩
    exact ⟨q, ⟨hq, hp, ho⟩, rfl⟩

theorem object_mem_terms {g : Graph} {q : Quad} (h : q ∈ g) : q.object ∈ g.terms :=
  List.mem_flatMap.2 ⟨q, h, by simp⟩

theorem subject_mem_terms {g : Graph} {q : Quad} (h : q ∈ g) : q.subject.toTerm ∈ g.terms :=
  List.mem_flatMap.2 ⟨q, h, by simp⟩

end Graph

/-- A focus node and the quads that are visible from it: what everything is read from. -/
structure View where
  focus : Term
  graph : Graph
deriving DecidableEq, Repr

namespace View

def refocus (v : View) (node : Term) : View := { v with focus := node }

def types (v : View) : List Term := v.graph.types v.focus

end View

end ShaclExtract
