/-!
# ShaclExtract.Rdf.Term

RDF terms. A term is an IRI, a blank node or a literal; a resource is one of the two kinds that may
stand as the subject of a quad or name a graph.

Every literal has a datatype or a language tag. A simple literal is a literal of datatype
`xsd:string`, so the two spellings of a plain string are one term by construction.
-/

namespace ShaclExtract

/-- An IRI, kept as its text and compared character by character. -/
structure Iri where
  text : String
deriving DecidableEq, Repr

/-- What a literal carries beside its lexical form. -/
inductive Annotation where
  | datatype (iri : Iri)
  | language (tag : String)
deriving DecidableEq, Repr

structure Literal where
  lexical : String
  annotation : Annotation
deriving DecidableEq, Repr

inductive Resource where
  | iri (iri : Iri)
  | blank (label : String)
deriving DecidableEq, Repr

inductive Term where
  | iri (iri : Iri)
  | blank (label : String)
  | literal (literal : Literal)
deriving DecidableEq, Repr

inductive TermKind where
  | iri
  | blank
  | literal
deriving DecidableEq, Repr

namespace Xsd

def string : Iri := ⟨"http://www.w3.org/2001/XMLSchema#string"⟩

end Xsd

namespace Literal

def simple (lexical : String) : Literal := ⟨lexical, .datatype Xsd.string⟩

def typed (lexical : String) (datatype : Iri) : Literal := ⟨lexical, .datatype datatype⟩

def tagged (lexical : String) (tag : String) : Literal := ⟨lexical, .language tag⟩

end Literal

namespace Resource

def toTerm : Resource → Term
  | .iri i => .iri i
  | .blank b => .blank b

theorem toTerm_injective {r s : Resource} (h : r.toTerm = s.toTerm) : r = s := by
  cases r <;> cases s <;> simp_all [toTerm]

end Resource

namespace Term

def kind : Term → TermKind
  | .iri _ => .iri
  | .blank _ => .blank
  | .literal _ => .literal

/-- The text of an IRI, the label of a blank node, the lexical form of a literal. -/
def lexical : Term → String
  | .iri i => i.text
  | .blank b => b
  | .literal l => l.lexical

def isBlank : Term → Bool
  | .blank _ => true
  | _ => false

def isLiteral : Term → Bool
  | .literal _ => true
  | _ => false

def iri? : Term → Option Iri
  | .iri i => some i
  | _ => none

/-- The resource a term denotes; a literal denotes none. -/
def resource? : Term → Option Resource
  | .iri i => some (.iri i)
  | .blank b => some (.blank b)
  | .literal _ => none

end Term

end ShaclExtract
