import ShaclExtract.Rdf.Term

/-!
# ShaclExtract.Rdf.Vocabulary

The IRIs that shapes graphs and data graphs are read by: the RDF list and typing vocabulary, the
subclass link, the part of SHACL that shapes are written in, the datatypes that are converted, and
the vocabulary for values taken from the environment and for the built-in classes.
-/

namespace ShaclExtract

namespace Rdf

def type : Iri := ⟨"http://www.w3.org/1999/02/22-rdf-syntax-ns#type"⟩
def first : Iri := ⟨"http://www.w3.org/1999/02/22-rdf-syntax-ns#first"⟩
def rest : Iri := ⟨"http://www.w3.org/1999/02/22-rdf-syntax-ns#rest"⟩
def nil : Iri := ⟨"http://www.w3.org/1999/02/22-rdf-syntax-ns#nil"⟩

/-- The datatype of literals with a language tag, which is not written out. -/
def langString : Iri := ⟨"http://www.w3.org/1999/02/22-rdf-syntax-ns#langString"⟩

end Rdf

namespace Rdfs

def subClassOf : Iri := ⟨"http://www.w3.org/2000/01/rdf-schema#subClassOf"⟩

end Rdfs

namespace Sh

def nodeShape : Iri := ⟨"http://www.w3.org/ns/shacl#NodeShape"⟩
def targetClass : Iri := ⟨"http://www.w3.org/ns/shacl#targetClass"⟩
def property : Iri := ⟨"http://www.w3.org/ns/shacl#property"⟩
def path : Iri := ⟨"http://www.w3.org/ns/shacl#path"⟩
def name : Iri := ⟨"http://www.w3.org/ns/shacl#name"⟩
def description : Iri := ⟨"http://www.w3.org/ns/shacl#description"⟩
def classOf : Iri := ⟨"http://www.w3.org/ns/shacl#class"⟩
def datatype : Iri := ⟨"http://www.w3.org/ns/shacl#datatype"⟩
def minCount : Iri := ⟨"http://www.w3.org/ns/shacl#minCount"⟩
def maxCount : Iri := ⟨"http://www.w3.org/ns/shacl#maxCount"⟩
def inversePath : Iri := ⟨"http://www.w3.org/ns/shacl#inversePath"⟩
def alternativePath : Iri := ⟨"http://www.w3.org/ns/shacl#alternativePath"⟩
def zeroOrMorePath : Iri := ⟨"http://www.w3.org/ns/shacl#zeroOrMorePath"⟩
def oneOrMorePath : Iri := ⟨"http://www.w3.org/ns/shacl#oneOrMorePath"⟩
def zeroOrOnePath : Iri := ⟨"http://www.w3.org/ns/shacl#zeroOrOnePath"⟩

end Sh

namespace Xsd

def boolean : Iri := ⟨"http://www.w3.org/2001/XMLSchema#boolean"⟩
def integer : Iri := ⟨"http://www.w3.org/2001/XMLSchema#integer"⟩
def int : Iri := ⟨"http://www.w3.org/2001/XMLSchema#int"⟩
def long : Iri := ⟨"http://www.w3.org/2001/XMLSchema#long"⟩
def short : Iri := ⟨"http://www.w3.org/2001/XMLSchema#short"⟩
def nonNegativeInteger : Iri := ⟨"http://www.w3.org/2001/XMLSchema#nonNegativeInteger"⟩
def positiveInteger : Iri := ⟨"http://www.w3.org/2001/XMLSchema#positiveInteger"⟩
def float : Iri := ⟨"http://www.w3.org/2001/XMLSchema#float"⟩
def double : Iri := ⟨"http://www.w3.org/2001/XMLSchema#double"⟩
def decimal : Iri := ⟨"http://www.w3.org/2001/XMLSchema#decimal"⟩
def dateTime : Iri := ⟨"http://www.w3.org/2001/XMLSchema#dateTime"⟩

end Xsd

/-! ## values from the environment and built-in classes -/

namespace Rdfl

def envVariable : Iri := ⟨"https://w3id.org/rdf-lens/ontology#EnvVariable"⟩
def envKey : Iri := ⟨"https://w3id.org/rdf-lens/ontology#envKey"⟩
def envDefault : Iri := ⟨"https://w3id.org/rdf-lens/ontology#envDefault"⟩
def cbd : Iri := ⟨"https://w3id.org/rdf-lens/ontology#CBD"⟩
def pathLens : Iri := ⟨"https://w3id.org/rdf-lens/ontology#PathLens"⟩
def context : Iri := ⟨"https://w3id.org/rdf-lens/ontology#Context"⟩
def typedExtract : Iri := ⟨"https://w3id.org/rdf-lens/ontology#TypedExtract"⟩

end Rdfl

end ShaclExtract
