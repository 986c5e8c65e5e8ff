import ShaclExtract.Failure.Basic
import ShaclExtract.Rdf.Document.Token
import ShaclExtract.Rdf.Graph
import ShaclExtract.Rdf.Iri
import ShaclExtract.Rdf.Vocabulary

/-!
# ShaclExtract.Rdf.Document.Reading

Reading the quads of a document. A statement is a subject, a predicate and an object, in one format
followed by a graph name if there is one, and ends in a dot. In the line-based formats each
statement has a line of its own and IRIs are absolute; in the other ones line breaks are white space
and relative references resolve against the IRI of the document.

Documents in XML and JSON are known by their names. Of these only the empty ones are understood,
which have no quads.
-/

namespace ShaclExtract
namespace Document

inductive Format where
  /-- One triple a line. -/
  | triples
  /-- One quad a line. -/
  | quads
  /-- Triples, however they are broken into lines. -/
  | turtle
  /-- As Turtle, but a literal may have any datatype, and a statement may be a term alone. -/
  | n3
  | xml
  | json
deriving DecidableEq, Repr

namespace Format

/-- What follows the last dot of a file name; a dot in front of the name does not count. -/
def extension? (name : String) : Option String :=
  let file := ((name.splitOn "/").getLast?).getD name
  match (file.splitOn ".").reverse with
  | last :: _ :: more => if more = [] ∧ file.startsWith "." then none else some last
  | _ => none

def ofFileName (name : String) : Format :=
  match (extension? name).map String.toLower with
  | some "nt" => .triples
  | some "txt" => .triples
  | some "nq" => .quads
  | some "n3" => .n3
  | some "rdf" => .xml
  | some "xml" => .xml
  | some "json" => .json
  | some "jsonld" => .json
  | _ => .turtle

def isLineBased : Format → Bool
  | .triples => true
  | .quads => true
  | _ => false

def base (f : Format) (document : Iri) : Option Iri :=
  if f.isLineBased then none else some document

/-- The type of tagged literals is not for a literal without tag, save in one format. -/
def allowsDatatype (f : Format) (datatype : Iri) : Bool := datatype ≠ Rdf.langString || f = .n3

end Format

/-! ## statements -/

def resource? (base : Option Iri) : Token → Option Resource
  | .reference cs => (Iri.resolve? base cs).map .iri
  | .blank label => some (.blank label)
  | _ => none

def object? (f : Format) (base : Option Iri) : List Token → Option (Term × List Token)
  | .text s :: .language tag :: rest => some (.literal (.tagged s tag), rest)
  | .text s :: .typeMark :: .reference cs :: rest =>
    match Iri.resolve? base cs with
    | none => none
    | some d => if f.allowsDatatype d then some (.literal (.typed s d), rest) else none
  | .text s :: rest => some (.literal (.simple s), rest)
  | t :: rest => (resource? base t).map fun r => (r.toTerm, rest)
  | [] => none

/-- The graph name behind the object, in the format that has one. -/
def graphName? (f : Format) (base : Option Iri) : List Token → Option (Option Resource)
  | [] => some none
  | [t] => if f = .quads then (resource? base t).map some else none
  | _ => none

/-- A term that says nothing about itself. -/
def isLoneTerm (f : Format) (base : Option Iri) (ts : List Token) : Bool :=
  match object? f base ts with
  | some (_, []) => true
  | _ => false

/-- The quads of a statement without its dot: one, or none for a term alone. -/
def statement? (f : Format) (base : Option Iri) : List Token → Option Graph
  | s :: .reference p :: rest =>
    match resource? base s, Iri.resolve? base p, object? f base rest with
    | some subject, some predicate, some (object, rest) =>
      (graphName? f base rest).map fun graph => [⟨subject, predicate, object, graph⟩]
    | _, _, _ => none
  | ts => if f = .n3 ∧ isLoneTerm f base ts then some [] else none

def statements? (f : Format) (base : Option Iri) : List (List Token) → Option Graph
  | [] => some []
  | ts :: rest =>
    match statement? f base ts, statements? f base rest with
    | some quads, some g => some (quads ++ g)
    | _, _ => none

/-! ## documents -/

/-- The parts between the marks; one more part than there are marks. -/
def partsAt (mark : Token) : List Token → List (List Token)
  | [] => [[]]
  | t :: ts =>
    match partsAt mark ts with
    | [] => [[]]
    | part :: parts => if t = mark then [] :: part :: parts else (t :: part) :: parts

/-- A list without its last element, which must be the given one. -/
def endingIn? {α : Type} [DecidableEq α] (last : α) (xs : List α) : Option (List α) :=
  if xs.getLast? = some last then some xs.dropLast else none

/-- The tokens of each statement, without the dots. -/
def statementTokens? (f : Format) (ts : List Token) : Option (List (List Token)) :=
  if f.isLineBased then
    ((partsAt .lineBreak ts).filter fun line => line ≠ []).mapM (endingIn? .dot)
  else endingIn? [] (partsAt .dot (ts.filter fun t => t ≠ .lineBreak))

def parseStatements? (f : Format) (document : Iri) (text : String) : Option Graph :=
  match Token.scan text.toList with
  | none => none
  | some ts =>
    match statementTokens? f ts with
    | none => none
    | some statements => statements? f (f.base document) statements

def isSpace (c : Char) : Bool := c = ' ' || c = '\t' || c = '\n' || c = '\r'

def withoutOrderMark : List Char → List Char
  | '\ufeff' :: cs => cs
  | cs => cs

/-- A document that holds nothing: in XML only white space, in JSON an empty array or object. -/
def isEmpty (f : Format) (text : String) : Bool :=
  match f, (withoutOrderMark text.toList).filter fun c => !isSpace c with
  | .xml, [] => true
  | .json, ['[', ']'] => true
  | .json, ['\x7b', '\x7d'] => true
  | _, _ => false

/-- The quads of a document, or none if it is malformed. -/
def parse? (f : Format) (document : Iri) (text : String) : Option Graph :=
  if f = .xml ∨ f = .json then if isEmpty f text then some [] else none
  else parseStatements? f document text

def read (name : String) (document : Iri) (text : String) : Except Failure Graph :=
  match parse? (.ofFileName name) document text with
  | some g => .ok g
  | none => .error (.load name "the document is malformed")

def missing (name : String) : Failure := .load name "the file cannot be read"

end Document
end ShaclExtract
