import ShaclExtract.Failure.Basic
import ShaclExtract.Text.Blank
import ShaclExtract.Value.Basic

/-!
# ShaclExtract.Datatype

Values of nodes that a property reads by datatype. The lexical form is the text of the node, unless
the node stands for an environment variable: then it is the value of the variable, or the default
that the node declares. The datatype decides what becomes of the lexical form; one that is not known
leaves the term as it is.
-/

namespace ShaclExtract

abbrev Environment := String → Option String

/-- Where the lexical form of a node comes from. -/
inductive LexicalSource where
  | lexical (text : String)
  | environment (key : String) (default : Option String)
deriving DecidableEq, Repr

/-- The keys of all variables that nodes of a graph may stand for. -/
def Graph.environmentKeys (g : Graph) : List String :=
  (g.filter fun q => q.predicate = Rdfl.envKey).map fun q => q.object.lexical

namespace LexicalSource

/-- Reads a node; a literal never stands for a variable. -/
def of (v : View) : Except Failure LexicalSource :=
  if !v.focus.isLiteral && v.graph.hasType v.focus Rdfl.envVariable then
    match v.graph.object? v.focus Rdfl.envKey with
    | none =>
      .error (.malformedShape v.focus.toText "rdfl:EnvVariable without rdfl:envKey")
    | some key =>
      .ok (.environment key.lexical ((v.graph.object? v.focus Rdfl.envDefault).map Term.lexical))
  else .ok (.lexical v.focus.lexical)

def resolve (env : Environment) : LexicalSource → Except Failure String
  | .lexical text => .ok text
  | .environment key default =>
    match env key with
    | some value => .ok value
    | none =>
      match default with
      | some value => .ok value
      | none => .error (.environmentVariableMissing key)

/-- The term that a value of an unknown datatype is left as. -/
def term (v : View) (text : String) : LexicalSource → Term
  | .lexical _ => v.focus
  | .environment _ _ => .literal (.simple text)

end LexicalSource

namespace Datatype

def integers : List Iri :=
  [Xsd.integer, Xsd.int, Xsd.long, Xsd.short, Xsd.nonNegativeInteger, Xsd.positiveInteger]

def floats : List Iri := [Xsd.float, Xsd.double, Xsd.decimal]

/-- What was read, or the failure that names the text as it was given. -/
def orInvalid {α : Type} (lexical : String) (datatype : Iri) (build : α → Value) (read : Option α) :
    Except Failure Value :=
  match read with
  | some x => .ok (build x)
  | none => .error (.invalidLiteral lexical datatype.text)

/-- Numbers and dates may have white space around them; a boolean is true if it is `true`. -/
def read (lexical : String) (datatype : Iri) (term : Term) : Except Failure Value :=
  let trimmed := Text.trim lexical.toList
  if datatype ∈ integers then orInvalid lexical datatype .integer (Number.integer? trimmed)
  else if datatype ∈ floats then orInvalid lexical datatype .float (Binary64.parse? trimmed)
  else if datatype = Xsd.string then .ok (.text lexical)
  else if datatype = Xsd.dateTime then
    orInvalid lexical datatype .dateTime (DateTime.parse? trimmed)
  else if datatype = Xsd.boolean then .ok (.bool (lexical == "true"))
  else .ok (.term term)

def extract (env : Environment) (datatype : Iri) (v : View) : Except Failure Value :=
  match LexicalSource.of v with
  | .error e => .error e
  | .ok source =>
    match source.resolve env with
    | .error e => .error e
    | .ok text => read text datatype (source.term v text)

end Datatype

end ShaclExtract
