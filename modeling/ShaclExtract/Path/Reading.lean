import ShaclExtract.Path.Basic
import ShaclExtract.Rdf.Collection

/-!
# ShaclExtract.Path.Reading

Reading the description of a property path out of a shapes graph. A list is a sequence; any other
node is tried as an alternative, an inverse, a repetition and a predicate, in this order, and the
first form that can be read is taken. The inverse of a description is read as the converse of what
it describes, so a path that was read has inverses only around predicates.

A description may refer to itself. Reading then never ends, and the answer is `none`. Nodes on a
chain of descriptions that ends are all different, so more levels than the graph has terms are never
needed.
-/

namespace ShaclExtract
namespace Path

def readEach (child : Term → Option (Except Failure Path)) :
    List Term → Option (Except Failure (List Path))
  | [] => some (.ok [])
  | node :: rest =>
    match child node with
    | none => none
    | some (.error e) => some (.error e)
    | some (.ok p) =>
      match readEach child rest with
      | none => none
      | some (.error e) => some (.error e)
      | some (.ok ps) => some (.ok (p :: ps))

def readMembers (child : Term → Option (Except Failure Path)) (g : Graph) (head : Term) :
    Option (Except Failure (List Path)) :=
  match Collection.read g head with
  | .error e => some (.error e)
  | .ok nodes => readEach child nodes

def built {α : Type} (build : α → Path) :
    Option (Except Failure α) → Option (Except Failure Path)
  | none => none
  | some (.error e) => some (.error e)
  | some (.ok x) => some (.ok (build x))

def notA (form : String) (node : Term) : Failure :=
  .invalidPath (node.toText ++ " (not " ++ form ++ ")")

def readAlternative (child : Term → Option (Except Failure Path)) (g : Graph) (node : Term) :
    Option (Except Failure Path) :=
  match g.object? node Sh.alternativePath with
  | none => some (.error (notA "an alternative" node))
  | some head => built .alternative (readMembers child g head)

def readInverse (child : Term → Option (Except Failure Path)) (g : Graph) (node : Term) :
    Option (Except Failure Path) :=
  match g.object? node Sh.inversePath with
  | none => some (.error (notA "an inverse" node))
  | some inner => built converse (child inner)

def readRepetition (child : Term → Option (Except Failure Path)) (g : Graph) (node : Term) :
    Option (Except Failure Path) :=
  match g.object? node Sh.zeroOrMorePath with
  | some inner => built .zeroOrMore (child inner)
  | none =>
    match g.object? node Sh.oneOrMorePath with
    | some inner => built .oneOrMore (child inner)
    | none =>
      match g.object? node Sh.zeroOrOnePath with
      | some inner => built .zeroOrOne (child inner)
      | none => some (.error (notA "a repetition" node))

def readPredicate (node : Term) : Except Failure Path :=
  match node with
  | .iri i => .ok (.predicate i)
  | _ => .error (.invalidPath node.toText)

/-- The first form of a node that is not a list. -/
def readForm (child : Term → Option (Except Failure Path)) (g : Graph) (node : Term) :
    Option (Except Failure Path) :=
  match readAlternative child g node with
  | some (.error _) =>
    match readInverse child g node with
    | some (.error _) =>
      match readRepetition child g node with
      | some (.error _) => some (readPredicate node)
      | r => r
    | r => r
  | r => r

/-- Reads descriptions nested at most `depth` deep; `none` if that is not deep enough. -/
def readWithin (g : Graph) : Nat → Term → Option (Except Failure Path)
  | 0, _ => none
  | depth + 1, node =>
    if Collection.isHead g node then built .sequence (readMembers (readWithin g depth) g node)
    else readForm (readWithin g depth) g node

/-- The path described at a node, a failure, or `none` for a description that refers to itself. -/
def read (g : Graph) (node : Term) : Option (Except Failure Path) :=
  readWithin g (g.terms.length + 1) node

end Path
end ShaclExtract
