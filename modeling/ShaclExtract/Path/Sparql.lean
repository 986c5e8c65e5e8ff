import ShaclExtract.Path.Basic

/-!
# ShaclExtract.Path.Sparql

Property paths written in SPARQL. A sequence of one path is written as that path, and the empty
sequence, which stays where it is, as a negated property set that excludes nothing, made optional.
-/

namespace ShaclExtract
namespace Path

def joined (separator : List Char) : List (List Char) → List Char
  | [] => []
  | [t] => t
  | t :: ts => t ++ separator ++ joined separator ts

mutual

def sparql : Path → List Char
  | .predicate i => '<' :: i.text.toList ++ ['>']
  | .inverse p => '^' :: sparql p
  | .sequence [] => "(!<>)?".toList
  | .sequence [p] => sparql p
  | .sequence (p :: q :: ps) => '(' :: joined " / ".toList (sparqlAll (p :: q :: ps)) ++ [')']
  | .alternative ps => '(' :: joined " | ".toList (sparqlAll ps) ++ [')']
  | .zeroOrMore p => sparql p ++ ['*']
  | .oneOrMore p => sparql p ++ ['+']
  | .zeroOrOne p => sparql p ++ ['?']

def sparqlAll : List Path → List (List Char)
  | [] => []
  | p :: ps => sparql p :: sparqlAll ps

end

def toSparql (p : Path) : String := String.ofList p.sparql

end Path
end ShaclExtract
