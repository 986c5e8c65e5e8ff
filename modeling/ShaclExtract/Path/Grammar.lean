/-!
# ShaclExtract.Path.Grammar

Property paths as SPARQL 1.1 has them: a text spells terminals, with white space between them, and
the terminals are derived from the grammar.

    Path         ::= Sequence ( '|' Sequence )*
    Sequence     ::= EltOrInverse ( '/' EltOrInverse )*
    EltOrInverse ::= Elt | '^' Elt
    Elt          ::= Primary ( '?' | '*' | '+' )?
    Primary      ::= IRIREF | '!' NegatedSet | '(' Path ')'
    NegatedSet   ::= One | '(' ( One ( '|' One )* )? ')'
    One          ::= IRIREF | '^' IRIREF
-/

namespace ShaclExtract
namespace Sparql

/-- What a path may be marked with, to be walked more or less than once. -/
inductive Mark where
  | zeroOrMore
  | oneOrMore
  | zeroOrOne
deriving DecidableEq, Repr

inductive Terminal where
  | iriRef (text : List Char)
  | mark (m : Mark)
  | caret
  | bang
  | slash
  | bar
  | opening
  | closing
deriving DecidableEq, Repr

def Mark.char : Mark → Char
  | .zeroOrMore => '*'
  | .oneOrMore => '+'
  | .zeroOrOne => '?'

def Terminal.text : Terminal → List Char
  | .iriRef text => '<' :: (text ++ ['>'])
  | .mark m => [m.char]
  | .caret => ['^']
  | .bang => ['!']
  | .slash => ['/']
  | .bar => ['|']
  | .opening => ['(']
  | .closing => [')']

def isWhite (c : Char) : Bool := c = ' ' || c = '\t' || c = '\r' || c = '\n'

/-- Characters of which an IRI reference is made. -/
def isIriChar (c : Char) : Bool :=
  0x20 < c.toNat && c ≠ '<' && c ≠ '>' && c ≠ '"' && c.toNat ≠ 0x7b && c.toNat ≠ 0x7d &&
    c ≠ '|' && c ≠ '^' && c.toNat ≠ 0x60 && c ≠ '\\'

/-- The terminals of a text, in order; white space may stand before, between and behind them. -/
inductive Spells : List Char → List Terminal → Prop where
  | nil : Spells [] []
  | white {c : Char} {s : List Char} {ts : List Terminal} :
      isWhite c = true → Spells s ts → Spells (c :: s) ts
  | terminal {s : List Char} {ts : List Terminal} (t : Terminal) :
      Spells s ts → Spells (t.text ++ s) (t :: ts)

inductive Symbol where
  | path
  | sequence
  | eltOrInverse
  | elt
  | primary
  | negatedSet
  /-- The members of a negated set in parentheses, at least one. -/
  | several
  | one
deriving DecidableEq, Repr

inductive Derives : Symbol → List Terminal → Prop where
  | path {ts : List Terminal} : Derives .sequence ts → Derives .path ts
  | bar {ts us : List Terminal} :
      Derives .sequence ts → Derives .path us → Derives .path (ts ++ .bar :: us)
  | sequence {ts : List Terminal} : Derives .eltOrInverse ts → Derives .sequence ts
  | slash {ts us : List Terminal} :
      Derives .eltOrInverse ts → Derives .sequence us → Derives .sequence (ts ++ .slash :: us)
  | elt {ts : List Terminal} : Derives .elt ts → Derives .eltOrInverse ts
  | inverse {ts : List Terminal} : Derives .elt ts → Derives .eltOrInverse (.caret :: ts)
  | unmarked {ts : List Terminal} : Derives .primary ts → Derives .elt ts
  | marked {ts : List Terminal} (m : Mark) : Derives .primary ts → Derives .elt (ts ++ [.mark m])
  | iriRef {text : List Char} :
      (∀ c ∈ text, isIriChar c = true) → Derives .primary [.iriRef text]
  | negated {ts : List Terminal} : Derives .negatedSet ts → Derives .primary (.bang :: ts)
  | group {ts : List Terminal} :
      Derives .path ts → Derives .primary (.opening :: (ts ++ [.closing]))
  | single {ts : List Terminal} : Derives .one ts → Derives .negatedSet ts
  | emptySet : Derives .negatedSet [.opening, .closing]
  | set {ts : List Terminal} :
      Derives .several ts → Derives .negatedSet (.opening :: (ts ++ [.closing]))
  | last {ts : List Terminal} : Derives .one ts → Derives .several ts
  | more {ts us : List Terminal} :
      Derives .one ts → Derives .several us → Derives .several (ts ++ .bar :: us)
  | forwards {text : List Char} :
      (∀ c ∈ text, isIriChar c = true) → Derives .one [.iriRef text]
  | backwards {text : List Char} :
      (∀ c ∈ text, isIriChar c = true) → Derives .one [.caret, .iriRef text]

/-- The text is a property path. -/
def IsPropertyPath (text : String) : Prop :=
  ∃ ts, Spells text.toList ts ∧ Derives .path ts

end Sparql

end ShaclExtract
