/-!
# ShaclExtract.Number.Digits

Decimal digits: the value of a run of ASCII digits, and the integers and counts written with them.
-/

namespace ShaclExtract
namespace Number

def isDigit (c : Char) : Bool := '0' ≤ c && c ≤ '9'

def digitValue (c : Char) : Nat := c.toNat - 48

/-- The number a list of digits denotes, most significant first; none denotes zero. -/
def ofDigits (ds : List Char) : Nat := ds.foldl (fun n d => 10 * n + digitValue d) 0

def natural? (cs : List Char) : Option Nat :=
  if cs ≠ [] ∧ cs.all isDigit then some (ofDigits cs) else none

/-- A sign, if there is one, and what follows it; true is the minus sign. -/
def splitSign : List Char → Bool × List Char
  | '-' :: cs => (true, cs)
  | '+' :: cs => (false, cs)
  | cs => (false, cs)

/-- Least and greatest integer of 64 bits with sign. -/
def intMin : Int := -0x8000000000000000
def intMax : Int := 0x7fffffffffffffff

/-- An optional sign and digits, within 64 bits with sign. -/
def integer? (cs : List Char) : Option Int :=
  let signed := splitSign cs
  match natural? signed.2 with
  | none => none
  | some n =>
    let value : Int := if signed.1 then -(n : Int) else n
    if intMin ≤ value ∧ value ≤ intMax then some value else none

/-- An optional plus sign and digits, within 64 bits without sign. -/
def count? (cs : List Char) : Option Nat :=
  let unsigned := match cs with
    | '+' :: rest => rest
    | _ => cs
  match natural? unsigned with
  | none => none
  | some n => if n < 0x10000000000000000 then some n else none

/-- The decimal digits of a number, without leading zeros. -/
def toDigits (n : Nat) : List Char := Nat.toDigits 10 n

/-- Decimal digits, filled with zeros on the left to the given width. -/
def padded (width n : Nat) : List Char :=
  let ds := toDigits n
  List.replicate (width - ds.length) '0' ++ ds

end Number
end ShaclExtract
