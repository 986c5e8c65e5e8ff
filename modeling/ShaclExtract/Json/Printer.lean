import ShaclExtract.Json.Basic
import ShaclExtract.Number.Shortest

/-!
# ShaclExtract.Json.Printer

JSON text on several lines: each element and each field has a line of its own, indented by two
spaces for every level. Floats have the fewest digits that read back and always a point or an
exponent; the point is written out for sixteen places in front of it and five behind.
-/

namespace ShaclExtract
namespace Json

/-! ## texts -/

def lowerHexDigit (n : Nat) : Char :=
  if n < 10 then Char.ofNat (48 + n) else Char.ofNat (87 + n)

def escapeChar (c : Char) : List Char :=
  match c with
  | '\x08' => ['\\', 'b']
  | '\t' => ['\\', 't']
  | '\n' => ['\\', 'n']
  | '\x0c' => ['\\', 'f']
  | '\r' => ['\\', 'r']
  | '"' => ['\\', '"']
  | '\\' => ['\\', '\\']
  | c =>
    if c.toNat < 0x20 then
      ['\\', 'u', '0', '0', lowerHexDigit (c.toNat / 16), lowerHexDigit (c.toNat % 16)]
    else [c]

def quote (s : String) : List Char := '"' :: s.toList.flatMap escapeChar ++ ['"']

/-! ## floats -/

/-- The digits without zeros at the end, and the exponent that belongs to them. -/
def stripped (d : Decimal) : List Char × Int :=
  let ds := Number.toDigits d.digits
  let kept := (ds.reverse.dropWhile fun c => c = '0').reverse
  (kept, d.exponent + ((ds.length - kept.length : Nat) : Int))

/-- A sign only if the exponent is below zero. -/
def exponentText (e : Int) : List Char :=
  (if e < 0 then ['-'] else []) ++ Number.toDigits e.natAbs

def decimalText (d : Decimal) : List Char :=
  let parts := stripped d
  let ds := parts.1
  let point : Int := ds.length + parts.2
  if 0 ≤ parts.2 ∧ point ≤ 16 then ds ++ List.replicate parts.2.toNat '0' ++ ['.', '0']
  else if 0 < point ∧ point ≤ 16 then ds.take point.toNat ++ '.' :: ds.drop point.toNat
  else if -5 < point ∧ point ≤ 0 then '0' :: '.' :: List.replicate (-point).toNat '0' ++ ds
  else
    match ds with
    | [d] => d :: 'e' :: exponentText (point - 1)
    | d :: more => d :: '.' :: more ++ 'e' :: exponentText (point - 1)
    | [] => []

def floatText (x : Binary64) : List Char :=
  (if x.isNegative then ['-'] else []) ++
    if x.magnitude = 0 then ['0', '.', '0'] else decimalText (Binary64.shortest x.magnitude)

def integerText (n : Int) : List Char :=
  (if n < 0 then ['-'] else []) ++ Number.toDigits n.natAbs

/-! ## values -/

def newLine (level : Nat) : List Char := '\n' :: List.replicate (2 * level) ' '

/-- Lines between brackets, separated by commas; nothing between them if there are none. -/
def block (opening closing : Char) (level : Nat) (lines : List (List Char)) : List Char :=
  match lines with
  | [] => [opening, closing]
  | _ =>
    opening :: (newLine (level + 1) ++ (',' :: newLine (level + 1)).intercalate lines) ++
      newLine level ++ [closing]

mutual

def print (level : Nat) : Json → List Char
  | .null => ['n', 'u', 'l', 'l']
  | .bool true => ['t', 'r', 'u', 'e']
  | .bool false => ['f', 'a', 'l', 's', 'e']
  | .integer n => integerText n
  | .float x => floatText x
  | .text s => quote s
  | .array items => block '[' ']' level (printItems (level + 1) items)
  | .object fields => block '\x7b' '\x7d' level (printFields (level + 1) fields)

def printItems (level : Nat) : List Json → List (List Char)
  | [] => []
  | j :: js => print level j :: printItems level js

def printFields (level : Nat) : List (String × Json) → List (List Char)
  | [] => []
  | (name, j) :: fields => (quote name ++ ':' :: ' ' :: print level j) :: printFields level fields

end

def pretty (j : Json) : String := String.ofList (print 0 j)

end Json
end ShaclExtract
