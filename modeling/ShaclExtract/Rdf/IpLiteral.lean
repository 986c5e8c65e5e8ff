import ShaclExtract.Text.Ascii

/-!
# ShaclExtract.Rdf.IpLiteral

Numeric hosts, as they stand between brackets in an IRI: an address of version 6, or one of a later
version that names its version.

An address of version 6 has eight groups of up to four hexadecimal digits, divided by colons. An
address of version 4 may stand for the last two groups, and two colons in a row, once, for one or
more groups that are zero.
-/

namespace ShaclExtract
namespace IpLiteral

def isOctet (cs : List Char) : Bool :=
  match cs with
  | [] => false
  | ['0'] => true
  | '0' :: _ => false
  | _ => cs.all Number.isDigit && cs.length ≤ 3 && Number.ofDigits cs ≤ 255

def isVersion4 (cs : List Char) : Bool :=
  let octets := cs.splitOn '.'
  octets.length = 4 && octets.all isOctet

def isGroup (cs : List Char) : Bool := 1 ≤ cs.length && cs.length ≤ 4 && cs.all Text.isHexDigit

/-- The number of groups in a list of them, the last of which may be an address of version 4. -/
def groupCount? : List (List Char) → Option Nat
  | [] => some 0
  | [last] => if isGroup last then some 1 else if isVersion4 last then some 2 else none
  | g :: rest => if isGroup g then (groupCount? rest).map fun n => n + 1 else none

/-- The groups that a text divided by colons has; the empty text has none. -/
def groups (cs : List Char) : List (List Char) := if cs = [] then [] else cs.splitOn ':'

/-- The text before the first two colons in a row and the text behind them, if there are any. -/
def atGap? : List Char → Option (List Char × List Char)
  | ':' :: ':' :: rest => some ([], rest)
  | c :: rest => (atGap? rest).map fun parts => (c :: parts.1, parts.2)
  | [] => none

def isVersion6 (cs : List Char) : Bool :=
  match atGap? cs with
  | none => groupCount? (groups cs) = some 8
  | some (before, behind) =>
    (groups before).all isGroup &&
      match groupCount? (groups behind) with
      | some n => (groups before).length + n ≤ 7
      | none => false

/-- Characters of an address that are not given a meaning by its version. -/
def isAddressChar (c : Char) : Bool :=
  Text.isAlphanumeric c || "-._~!$&'()*+,;=:".toList.contains c

/-- The letter `v`, a hexadecimal version, a dot and an address. -/
def isLaterVersion (cs : List Char) : Bool :=
  match cs with
  | [] => false
  | v :: rest =>
    let version := rest.takeWhile Text.isHexDigit
    (v = 'v' || v = 'V') && version ≠ [] &&
      match rest.dropWhile Text.isHexDigit with
      | '.' :: address => address ≠ [] && address.all isAddressChar
      | _ => false

def ok (cs : List Char) : Bool := isVersion6 cs || isLaterVersion cs

end IpLiteral
end ShaclExtract
