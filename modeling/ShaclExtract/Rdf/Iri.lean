import ShaclExtract.Rdf.IpLiteral
import ShaclExtract.Rdf.Text

/-!
# ShaclExtract.Rdf.Iri

The syntax of IRIs: which texts are absolute IRIs, and what a relative reference means against a
base. A reference has a scheme, an authority, a path, a query and a fragment, of which all but the
path may be absent.
-/

namespace ShaclExtract
namespace Iri

structure Parts where
  scheme : Option (List Char)
  authority : Option (List Char)
  path : List Char
  query : Option (List Char)
  fragment : Option (List Char)
deriving DecidableEq, Repr

/-! ## taking a reference apart -/

/-- The text before the first character that satisfies `stop`, and the text from there on. -/
def cut (stop : Char → Bool) (cs : List Char) : List Char × List Char :=
  (cs.takeWhile fun c => !stop c, cs.dropWhile fun c => !stop c)

/-- The text behind a mark, up to a stop; absent if the mark is not there. -/
def marked (mark : Char) (stop : Char → Bool) (cs : List Char) : Option (List Char) × List Char :=
  match cs with
  | c :: rest =>
    if c = mark then
      let parts := cut stop rest
      (some parts.1, parts.2)
    else (none, cs)
  | [] => (none, [])

def splitScheme (cs : List Char) : Option (List Char) × List Char :=
  let parts := cut (fun c => c = ':' || c = '/' || c = '?' || c = '#') cs
  match parts.2 with
  | ':' :: rest => (some parts.1, rest)
  | _ => (none, cs)

def splitAuthority (cs : List Char) : Option (List Char) × List Char :=
  match cs with
  | '/' :: '/' :: rest =>
    let parts := cut (fun c => c = '/' || c = '?' || c = '#') rest
    (some parts.1, parts.2)
  | _ => (none, cs)

def split (cs : List Char) : Parts :=
  let scheme := splitScheme cs
  let authority := splitAuthority scheme.2
  let path := cut (fun c => c = '?' || c = '#') authority.2
  let query := marked '?' (fun c => c = '#') path.2
  let fragment := marked '#' (fun _ => false) query.2
  ⟨scheme.1, authority.1, path.1, query.1, fragment.1⟩

/-- The text of a part with the mark in front of it, if the part is there. -/
def withMark (mark : List Char) : Option (List Char) → List Char
  | none => []
  | some cs => mark ++ cs

def Parts.toText (p : Parts) : List Char :=
  (match p.scheme with
    | none => []
    | some s => s ++ [':']) ++
    withMark ['/', '/'] p.authority ++ p.path ++ withMark ['?'] p.query ++ withMark ['#'] p.fragment

/-! ## which parts are well formed -/

def schemeOk : List Char → Bool
  | [] => false
  | c :: cs =>
    Text.isAsciiLetter c &&
      cs.all fun c => Text.isAlphanumeric c || c = '+' || c = '-' || c = '.'

/-- Characters beyond ASCII that may stand in any part; the last two of a plane may not. -/
def isForeign (c : Char) : Bool :=
  let n := c.toNat
  (0xa0 ≤ n && n ≤ 0xd7ff) || (0xf900 ≤ n && n ≤ 0xfdcf) || (0xfdf0 ≤ n && n ≤ 0xffef) ||
    (0x10000 ≤ n && n ≤ 0xeffff && n % 0x10000 ≤ 0xfffd && !(0xe0000 ≤ n && n < 0xe1000))

/-- Private characters, which only a query may hold. -/
def isPrivate (c : Char) : Bool :=
  let n := c.toNat
  (0xe000 ≤ n && n ≤ 0xf8ff) || (0xf0000 ≤ n && n % 0x10000 ≤ 0xfffd)

def isPlain (c : Char) : Bool :=
  Text.isAlphanumeric c || "-._~!$&'()*+,;=".toList.contains c || isForeign c

/-- Allowed characters and percent signs that are followed by two hexadecimal digits. -/
def charactersOk (allowed : Char → Bool) : List Char → Bool
  | [] => true
  | '%' :: a :: b :: rest => Text.isHexDigit a && Text.isHexDigit b && charactersOk allowed rest
  | c :: rest => allowed c && charactersOk allowed rest

/-- Only digits may stand behind the last colon; brackets enclose a numeric host. -/
def hostOk (cs : List Char) : Bool :=
  match cs with
  | '[' :: rest =>
    let parts := cut (fun c => c = ']') rest
    IpLiteral.ok parts.1 &&
      match parts.2 with
      | [']'] => true
      | ']' :: ':' :: digits => digits.all Number.isDigit
      | _ => false
  | _ =>
    let parts := cut (fun c => c = ':') cs
    charactersOk isPlain parts.1 && (parts.2.drop 1).all Number.isDigit

def authorityOk (cs : List Char) : Bool :=
  let parts := cut (fun c => c = '@') cs
  match parts.2 with
  | '@' :: host => charactersOk (fun c => isPlain c || c = ':') parts.1 && hostOk host
  | _ => hostOk cs

def optionOk (ok : List Char → Bool) : Option (List Char) → Bool
  | none => true
  | some cs => ok cs

def isPathChar (c : Char) : Bool := isPlain c || c = ':' || c = '@' || c = '/'

def Parts.ok (p : Parts) : Bool :=
  optionOk schemeOk p.scheme && optionOk authorityOk p.authority &&
    charactersOk isPathChar p.path &&
    optionOk (charactersOk fun c => isPathChar c || c = '?' || isPrivate c) p.query &&
    optionOk (charactersOk fun c => isPathChar c || c = '?') p.fragment

def absolute? (cs : List Char) : Option Iri :=
  let p := split cs
  if p.ok && p.scheme.isSome then some ⟨String.ofList cs⟩ else none

/-! ## files -/

/-- Characters of a file name that stand for themselves. -/
def standsInFileName (c : Char) : Bool := c.toNat < 0x80 && isPathChar c

def percentEncoded (b : UInt8) : List Char :=
  ['%', Text.upperHexDigit (b.toNat / 16), Text.upperHexDigit (b.toNat % 16)]

def ofFileName (name : String) : Iri :=
  let encoded := name.toList.flatMap fun c =>
    if standsInFileName c then [c] else (String.singleton c).toUTF8.toList.flatMap percentEncoded
  ⟨"file://" ++ String.ofList encoded⟩

/-! ## relative references -/

/-- Segments of a path, where `.` stays in place and `..` takes back the segment before it. -/
def withoutDots (taken : List (List Char)) : List (List Char) → List (List Char)
  | [] => taken.reverse
  | [['.']] => ([] :: taken).reverse
  | [['.', '.']] => ([] :: taken.drop 1).reverse
  | ['.'] :: rest => withoutDots taken rest
  | ['.', '.'] :: rest => withoutDots (taken.drop 1) rest
  | s :: rest => withoutDots (s :: taken) rest

def segments (cs : List Char) : List (List Char) := cs.splitOn '/'

/-- A path that starts with a slash, without dot segments. -/
def normalized (cs : List Char) : List Char :=
  match cs with
  | '/' :: rest => '/' :: ['/'].intercalate (withoutDots [] (segments rest))
  | _ => cs

def directory (cs : List Char) : List Char := (cs.reverse.dropWhile fun c => c ≠ '/').reverse

/-- What a reference without scheme means against an absolute base. -/
def resolveParts (base r : Parts) : Parts :=
  match r.authority, r.path with
  | some _, _ => { r with scheme := base.scheme, path := normalized r.path }
  | none, [] =>
    { base with query := if r.query.isSome then r.query else base.query, fragment := r.fragment }
  | none, '/' :: _ =>
    { r with scheme := base.scheme, authority := base.authority, path := normalized r.path }
  | none, _ =>
    { r with
      scheme := base.scheme
      authority := base.authority
      path := normalized (directory base.path ++ r.path) }

/--
The IRI that a reference means. One with a scheme is absolute, needs no base and is taken as it is,
dot segments included.
-/
def resolve? (base : Option Iri) (cs : List Char) : Option Iri :=
  match absolute? cs, base with
  | some i, _ => some i
  | none, none => none
  | none, some b =>
    let r := split cs
    if r.ok && r.scheme.isNone then
      some ⟨String.ofList (resolveParts (split b.text.toList) r).toText⟩
    else none

end Iri
end ShaclExtract
