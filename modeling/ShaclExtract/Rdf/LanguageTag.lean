import ShaclExtract.Text.Ascii

/-!
# ShaclExtract.Rdf.LanguageTag

Well-formed language tags, in lower case. A tag is a language, optionally followed by extended
languages, a script, a region, variants, extensions and a private part, in this order; or a private
part alone; or one of the tags that were registered before these rules. Nothing is looked up: a
language that does not exist is well formed.
-/

namespace ShaclExtract
namespace LanguageTag

/-- Tags that were registered before the rules and do not follow them. -/
def registered : List String :=
  ["art-lojban", "cel-gaulish", "en-gb-oed", "i-ami", "i-bnn", "i-default", "i-enochian", "i-hak",
    "i-klingon", "i-lux", "i-mingo", "i-navajo", "i-pwn", "i-tao", "i-tay", "i-tsu", "no-bok",
    "no-nyn", "sgn-be-fr", "sgn-be-nl", "sgn-ch-de", "zh-guoyu", "zh-hakka", "zh-min", "zh-min-nan",
    "zh-xiang"]

def isSubtag (cs : List Char) : Bool :=
  1 ≤ cs.length && cs.length ≤ 8 && cs.all Text.isAlphanumeric

def isLetters (length : Nat) (cs : List Char) : Bool :=
  cs.length = length && cs.all Text.isAsciiLetter

def isRegion (cs : List Char) : Bool :=
  isLetters 2 cs || (cs.length = 3 && cs.all Number.isDigit)

/-- Five characters or more, or four of which the first is a digit. -/
def isVariant (cs : List Char) : Bool :=
  5 ≤ cs.length || (cs.length = 4 && (cs.take 1).all Number.isDigit)

/-! ## parts that may be left out -/

def dropExtended : Nat → List (List Char) → List (List Char)
  | limit + 1, s :: rest => if isLetters 3 s then dropExtended limit rest else s :: rest
  | _, subtags => subtags

def dropIf (p : List Char → Bool) : List (List Char) → List (List Char)
  | s :: rest => if p s then rest else s :: rest
  | [] => []

/--
Extensions and the private part. A single character opens an extension, which needs a longer subtag
before the next one; the letter `x` opens the private part, which needs any subtag.
-/
def extensionsOk (needed : Bool) : List (List Char) → Bool
  | [] => !needed
  | s :: rest =>
    if s = ['x'] then !needed && rest ≠ []
    else if s.length = 1 then !needed && extensionsOk true rest
    else extensionsOk false rest

def endOk : List (List Char) → Bool
  | [] => true
  | s :: rest => s.length = 1 && extensionsOk false (s :: rest)

/-- A language of two or three letters may be extended, a longer one has up to eight letters. -/
def languageOk : List (List Char) → Bool
  | [] => false
  | s :: rest =>
    let extended := if s.length < 4 then dropExtended 3 rest else rest
    2 ≤ s.length && s.all Text.isAsciiLetter &&
      endOk ((dropIf isRegion (dropIf (isLetters 4) extended)).dropWhile isVariant)

def wellFormed (tag : List Char) : Bool :=
  let subtags := tag.splitOn '-'
  registered.contains (String.ofList tag) ||
    (subtags.all isSubtag &&
      match subtags with
      | ['x'] :: rest => rest ≠ []
      | _ => languageOk subtags)

end LanguageTag
end ShaclExtract
