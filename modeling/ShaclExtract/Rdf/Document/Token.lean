import ShaclExtract.Rdf.LanguageTag

/-!
# ShaclExtract.Rdf.Document.Token

The tokens of a line-based RDF document. White space separates tokens but is not needed between
them, and a comment runs from `#` to the end of its line. Line breaks are tokens of their own.
-/

namespace ShaclExtract
namespace Document

inductive Token where
  /-- What stands between angle brackets, escapes decoded. -/
  | reference (text : List Char)
  | blank (label : String)
  | text (text : String)
  | language (tag : String)
  | typeMark
  | dot
  | lineBreak
deriving DecidableEq, Repr

namespace Token

/-! ## escapes -/

def hexValue (c : Char) : Nat :=
  if Number.isDigit c then c.toNat - 48
  else if 'a' ≤ c ∧ c ≤ 'f' then c.toNat - 87
  else c.toNat - 55

def ofHex? (ds : List Char) : Option Char :=
  let n := ds.foldl (fun n d => 16 * n + hexValue d) 0
  if ds.all Text.isHexDigit ∧ n.isValidChar then some (Char.ofNat n) else none

/-- The character that is written by number, after the backslash and the letter. -/
def numbered? (width : Nat) (cs : List Char) : Option (Char × List Char) :=
  let ds := cs.take width
  if ds.length < width then none
  else
    match ofHex? ds with
    | some c => some (c, cs.drop width)
    | none => none

def shortEscape? : Char → Option Char
  | 't' => some '\t'
  | 'b' => some '\x08'
  | 'n' => some '\n'
  | 'r' => some '\r'
  | 'f' => some '\x0c'
  | '"' => some '"'
  | '\'' => some '\''
  | '\\' => some '\\'
  | _ => none

/-- What follows a backslash in a literal. -/
def escape? : List Char → Option (Char × List Char)
  | 'u' :: cs => numbered? 4 cs
  | 'U' :: cs => numbered? 8 cs
  | c :: cs => (shortEscape? c).map fun d => (d, cs)
  | [] => none

/-- What follows a backslash between angle brackets: only characters by number. -/
def numberEscape? : List Char → Option (Char × List Char)
  | 'u' :: cs => numbered? 4 cs
  | 'U' :: cs => numbered? 8 cs
  | _ => none

/-! ## delimited text -/

/--
The text up to the closing character, which is dropped, and what follows. Each step uses up at least
one character, so as many steps as there are characters suffice.
-/
def delimited? (close : Char) (allowed : Char → Bool)
    (escape : List Char → Option (Char × List Char)) :
    Nat → List Char → Option (List Char × List Char)
  | 0, _ => none
  | _ + 1, [] => none
  | steps + 1, c :: cs =>
    if c = close then some ([], cs)
    else if c = '\\' then
      match escape cs with
      | none => none
      | some (d, rest) =>
        match delimited? close allowed escape steps rest with
        | none => none
        | some (ds, rest) => some (d :: ds, rest)
    else if allowed c then
      match delimited? close allowed escape steps cs with
      | none => none
      | some (ds, rest) => some (c :: ds, rest)
    else none

/-- Characters that may not stand unescaped between angle brackets. -/
def allowedInReference (c : Char) : Bool :=
  0x20 < c.toNat && c ≠ '<' && c ≠ '"' && c.toNat ≠ 0x7b && c.toNat ≠ 0x7d && c ≠ '|' &&
    c ≠ '^' && c.toNat ≠ 0x60

def allowedInText (c : Char) : Bool := c ≠ '\n' && c ≠ '\r'

def reference? (steps : Nat) (cs : List Char) : Option (Token × List Char) :=
  match delimited? '>' allowedInReference numberEscape? steps cs with
  | none => none
  | some (ds, rest) => some (.reference ds, rest)

def text? (steps : Nat) (cs : List Char) : Option (Token × List Char) :=
  match delimited? '"' allowedInText escape? steps cs with
  | none => none
  | some (ds, rest) => some (.text (String.ofList ds), rest)

/-! ## names -/

def isNameStart (c : Char) : Bool :=
  let n := c.toNat
  Text.isAsciiLetter c || (0xc0 ≤ n && n ≤ 0xd6) || (0xd8 ≤ n && n ≤ 0xf6) ||
    (0xf8 ≤ n && n ≤ 0x2ff) || (0x370 ≤ n && n ≤ 0x37d) || (0x37f ≤ n && n ≤ 0x1fff) ||
    (0x200c ≤ n && n ≤ 0x200d) || (0x2070 ≤ n && n ≤ 0x218f) || (0x2c00 ≤ n && n ≤ 0x2fef) ||
    (0x3001 ≤ n && n ≤ 0xd7ff) || (0xf900 ≤ n && n ≤ 0xfdcf) || (0xfdf0 ≤ n && n ≤ 0xfffd) ||
    (0x10000 ≤ n && n ≤ 0xeffff)

def isNameChar (c : Char) : Bool :=
  let n := c.toNat
  isNameStart c || Number.isDigit c || c = '_' || c = '-' || n = 0xb7 ||
    (0x300 ≤ n && n ≤ 0x36f) || (0x203f ≤ n && n ≤ 0x2040)

/-- A label: no dash in front and no dot at either end. -/
def label? (cs : List Char) : Option (Token × List Char) :=
  let run := cs.takeWhile fun c => isNameChar c || c = '.'
  let label := (run.reverse.dropWhile fun c => c = '.').reverse
  match label with
  | [] => none
  | c :: _ =>
    if isNameStart c || Number.isDigit c || c = '_' then
      some (.blank (String.ofList label), cs.drop label.length)
    else none

def language? (cs : List Char) : Option (Token × List Char) :=
  let isTagChar := fun c => Text.isAlphanumeric c || c = '-'
  let tag := (cs.takeWhile isTagChar).map Char.toLower
  if LanguageTag.wellFormed tag then
    some (.language (String.ofList tag), cs.dropWhile isTagChar)
  else none

/-! ## all tokens -/

/-- The token that starts with the given character, and what follows it. -/
def starting? (steps : Nat) (c : Char) (cs : List Char) : Option (Token × List Char) :=
  match c, cs with
  | '<', cs => reference? steps cs
  | '"', cs => text? steps cs
  | '_', ':' :: cs => label? cs
  | '@', cs => language? cs
  | '^', '^' :: cs => some (.typeMark, cs)
  | '.', cs => some (.dot, cs)
  | '\n', cs => some (.lineBreak, cs)
  | '\r', cs => some (.lineBreak, cs)
  | _, _ => none

/--
As many steps as there are characters suffice, since each uses up at least one; those that are left
suffice for the characters that are left, and so for the next token.
-/
def scanWithin : Nat → List Char → Option (List Token)
  | _, [] => some []
  | 0, _ => none
  | steps + 1, c :: cs =>
    if c = ' ' ∨ c = '\t' then scanWithin steps cs
    else if c = '#' then scanWithin steps (cs.dropWhile allowedInText)
    else
      match starting? steps c cs with
      | none => none
      | some (t, rest) =>
        match scanWithin steps rest with
        | none => none
        | some ts => some (t :: ts)

def scan (cs : List Char) : Option (List Token) := scanWithin cs.length cs

end Token
end Document
end ShaclExtract
