import ShaclExtract.Rdf.Term

/-!
# ShaclExtract.Rdf.Text

The written form of terms, as error messages and results show them: an IRI between angle brackets,
a blank node as `_:label`, a literal in double quotes followed by its language tag or datatype. The
datatype of a simple literal is not written.

Inside the quotes the usual control characters have short escapes; other control characters and the
two noncharacters U+FFFE and U+FFFF are written as `\u` and four hexadecimal digits.
-/

namespace ShaclExtract

namespace Text

def upperHexDigit (n : Nat) : Char :=
  if n < 10 then Char.ofNat (48 + n) else Char.ofNat (55 + n)

def escapeHex (c : Char) : List Char :=
  let n := c.toNat
  ['\\', 'u', upperHexDigit (n / 4096 % 16), upperHexDigit (n / 256 % 16),
    upperHexDigit (n / 16 % 16), upperHexDigit (n % 16)]

def escapeChar (c : Char) : List Char :=
  match c with
  | '\x08' => ['\\', 'b']
  | '\t' => ['\\', 't']
  | '\n' => ['\\', 'n']
  | '\x0c' => ['\\', 'f']
  | '\r' => ['\\', 'r']
  | '"' => ['\\', '"']
  | '\\' => ['\\', '\\']
  | c =>
    if c.toNat < 0x20 ∨ c.toNat = 0x7f ∨ c.toNat = 0xfffe ∨ c.toNat = 0xffff then escapeHex c
    else [c]

def escape (cs : List Char) : List Char := cs.flatMap escapeChar

def quote (s : String) : String := "\"" ++ String.ofList (escape s.toList) ++ "\""

end Text

def Iri.toText (i : Iri) : String := "<" ++ i.text ++ ">"

def Literal.toText (l : Literal) : String :=
  match l.annotation with
  | .language tag => Text.quote l.lexical ++ "@" ++ tag
  | .datatype d =>
    if d = Xsd.string then Text.quote l.lexical else Text.quote l.lexical ++ "^^" ++ d.toText

def Term.toText : Term → String
  | .iri i => i.toText
  | .blank b => "_:" ++ b
  | .literal l => l.toText

def Resource.toText (r : Resource) : String := r.toTerm.toText

end ShaclExtract
