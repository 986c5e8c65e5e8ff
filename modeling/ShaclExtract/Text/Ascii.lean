import ShaclExtract.Number.Digits

/-!
# ShaclExtract.Text.Ascii

Classes of ASCII characters that syntaxes are written with.
-/

namespace ShaclExtract
namespace Text

def isAsciiLetter (c : Char) : Bool := ('a' ≤ c && c ≤ 'z') || ('A' ≤ c && c ≤ 'Z')

def isAlphanumeric (c : Char) : Bool := isAsciiLetter c || Number.isDigit c

def isHexDigit (c : Char) : Bool :=
  Number.isDigit c || ('a' ≤ c && c ≤ 'f') || ('A' ≤ c && c ≤ 'F')

end Text
end ShaclExtract
