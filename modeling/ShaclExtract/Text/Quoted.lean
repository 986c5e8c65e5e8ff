import ShaclExtract.Text.Unprintable

/-!
# ShaclExtract.Text.Quoted

The quoted form of a text in messages: double quotes around it, a backslash before a double quote or
a backslash, short escapes for tab, line feed, carriage return and NUL, and `\u{hex}` for every
other unprintable character. A single quote stands for itself.
-/

namespace ShaclExtract
namespace Text
namespace Quoted

def hex (n : Nat) : List Char := Nat.toDigits 16 n

def encodeChar (c : Char) : List Char :=
  match c with
  | '\x00' => ['\\', '0']
  | '\t' => ['\\', 't']
  | '\n' => ['\\', 'n']
  | '\r' => ['\\', 'r']
  | '"' => ['\\', '"']
  | '\\' => ['\\', '\\']
  | c => if isUnprintable c then ['\\', 'u', '\x7b'] ++ hex c.toNat ++ ['\x7d'] else [c]

def encode (cs : List Char) : List Char := cs.flatMap encodeChar

end Quoted

def quoted (s : String) : String := "\"" ++ String.ofList (Quoted.encode s.toList) ++ "\""

end Text
end ShaclExtract
