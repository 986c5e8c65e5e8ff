import ShaclExtract.Number.Digits

/-!
# ShaclExtract.Number.Binary64

Floating point numbers of 64 bits, kept as their bits: a sign bit, eleven bits of exponent and 52
bits of fraction. Reading a decimal is exact: the number is a quotient of naturals, and the nearest
float is found in natural arithmetic, a half going to the even neighbour.
-/

namespace ShaclExtract

structure Binary64 where
  bits : UInt64
deriving DecidableEq, Repr

namespace Binary64

def signBit : Nat := 0x8000000000000000

def exponentBit : Nat := 0x10000000000000

/-- Bit pattern of a number without its sign bit. -/
def magnitude (x : Binary64) : Nat := x.bits.toNat % signBit

def isNegative (x : Binary64) : Bool := signBit ≤ x.bits.toNat

/-- The bits of positive infinity; finite magnitudes are below, those of NaN above. -/
def infinityBits : Nat := 0x7ff0000000000000

def isNaN (x : Binary64) : Bool := infinityBits < x.magnitude

def isFinite (x : Binary64) : Bool := x.magnitude < infinityBits

def ofMagnitude (negative : Bool) (magnitude : Nat) : Binary64 :=
  ⟨UInt64.ofNat (if negative then signBit + magnitude else magnitude)⟩

def infinity (negative : Bool) : Binary64 := ofMagnitude negative infinityBits

def nan (negative : Bool) : Binary64 := ofMagnitude negative 0x7ff8000000000000

/-! ## rounding a quotient -/

/-- The quotient rounded to the nearest natural, a half to the even one. -/
def roundDiv (num den : Nat) : Nat :=
  let q := num / den
  let r := num % den
  if 2 * r < den then q
  else if den < 2 * r then q + 1
  else if q % 2 = 0 then q
  else q + 1

/-- The largest `e` with `2 ^ e ≤ num / den`, for positive arguments. -/
def binaryExponent (num den : Nat) : Int :=
  let e : Int := (num.log2 : Int) - (den.log2 : Int)
  let reached := if 0 ≤ e then den * Nat.pow 2 e.toNat ≤ num else den ≤ num * Nat.pow 2 (-e).toNat
  if reached then e else e - 1

/--
The magnitude nearest to `num / den`. With `k` the exponent of the last bit kept, the quotient
divided by `2 ^ k` is rounded to `q ≤ 2 ^ 53`, and `(k + 1074) * 2 ^ 52 + q` are the bits, also when
the number is subnormal or rounding carries into the next power of two.
-/
def nearestMagnitude (num den : Nat) : Nat :=
  if num = 0 then 0
  else
    let k : Int := max (binaryExponent num den - 52) (-1074)
    let q :=
      if 0 ≤ k then roundDiv num (den * Nat.pow 2 k.toNat)
      else roundDiv (num * Nat.pow 2 (-k).toNat) den
    min infinityBits ((k + 1074).toNat * exponentBit + q)

/--
The float nearest to `mantissa * 10 ^ exponent`. A decimal of 310 places or more before the point
overflows, one whose first digit is 330 places or more behind it rounds to zero.
-/
def ofDecimal (negative : Bool) (mantissa : Nat) (exponent : Int) : Binary64 :=
  let places : Int := (Number.toDigits mantissa).length + exponent
  ofMagnitude negative <|
    if mantissa = 0 then 0
    else if 310 < places then infinityBits
    else if places < -330 then 0
    else if 0 ≤ exponent then nearestMagnitude (mantissa * Nat.pow 10 exponent.toNat) 1
    else nearestMagnitude mantissa (Nat.pow 10 (-exponent).toNat)

/-! ## reading -/

/-- The exponent part: nothing, or `e`, an optional sign and digits. -/
def exponent? : List Char → Option Int
  | [] => some 0
  | c :: cs =>
    if c = 'e' ∨ c = 'E' then
      let signed := Number.splitSign cs
      match Number.natural? signed.2 with
      | none => none
      | some n => some (if signed.1 then -(n : Int) else n)
    else none

/-- Digits with an optional point, at least one digit, and an optional exponent. -/
def decimal? (negative : Bool) (cs : List Char) : Option Binary64 :=
  let whole := cs.takeWhile Number.isDigit
  let rest := cs.dropWhile Number.isDigit
  let parts := match rest with
    | '.' :: more => (more.takeWhile Number.isDigit, more.dropWhile Number.isDigit)
    | _ => ([], rest)
  let digits := whole ++ parts.1
  if digits = [] then none
  else
    match exponent? parts.2 with
    | none => none
    | some e => some (ofDecimal negative (Number.ofDigits digits) (e - (parts.1.length : Int)))

/-- An optional sign, then `inf`, `infinity` or `nan` in any case, or a decimal. -/
def parse? (cs : List Char) : Option Binary64 :=
  let signed := Number.splitSign cs
  let word := signed.2.map Char.toLower
  if word = "inf".toList ∨ word = "infinity".toList then some (infinity signed.1)
  else if word = "nan".toList then some (nan signed.1)
  else decimal? signed.1 signed.2

end Binary64

end ShaclExtract
