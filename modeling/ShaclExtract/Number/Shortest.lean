import ShaclExtract.Number.Binary64

/-!
# ShaclExtract.Number.Shortest

The shortest decimal that reads back as a given float. A decimal reads back if it lies in the
interval of numbers that round to the float; the ends of the interval belong to it if the last bit
of the float is zero. Grids of decimals are tried from coarse to fine: of each the two neighbours of
the float are tested, and of two that read back the nearer one is taken, a tie going to the even
digit.
-/

namespace ShaclExtract

structure Decimal where
  digits : Nat
  exponent : Int
deriving DecidableEq, Repr

namespace Binary64

/-- A float and the ends of its interval, as multiples of `1 / unit`. -/
structure Interval where
  low : Nat
  middle : Nat
  high : Nat
  unit : Nat
  closed : Bool

/-- The interval of a positive finite magnitude; it is narrower below a power of two. -/
def interval (magnitude : Nat) : Interval :=
  let e := magnitude / exponentBit
  let f := magnitude % exponentBit
  let m := if e = 0 then f else f + exponentBit
  let q : Int := (max e 1 : Nat) - 1075
  let below := if f = 0 ∧ 1 < e then 1 else 2
  let scale := Nat.pow 2 (q - 2).toNat
  { low := (4 * m - below) * scale
    middle := 4 * m * scale
    high := (4 * m + 2) * scale
    unit := Nat.pow 2 (2 - q).toNat
    closed := m % 2 = 0 }

namespace Interval

def holds (i : Interval) (d : Nat) (e : Int) : Bool :=
  let x := d * Nat.pow 10 e.toNat * i.unit
  let low := i.low * Nat.pow 10 (-e).toNat
  let high := i.high * Nat.pow 10 (-e).toNat
  if i.closed then low ≤ x && x ≤ high else low < x && x < high

/-- The decimal on the grid of `10 ^ e` that reads back, if one of the two neighbours does. -/
def onGrid? (i : Interval) (e : Int) : Option Decimal :=
  let num := i.middle * Nat.pow 10 (-e).toNat
  let den := i.unit * Nat.pow 10 e.toNat
  let d := num / den
  let nearer := roundDiv num den
  match i.holds d e, i.holds (d + 1) e with
  | true, true => some ⟨nearer, e⟩
  | true, false => some ⟨d, e⟩
  | false, true => some ⟨d + 1, e⟩
  | false, false => none

/-- The first hit on the grids of `10 ^ e`, `10 ^ (e - 1)` and so on. -/
def firstGrid (i : Interval) : Nat → Int → Decimal
  | 0, e => ⟨i.middle * Nat.pow 10 (-e).toNat / (i.unit * Nat.pow 10 e.toNat), e⟩
  | steps + 1, e =>
    match i.onGrid? e with
    | some d => d
    | none => firstGrid i steps (e - 1)

/-- A power of ten that is not below the float. -/
def places (i : Interval) : Int :=
  if i.unit ≤ i.middle then (Number.toDigits (i.middle / i.unit)).length
  else 1 - ((Number.toDigits (i.unit / i.middle)).length : Int)

end Interval

/-- The shortest decimal of a positive finite magnitude; eighteen grids are enough. -/
def shortest (magnitude : Nat) : Decimal :=
  let i := interval magnitude
  i.firstGrid 19 i.places

end Binary64

end ShaclExtract
