import ShaclExtract.Number.Digits

/-!
# ShaclExtract.DateTime

Dates with a time of day and an optional zone, in the proleptic Gregorian calendar with a year zero.
A date is read from and written in its own zone. The end of a day, `24:00:00`, is read as the start
of the next one.
-/

namespace ShaclExtract

structure DateTime where
  year : Int
  month : Nat
  day : Nat
  hour : Nat
  minute : Nat
  second : Nat
  /-- The part of a second behind the point, in units of `10 ^ -18`. -/
  fraction : Nat
  zone : Option Int
deriving DecidableEq, Repr

namespace DateTime

/-! ## calendar -/

def isLeap (year : Int) : Bool := year % 4 = 0 && (year % 100 ≠ 0 || year % 400 = 0)

def daysInMonth (year : Int) (month : Nat) : Nat :=
  match month with
  | 2 => if isLeap year then 29 else 28
  | 4 | 6 | 9 | 11 => 30
  | _ => 31

def daysBeforeMonth (year : Int) (month : Nat) : Nat :=
  ((List.range (month - 1)).map fun m => daysInMonth year (m + 1)).foldl (fun a b => a + b) 0

/-- Days from 0001-01-01 to the first day of a year. -/
def daysBeforeYear (year : Int) : Int :=
  let y := year - 1
  365 * y + y / 4 - y / 100 + y / 400

/-- Minutes from 0001-01-01T00:00Z to the minute of a date; no zone counts as universal time. -/
def minutes (d : DateTime) : Int :=
  let days := daysBeforeYear d.year + (daysBeforeMonth d.year d.month : Int) + (d.day : Int) - 1
  days * 1440 + (d.hour * 60 + d.minute : Nat) - d.zone.getD 0

def nextDay (d : DateTime) : DateTime :=
  if d.day < daysInMonth d.year d.month then { d with day := d.day + 1 }
  else if d.month < 12 then { d with month := d.month + 1, day := 1 }
  else { d with year := d.year + 1, month := 1, day := 1 }

/-- A number of units of `10 ^ -18` seconds that needs no more than 128 bits with sign. -/
def fits (units : Int) : Bool :=
  let limit : Int := 0x80000000000000000000000000000000
  units < limit && -limit ≤ units

/-- The instant can be counted, and so can the start of its minute. -/
def inRange (d : DateTime) : Bool :=
  let start := d.minutes * 60000000000000000000
  fits start && fits (start + d.second * 1000000000000000000 + d.fraction)

/-! ## reading -/

def two? : List Char → Option (Nat × List Char)
  | a :: b :: rest =>
    if Number.isDigit a ∧ Number.isDigit b then some (Number.ofDigits [a, b], rest) else none
  | _ => none

def markedTwo? (mark : Char) : List Char → Option (Nat × List Char)
  | c :: rest => if c = mark then two? rest else none
  | [] => none

/-- At least four digits, no zero in front of more than four, a minus sign if below zero. -/
def year? (cs : List Char) : Option (Int × List Char) :=
  let signed := match cs with
    | '-' :: rest => (true, rest)
    | _ => (false, cs)
  let ds := signed.2.takeWhile Number.isDigit
  let rest := signed.2.dropWhile Number.isDigit
  if ds.length < 4 ∨ (4 < ds.length ∧ ds.head? = some '0') then none
  else
    let value : Int := if signed.1 then -(Number.ofDigits ds : Int) else Number.ofDigits ds
    if Number.intMin ≤ value ∧ value ≤ Number.intMax then some (value, rest) else none

/-- A point and digits, of which eighteen may differ from trailing zeros; or nothing. -/
def fraction? : List Char → Option (Nat × List Char)
  | '.' :: rest =>
    let ds := rest.takeWhile Number.isDigit
    let kept := (ds.reverse.dropWhile fun c => c = '0').reverse
    if ds = [] ∨ 18 < kept.length then none
    else some (Number.ofDigits kept * Nat.pow 10 (18 - kept.length), rest.dropWhile Number.isDigit)
  | cs => some (0, cs)

/-- Hours up to 13 with any minutes, or 14 hours sharp. -/
def offset? (cs : List Char) : Option Int :=
  match two? cs with
  | none => none
  | some (h, rest) =>
    match markedTwo? ':' rest with
    | some (m, []) => if (h ≤ 13 ∧ m ≤ 59) ∨ (h = 14 ∧ m = 0) then some (h * 60 + m : Nat) else none
    | _ => none

/-- What may stand behind the time: nothing, `Z`, or a signed offset. -/
def zone? : List Char → Option (Option Int)
  | [] => some none
  | ['Z'] => some (some 0)
  | '+' :: rest => (offset? rest).map some
  | '-' :: rest => (offset? rest).map fun m => some (-m)
  | _ => none

/-- The fields as written, before they are checked. -/
def fields? (cs : List Char) : Option DateTime :=
  match year? cs with
  | none => none
  | some (year, cs) =>
  match markedTwo? '-' cs with
  | none => none
  | some (month, cs) =>
  match markedTwo? '-' cs with
  | none => none
  | some (day, cs) =>
  match markedTwo? 'T' cs with
  | none => none
  | some (hour, cs) =>
  match markedTwo? ':' cs with
  | none => none
  | some (minute, cs) =>
  match markedTwo? ':' cs with
  | none => none
  | some (second, cs) =>
  match fraction? cs with
  | none => none
  | some (fraction, cs) =>
  match zone? cs with
  | none => none
  | some zone => some { year, month, day, hour, minute, second, fraction, zone }

/-- The day exists and the time of day is at most `24:00:00`. -/
def isValid (d : DateTime) : Bool :=
  1 ≤ d.month && d.month ≤ 12 && 1 ≤ d.day && d.day ≤ daysInMonth d.year d.month &&
    d.minute ≤ 59 && d.second ≤ 59 &&
    (d.hour ≤ 23 || (d.hour = 24 && d.minute = 0 && d.second = 0 && d.fraction = 0))

def parse? (cs : List Char) : Option DateTime :=
  match fields? cs with
  | none => none
  | some d =>
    if d.isValid then
      let d := if d.hour = 24 then { d.nextDay with hour := 0 } else d
      if d.inRange then some d else none
    else none

/-! ## writing -/

def yearText (year : Int) : List Char :=
  let ds := Number.padded 4 year.natAbs
  if year < 0 then '-' :: ds else ds

def fractionText (fraction : Nat) : List Char :=
  if fraction = 0 then []
  else '.' :: ((Number.padded 18 fraction).reverse.dropWhile fun c => c = '0').reverse

def zoneText : Option Int → List Char
  | none => []
  | some z =>
    if z = 0 then ['Z']
    else
      let m := z.natAbs
      (if z < 0 then '-' else '+') :: Number.padded 2 (m / 60) ++ ':' :: Number.padded 2 (m % 60)

def toText (d : DateTime) : String :=
  String.ofList <|
    yearText d.year ++ '-' :: Number.padded 2 d.month ++ '-' :: Number.padded 2 d.day ++
      'T' :: Number.padded 2 d.hour ++ ':' :: Number.padded 2 d.minute ++
      ':' :: Number.padded 2 d.second ++ fractionText d.fraction ++ zoneText d.zone

end DateTime

end ShaclExtract
