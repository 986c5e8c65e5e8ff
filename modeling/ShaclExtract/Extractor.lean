import ShaclExtract.Answers

/-!
# ShaclExtract.Extractor

Extractors and their combinators. An extractor turns an input into an output or a failure and may
change a state on the way; what it did to the state stays done when it fails. It answers `none` if
it does not end, and then so does everything that has to wait for it.
-/

namespace ShaclExtract

abbrev Extractor (σ ι ο : Type) := ι → σ → Option (Except Failure ο × σ)

namespace Extractor

variable {σ ι ο α β : Type}

/-! ## without state -/

def ofExcept (f : ι → Except Failure ο) : Extractor σ ι ο := fun i s => some (f i, s)

def const (value : ο) : Extractor σ ι ο := fun _ s => some (.ok value, s)

def fail (e : Failure) : Extractor σ ι ο := fun _ s => some (.error e, s)

def only : Extractor σ (List α) α := ofExcept fun xs =>
  match xs with
  | [x] => .ok x
  | _ => .error (.requiredValueMissing xs.length)

/-- The only element of a list, or the default for an empty one. -/
def onlyOr (default : α) : Extractor σ (List α) α := ofExcept fun xs =>
  match xs with
  | [] => .ok default
  | [x] => .ok x
  | _ => .error (.requiredValueMissing xs.length)

/-! ## one after the other -/

def andThen (x : Extractor σ ι α) (y : Extractor σ α ο) : Extractor σ ι ο := fun i s =>
  match x i s with
  | none => none
  | some (.error e, s) => some (.error e, s)
  | some (.ok a, s) => y a s

def map (x : Extractor σ ι α) (f : α → ο) : Extractor σ ι ο := fun i s =>
  match x i s with
  | none => none
  | some (.error e, s) => some (.error e, s)
  | some (.ok a, s) => some (.ok (f a), s)

def tryMap (x : Extractor σ ι α) (f : α → Except Failure ο) : Extractor σ ι ο :=
  x.andThen (ofExcept f)

/-- Replaces a failure, given the input that caused it. -/
def mapError (x : Extractor σ ι ο) (f : Failure → ι → Failure) : Extractor σ ι ο :=
  fun i s =>
    match x i s with
    | none => none
    | some (.error e, s) => some (.error (f e i), s)
    | some (.ok a, s) => some (.ok a, s)

/-! ## several on one input -/

/-- Tries the extractors in order; `last` is the failure of the one tried before. -/
def firstOfAfter (last : Failure) : List (Extractor σ ι ο) → Extractor σ ι ο
  | [], _, s => some (.error last, s)
  | x :: xs, i, s =>
    match x i s with
    | none => none
    | some (.error e, s) => firstOfAfter e xs i s
    | some (.ok a, s) => some (.ok a, s)

/-- The first extractor that succeeds; if none does, the last failure. -/
def firstOf (xs : List (Extractor σ ι ο)) : Extractor σ ι ο := firstOfAfter .noAlternative xs

def orElse (x y : Extractor σ ι ο) : Extractor σ ι ο := firstOf [x, y]

def all : List (Extractor σ ι ο) → Extractor σ ι (List ο)
  | [], _, s => some (.ok [], s)
  | x :: xs, i, s =>
    match x i s with
    | none => none
    | some (.error e, s) => some (.error e, s)
    | some (.ok a, s) =>
      match all xs i s with
      | none => none
      | some (.error e, s) => some (.error e, s)
      | some (.ok as, s) => some (.ok (a :: as), s)

/-- Tries the extractors in order until one has an output with elements; `best` is the preferred
answer so far. -/
def firstNonemptyAfter (best : Except Failure (List ο)) :
    List (Extractor σ ι (List ο)) → Extractor σ ι (List ο)
  | [], _, s => some (best, s)
  | x :: xs, i, s =>
    match x i s with
    | none => none
    | some (.ok (a :: as), s) => some (.ok (a :: as), s)
    | some (r, s) => firstNonemptyAfter (prefer best r) xs i s

/-- The first output that has elements. Without any, an empty output beats a failure, and of the
failures the last one remains. -/
def firstNonempty (xs : List (Extractor σ ι (List ο))) : Extractor σ ι (List ο) :=
  firstNonemptyAfter (.error .noAlternative) xs

/-! ## one on several inputs -/

def each (x : Extractor σ ι ο) : Extractor σ (List ι) (List ο)
  | [], s => some (.ok [], s)
  | i :: is, s =>
    match x i s with
    | none => none
    | some (.error e, s) => some (.error e, s)
    | some (.ok a, s) =>
      match each x is s with
      | none => none
      | some (.error e, s) => some (.error e, s)
      | some (.ok as, s) => some (.ok (a :: as), s)

def kept (x : Extractor σ ι ο) : Extractor σ (List ι) (List ο)
  | [], s => some (.ok [], s)
  | i :: is, s =>
    match x i s with
    | none => none
    | some (.error _, s) => kept x is s
    | some (.ok a, s) =>
      match kept x is s with
      | none => none
      | some (.error e, s) => some (.error e, s)
      | some (.ok as, s) => some (.ok (a :: as), s)

def expanded (x : Extractor σ ι (List ο)) : Extractor σ (List ι) (List ο) :=
  (each x).map List.flatten

end Extractor

end ShaclExtract
