import ShaclExtract.Failure.Basic

/-!
# ShaclExtract.Answers

Answers that are lists or failures: expanding a list element by element up to the first failure, and
preferring one of two answers.
-/

namespace ShaclExtract

variable {α β ε : Type}

/-- Expands every element in place, or gives the first failure. -/
def gather (f : α → Except ε (List β)) : List α → Except ε (List β)
  | [] => .ok []
  | x :: rest =>
    match f x with
    | .error e => .error e
    | .ok ys =>
      match gather f rest with
      | .error e => .error e
      | .ok zs => .ok (ys ++ zs)

/--
The first answer if it has elements, else the second one. An empty answer beats a failure, and of
two failures the second one remains.
-/
def prefer (first second : Except ε (List α)) : Except ε (List α) :=
  match first, second with
  | .ok (x :: xs), _ => .ok (x :: xs)
  | .ok [], .error _ => .ok []
  | .ok [], .ok ys => .ok ys
  | .error _, r => r

end ShaclExtract
