/-!
# ShaclExtract.Search

Breadth-first search. Nodes wait in a queue and are taken from its front; the successors of a node
that are met for the first time join its end. The answer lists the nodes in the order they were met.

Instead of the nodes already met, the search keeps those not met so far. The list is given at the
start and must hold every node that may be reached, so it only shrinks and the search ends.

Steps that may fail have a search of their own. It takes every step once, and the first failure in
the order of the search is its answer.
-/

namespace ShaclExtract
namespace Search

variable {α : Type} [DecidableEq α]

/-- Splits off the nodes met for the first time, in order; the second part stays unmet. -/
def discover : List α → List α → List α × List α
  | [], unmet => ([], unmet)
  | x :: xs, unmet =>
    if x ∈ unmet then
      let rest := discover xs (unmet.filter fun y => y ≠ x)
      (x :: rest.1, rest.2)
    else discover xs unmet

theorem length_filter_ne_lt {x : α} {l : List α} (h : x ∈ l) :
    (l.filter fun y => y ≠ x).length < l.length :=
  List.length_filter_lt_length_iff_exists.2 ⟨x, h, by simp⟩

theorem length_discover (xs unmet : List α) :
    (discover xs unmet).1.length + (discover xs unmet).2.length ≤ unmet.length := by
  induction xs generalizing unmet with
  | nil => simp [discover]
  | cons x xs ih =>
    unfold discover
    split
    · rename_i h
      have h₁ := length_filter_ne_lt h
      have h₂ := ih (unmet.filter fun y => y ≠ x)
      simp only [List.length_cons]
      omega
    · exact ih unmet

/-- The nodes of the queue and all that are met from them, in the order they were met. -/
def run (step : α → List α) (queue unmet : List α) : List α :=
  match queue with
  | [] => []
  | x :: queue =>
    let found := discover (step x) unmet
    x :: run step (queue ++ found.1) found.2
termination_by queue.length + unmet.length
decreasing_by
  have h := length_discover (step x) unmet
  simp only [List.length_append, List.length_cons]
  omega

def tryRun {ε : Type} (step : α → Except ε (List α)) (queue unmet : List α) :
    Except ε (List α) :=
  match queue with
  | [] => .ok []
  | x :: queue =>
    match step x with
    | .error e => .error e
    | .ok next =>
      let found := discover next unmet
      match tryRun step (queue ++ found.1) found.2 with
      | .error e => .error e
      | .ok rest => .ok (x :: rest)
termination_by queue.length + unmet.length
decreasing_by
  have h := length_discover next unmet
  simp only [List.length_append, List.length_cons]
  omega

theorem tryRun_eq_ok_run {ε : Type} {step : α → Except ε (List α)} {f : α → List α}
    (h : ∀ x, step x = .ok (f x)) (queue unmet : List α) :
    tryRun step queue unmet = .ok (run f queue unmet) := by
  fun_induction run f queue unmet with
  | case1 unmet => rw [tryRun]
  | case2 unmet x queue found ih =>
    rw [tryRun, h]
    simp only [found] at ih
    simp only [ih]
    rfl

/-! ## from one node -/

/-- All nodes reached from `x` in zero or more steps; `nodes` must hold those other than `x`. -/
def reach (step : α → List α) (nodes : List α) (x : α) : List α :=
  run step [x] (nodes.filter fun y => y ≠ x)

def tryReach {ε : Type} (step : α → Except ε (List α)) (nodes : List α) (x : α) :
    Except ε (List α) :=
  tryRun step [x] (nodes.filter fun y => y ≠ x)

/--
All nodes reached from `x` in one or more steps that may fail; `nodes` must hold them. When `x` is
reached again it is listed, but its step has been taken before and leads to nothing new.
-/
def tryReachBeyond {ε : Type} (step : α → Except ε (List α)) (nodes : List α) (x : α) :
    Except ε (List α) :=
  match step x with
  | .error e => .error e
  | .ok next =>
    let found := discover next nodes
    tryRun (fun y => if y = x then .ok [] else step y) found.1 found.2

end Search
end ShaclExtract
