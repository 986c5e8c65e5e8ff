import ShaclExtract.Answers
import ShaclExtract.Path.Basic
import ShaclExtract.Rdf.Graph
import ShaclExtract.Search

/-!
# ShaclExtract.Path.Walk

Walking a property path from a node of a graph. The answer lists the nodes reached, its hops, in the
order of discovery; a node reached along several routes is listed once for each, except that a
repeated path lists every node once, in breadth-first order.

An alternative takes the first branch that has any hop, and only an alternative without branches
makes a walk fail. The inverse of a path is walked by turning the direction around: predicates are
then followed from object to subject and sequences from their end.
-/

namespace ShaclExtract

inductive Direction where
  | forward
  | backward
deriving DecidableEq, Repr

def Direction.flip : Direction → Direction
  | .forward => .backward
  | .backward => .forward

namespace Path

/-- Zero or more steps: the start and all that is reached from it, unless some step fails. -/
def closure (step : Term → Except Failure (List Term)) (g : Graph) (x : Term) :
    Except Failure (List Term) :=
  Search.tryReach step g.terms x

/-- One or more steps: the start is listed only if it is reached again. -/
def closureBeyond (step : Term → Except Failure (List Term)) (g : Graph) (x : Term) :
    Except Failure (List Term) :=
  Search.tryReachBeyond step (x :: g.terms) x

/-- Zero or one step: the start, then the hops other than it, repeats kept. -/
def optional (step : Term → Except Failure (List Term)) (x : Term) :
    Except Failure (List Term) :=
  match step x with
  | .ok hops => .ok (x :: hops.filter fun y => y ≠ x)
  | .error e => .error e

mutual

def follow (g : Graph) : Path → Direction → Term → Except Failure (List Term)
  | .predicate i, .forward, x => .ok (g.objects x i)
  | .predicate i, .backward, x => .ok (g.subjects x i)
  | .inverse p, d, x => follow g p d.flip x
  | .sequence ps, d, x => followAll g ps d [x]
  | .alternative ps, d, x => choose g ps d x (.error .noAlternative)
  | .zeroOrMore p, d, x => closure (follow g p d) g x
  | .oneOrMore p, d, x => closureBeyond (follow g p d) g x
  | .zeroOrOne p, d, x => optional (follow g p d) x

/-- The stages of a sequence one after the other, each expanding all hops of the one before. -/
def followAll (g : Graph) : List Path → Direction → List Term → Except Failure (List Term)
  | [], _, xs => .ok xs
  | p :: ps, .forward, xs =>
    match gather (follow g p .forward) xs with
    | .ok ys => followAll g ps .forward ys
    | .error e => .error e
  | p :: ps, .backward, xs =>
    match followAll g ps .backward xs with
    | .ok ys => gather (follow g p .backward) ys
    | .error e => .error e

/-- The first branch that has any hop; `best` is the preferred answer of the branches before. -/
def choose (g : Graph) :
    List Path → Direction → Term → Except Failure (List Term) → Except Failure (List Term)
  | [], _, _, best => best
  | p :: ps, d, x, best =>
    match follow g p d x with
    | .ok (y :: ys) => .ok (y :: ys)
    | r => choose g ps d x (prefer best r)

end

def walk (g : Graph) (p : Path) (x : Term) : Except Failure (List Term) :=
  follow g p .forward x

end Path

end ShaclExtract
