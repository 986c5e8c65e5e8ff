import ShaclExtract.Path.Reading
import ShaclExtract.Rdf.Description
import ShaclExtract.Setting
import ShaclExtract.Shape.Extraction
import ShaclExtract.Strategy

/-!
# ShaclExtract.Evaluation

Running programs. A program is turned into an extractor, given a strategy for shared results and an
extractor for each routine that may be asked for. The routines in turn are run by their programs,
with a bound on how deep they may be nested.

With memoized results the nesting is bounded by itself: routines that are unfinished at the same
time differ in the routine or in the node. `Setting.depth` counts these pairs.
-/

namespace ShaclExtract

variable {σ : Type}

namespace Setting

/--
Applies the transform of a class, if it has one, to what a value stands for. A value that is still
being computed is handed through as it is.
-/
def transformed (S : Setting) (E : Strategy σ) (cls : Iri) : Extractor σ Value Value := fun v s =>
  match S.transforms.get? cls with
  | none => some (.ok v, s)
  | some transform =>
    match E.resolve s v with
    | .pending => some (.ok v, s)
    | w => some (transform w, s)

def instanceOf (S : Setting) (E : Strategy σ) (invoke : Routine → Extractor σ View Value)
    (cls : Iri) : Extractor σ View Value :=
  (invoke (.ofClass cls)).andThen (S.transformed E cls)

def element (S : Setting) (E : Strategy σ) (invoke : Routine → Extractor σ View Value) :
    ValueType → Extractor σ View Value
  | .ofClass cls => S.instanceOf E invoke cls
  | .datatype d => .ofExcept (Datatype.extract S.environment d)

/-- The fields of the records among the values, later ones written over earlier ones. -/
def mergedRecord (resolve : Value → Value) (values : List Value) : Record :=
  values.foldl (fun r v =>
    match resolve v with
    | .record fields => r.merge fields
    | _ => r) []

/-- A single value as it is, several values merged into one record. -/
def merged (E : Strategy σ) : Extractor σ (List Value) Value := fun values s =>
  match values with
  | [v] => some (.ok v, s)
  | vs => some (.ok (.record (mergedRecord (E.resolve s) vs)), s)

/-- The values of all applicable classes merged, with the transform of the first asserted type. -/
def dispatched (S : Setting) (E : Strategy σ) (invoke : Routine → Extractor σ View Value) :
    Extractor σ View Value := fun view s =>
  let types := assertedTypes view
  match S.applicable view, types with
  | [], _ | _, [] =>
    some (.error (.noApplicableShape (", ".intercalate (types.map Iri.text))), s)
  | classes, type :: _ =>
    (((Extractor.all (classes.map fun cls => invoke (.ofClass cls))).andThen (merged E)).andThen
      (S.transformed E type)) view s

/-- The value by asserted types; none only if the focus asserts no type. -/
def typed (invoke : Routine → Extractor σ View Value) : Extractor σ View (Option Value) :=
  fun view s =>
    if view.types = [] then some (.ok none, s) else (invoke .dispatch).map some view s

end Setting

def View.record (v : View) : Record := [("id", .term v.focus), ("quads", .quads v.graph)]

namespace Program

/-- The path that the focus describes, or `none` if the description refers to itself. -/
def pathExtractor : Extractor σ View Value := fun view s =>
  match Path.read view.graph view.focus with
  | none => none
  | some (.error e) => some (.error e, s)
  | some (.ok p) => some (.ok (.path p), s)

def onHops (via : Path) (x : Extractor σ View Value) : Hops → Extractor σ View Value
  | .one => (via.hops.andThen .only).andThen x
  | .all => (via.hops.andThen x.each).map .list
  | .some => (via.hops.andThen x.kept).map .list

mutual

def extractor (S : Setting) (E : Strategy σ) (invoke : Routine → Extractor σ View Value) :
    Program → Extractor σ View Value
  | .focus => .ofExcept fun view => .ok (.term view.focus)
  | .const v => .const v
  | .fail e => .fail e
  | .tick name => fun _ s => some (.ok (.integer (E.tick s name).1), (E.tick s name).2)
  | .description => .ofExcept fun view => .ok (.quads (view.graph.description view.focus))
  | .context => .ofExcept fun view => .ok (.record view.record)
  | .path => pathExtractor
  | .typed => (Setting.typed invoke).map Value.ofOption
  | .dispatch => S.dispatched E invoke
  | .shape sh => sh.extractor (S.element E invoke)
  | .all parts => (Extractor.all (extractors S E invoke parts)).map .list
  | .firstOf parts => .firstOf (extractors S E invoke parts)
  | .along via hops part => onHops via (extractor S E invoke part) hops
  | .shared number part => E.share (.part number) (extractor S E invoke part)
  | .call procedure => invoke (.procedure procedure)
  | .resolved part => fun view s =>
    match extractor S E invoke part view s with
    | none => none
    | some (.error e, s) => some (.error e, s)
    | some (.ok v, s) => some (.ok (E.resolve s v), s)

def extractors (S : Setting) (E : Strategy σ) (invoke : Routine → Extractor σ View Value) :
    List Program → List (Extractor σ View Value)
  | [] => []
  | p :: ps => extractor S E invoke p :: extractors S E invoke ps

end

end Program

namespace Routine

def unknown : Routine → Failure
  | .ofClass cls => .unknownShapeReference cls.text
  | .procedure name => .unknownShapeReference name
  | .dispatch => .noAlternative

end Routine

namespace Setting

/-- Runs a routine, with routines nested less than `depth` deep; `none` if that is not enough. -/
def invoke (S : Setting) (E : Strategy σ) : Nat → Routine → Extractor σ View Value
  | 0, _ => fun _ _ => none
  | depth + 1, r =>
    match S.program? r with
    | none => .fail r.unknown
    | some p => E.share (.routine r) (p.extractor S E (invoke S E depth))

/-- One more than there are pairs of a routine and a node of the graph or the focus. -/
def depth (S : Setting) (g : Graph) : Nat :=
  (S.registry.size + S.procedures.size + 1) * (2 * g.length + 1) + 1

def run {ο : Type} (S : Setting)
    (build : (Routine → Extractor RunState View Value) → Extractor RunState View ο) :
    Extractor RunState View ο :=
  fun view s => build (S.invoke .memoized (S.depth view.graph)) view s

def runProgram (S : Setting) (p : Program) : Extractor RunState View Value :=
  S.run fun invoke => p.extractor S .memoized invoke

end Setting

end ShaclExtract
