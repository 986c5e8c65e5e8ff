import ShaclExtract.Text.Quoted

/-!
# ShaclExtract.Failure.Basic

Every way in which reading shapes and extracting values can fail, with the text of each failure.
Failures are ordinary values: alternatives and optional fields absorb them, everything else hands
them on. A failure inside a field is wrapped with the place where it happened.

Nodes are named by the written form of their terms, classes and datatypes by their IRIs.
-/

namespace ShaclExtract

inductive Failure where
  /-- A list of values is shorter or longer than its field allows; no upper bound is unbounded. -/
  | cardinalityViolation (shapeType name : String) (min : Nat) (max : Option Nat) (found : Nat)
  | requiredValueMissing (found : Nat)
  | unknownShapeReference (cls : String)
  | typeMismatch (subject : String)
  | noApplicableShape (type : String)
  | environmentVariableMissing (key : String)
  | malformedList (node reason : String)
  | invalidPath (node : String)
  | invalidLiteral (value datatype : String)
  | malformedShape (shape reason : String)
  | noAlternative
  | field (shapeId shapeType name focus : String) (source : Failure)
  | load (path reason : String)
deriving DecidableEq, Repr

namespace Failure

def kind : Failure → String
  | .cardinalityViolation .. => "CardinalityViolation"
  | .requiredValueMissing .. => "RequiredValueMissing"
  | .unknownShapeReference .. => "UnknownShapeReference"
  | .typeMismatch .. => "TypeMismatch"
  | .noApplicableShape .. => "NoApplicableShape"
  | .environmentVariableMissing .. => "EnvironmentVariableMissing"
  | .malformedList .. => "MalformedList"
  | .invalidPath .. => "InvalidPath"
  | .invalidLiteral .. => "InvalidLiteral"
  | .malformedShape .. => "MalformedShape"
  | .noAlternative => "NoAlternative"
  | .field .. => "Field"
  | .load .. => "Load"

/-- The bound that was missed: the upper one if there were too many values, else the lower one. -/
def bound (min : Nat) (max : Option Nat) (found : Nat) : String :=
  match max with
  | some m => if m < found then s!"at most {m}" else s!"at least {min}"
  | none => s!"at least {min}"

def message : Failure → String
  | .cardinalityViolation shapeType name min max found =>
    shapeType ++ "." ++ name ++ ": expected " ++ bound min max found ++ s!", found {found}"
  | .requiredValueMissing found => s!"expected exactly one value, found {found}"
  | .unknownShapeReference cls => "no shape registered for class <" ++ cls ++ ">"
  | .typeMismatch subject => subject ++ " is not a sh:NodeShape"
  | .noApplicableShape type =>
    "no shape applies to type <" ++ type ++ "> or any of its superclasses"
  | .environmentVariableMissing key =>
    "environment variable " ++ key ++ " is not set and has no default"
  | .malformedList node reason => "malformed RDF list at " ++ node ++ ": " ++ reason
  | .invalidPath node => "invalid property path " ++ node
  | .invalidLiteral value datatype =>
    "cannot read " ++ Text.quoted value ++ " as <" ++ datatype ++ ">"
  | .malformedShape shape reason => "malformed shape " ++ shape ++ ": " ++ reason
  | .noAlternative => "no alternatives to try"
  | .field shapeId shapeType name focus source =>
    "shape " ++ shapeId ++ " (" ++ shapeType ++ "), field " ++ Text.quoted name ++ ", focus " ++
      focus ++ ": " ++ source.message
  | .load path reason => "failed to load " ++ path ++ ": " ++ reason

/-- The failure under all the places it was wrapped with. -/
def root : Failure → Failure
  | .field _ _ _ _ source => source.root
  | e => e

def isField : Failure → Bool
  | .field .. => true
  | _ => false

end Failure

end ShaclExtract
