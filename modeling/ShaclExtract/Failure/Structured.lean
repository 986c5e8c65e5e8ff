import ShaclExtract.Failure.Basic

/-!
# ShaclExtract.Failure.Structured

The structured form of a failure, as the command line reports it: the name of the kind, and in
braces the name and value of each field. Texts are quoted, an absent bound is `None`, a present one
`Some(n)`, and the failure inside a field is written the same way.
-/

namespace ShaclExtract
namespace Failure

/-- Named values in braces behind the name of a kind; without values only the name. -/
def record (kind : String) (fields : List (String × String)) : String :=
  match fields with
  | [] => kind
  | _ =>
    kind ++ " \x7b " ++ ", ".intercalate (fields.map fun f => f.1 ++ ": " ++ f.2) ++ " \x7d"

def optionalBound : Option Nat → String
  | none => "None"
  | some n => s!"Some({n})"

def structured : Failure → String
  | .cardinalityViolation shapeType name min max found =>
    record "CardinalityViolation"
      [("shape_type", Text.quoted shapeType), ("field", Text.quoted name), ("min", toString min),
        ("max", optionalBound max), ("found", toString found)]
  | .requiredValueMissing found => record "RequiredValueMissing" [("found", toString found)]
  | .unknownShapeReference cls => record "UnknownShapeReference" [("class", Text.quoted cls)]
  | .typeMismatch subject => record "TypeMismatch" [("subject", Text.quoted subject)]
  | .noApplicableShape type => record "NoApplicableShape" [("ty", Text.quoted type)]
  | .environmentVariableMissing key =>
    record "EnvironmentVariableMissing" [("key", Text.quoted key)]
  | .malformedList node reason =>
    record "MalformedList" [("node", Text.quoted node), ("reason", Text.quoted reason)]
  | .invalidPath node => record "InvalidPath" [("node", Text.quoted node)]
  | .invalidLiteral value datatype =>
    record "InvalidLiteral" [("value", Text.quoted value), ("datatype", Text.quoted datatype)]
  | .malformedShape shape reason =>
    record "MalformedShape" [("shape", Text.quoted shape), ("reason", Text.quoted reason)]
  | .noAlternative => record "NoAlternative" []
  | .field shapeId shapeType name focus source =>
    record "Field"
      [("shape_id", Text.quoted shapeId), ("shape_type", Text.quoted shapeType),
        ("field", Text.quoted name), ("focus", Text.quoted focus), ("source", source.structured)]
  | .load path reason =>
    record "Load" [("path", Text.quoted path), ("reason", Text.quoted reason)]

end Failure
end ShaclExtract
