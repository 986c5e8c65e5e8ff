import ShaclExtract.Datatype
import ShaclExtract.Memo
import ShaclExtract.Registry
import ShaclExtract.Subclasses

/-!
# ShaclExtract.Setting

What programs are run with: the registry that classes are looked up in, the subclass links and class
transforms, the environment, and the procedures that programs may call.
-/

namespace ShaclExtract

abbrev Transform := Value → Except Failure Value

structure Setting where
  registry : Registry
  subclasses : Subclasses
  transforms : Table Iri Transform
  environment : Environment
  procedures : Table String Program

namespace Setting

def program? (S : Setting) : Routine → Option Program
  | .ofClass cls => S.registry.program? cls
  | .procedure name => S.procedures.get? name
  | .dispatch => some .dispatch

def assertedTypes (view : View) : List Iri := view.types.filterMap Term.iri?

/-- The registered classes on the chains of the asserted types, each at its first occurrence. -/
def applicable (S : Setting) (view : View) : List Iri :=
  (((assertedTypes view).flatMap S.subclasses.chain).filter S.registry.contains).eraseDups

end Setting

end ShaclExtract
