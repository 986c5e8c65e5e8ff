import ShaclExtract.Failure.Basic
import ShaclExtract.Shape.Basic
import ShaclExtract.Value.Basic

/-!
# ShaclExtract.Program

Programs: what can be registered for a class. Shapes are programs, and so are the built-in classes;
a program of one's own is put together from the other constructors.
-/

namespace ShaclExtract

/-- The nodes of a path that are taken: the only one, all, or those that do not fail. -/
inductive Hops where
  | one
  | all
  | some
deriving DecidableEq, Repr

inductive Program where
  | focus
  | const (value : Value)
  | fail (e : Failure)
  /-- Adds one to a counter and gives its new value. -/
  | tick (counter : String)
  | description
  /-- The focus and all visible quads, as a record. -/
  | context
  | path
  /-- The value by the asserted types of the focus, or null if there are none. -/
  | typed
  /-- The merged values of the classes that apply to the asserted types of the focus. -/
  | dispatch
  | shape (shape : Shape)
  /-- The list of the values of all parts, none of which may fail. -/
  | all (parts : List Program)
  | firstOf (parts : List Program)
  /-- Runs a part on nodes that a path reaches. -/
  | along (path : Path) (hops : Hops) (part : Program)
  /-- Runs a part once for each node and shares the result. -/
  | shared (number : Nat) (part : Program)
  /-- Runs a procedure once for each node and shares the result. -/
  | call (procedure : String)
  /-- The value at the end of the references of a part's value. -/
  | resolved (part : Program)

end ShaclExtract
