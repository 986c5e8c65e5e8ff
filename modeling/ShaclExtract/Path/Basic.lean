import ShaclExtract.Rdf.Term

/-!
# ShaclExtract.Path.Basic

Property paths, and the converse of a path. The converse of a sequence is the reversed sequence
of the converses; the converse of an inverse is the path that it inverts.
-/

namespace ShaclExtract

inductive Path where
  | predicate (iri : Iri)
  | inverse (path : Path)
  | sequence (paths : List Path)
  | alternative (paths : List Path)
  | zeroOrMore (path : Path)
  | oneOrMore (path : Path)
  | zeroOrOne (path : Path)
deriving Repr

namespace Path

/-! ## equality -/

mutual

def same : Path → Path → Bool
  | .predicate i, .predicate j => i = j
  | .inverse p, .inverse q => same p q
  | .sequence ps, .sequence qs => sameAll ps qs
  | .alternative ps, .alternative qs => sameAll ps qs
  | .zeroOrMore p, .zeroOrMore q => same p q
  | .oneOrMore p, .oneOrMore q => same p q
  | .zeroOrOne p, .zeroOrOne q => same p q
  | _, _ => false

def sameAll : List Path → List Path → Bool
  | [], [] => true
  | p :: ps, q :: qs => same p q && sameAll ps qs
  | _, _ => false

end

mutual

theorem same_iff_eq : ∀ p q : Path, same p q = true ↔ p = q
  | .predicate i, q => by cases q <;> simp [same]
  | .inverse p, q => by cases q <;> simp [same, same_iff_eq p]
  | .sequence ps, q => by cases q <;> simp [same, sameAll_iff_eq ps]
  | .alternative ps, q => by cases q <;> simp [same, sameAll_iff_eq ps]
  | .zeroOrMore p, q => by cases q <;> simp [same, same_iff_eq p]
  | .oneOrMore p, q => by cases q <;> simp [same, same_iff_eq p]
  | .zeroOrOne p, q => by cases q <;> simp [same, same_iff_eq p]

theorem sameAll_iff_eq : ∀ ps qs : List Path, sameAll ps qs = true ↔ ps = qs
  | [], qs => by cases qs <;> simp [sameAll]
  | p :: ps, qs => by cases qs <;> simp [sameAll, same_iff_eq p, sameAll_iff_eq ps]

end

instance : DecidableEq Path := fun p q => decidable_of_iff _ (same_iff_eq p q)

/-! ## running backwards -/

mutual

def converse : Path → Path
  | .predicate i => .inverse (.predicate i)
  | .inverse p => p
  | .sequence ps => .sequence (converses ps).reverse
  | .alternative ps => .alternative (converses ps)
  | .zeroOrMore p => .zeroOrMore (converse p)
  | .oneOrMore p => .oneOrMore (converse p)
  | .zeroOrOne p => .zeroOrOne (converse p)

def converses : List Path → List Path
  | [] => []
  | p :: ps => converse p :: converses ps

end

theorem converses_eq_map : ∀ ps : List Path, converses ps = ps.map converse
  | [] => rfl
  | p :: ps => by simp [converses, converses_eq_map ps]

end Path
end ShaclExtract
