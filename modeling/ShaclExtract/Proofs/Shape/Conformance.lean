import Mathlib.Order.FixedPoints
import Mathlib.Order.CompletePartialOrder
import ShaclExtract.Schema

/-!
# ShaclExtract.Proofs.Shape.Conformance

Conformance to shapes, by itself and without extraction. Which pairs of a class and a node conform
depends on which pairs do: a property that is read as a class accepts the hops that conform to the
class. `Schema.conformance` takes one step of this dependency, and it is monotone, so it has a
greatest fixpoint; there, nodes that refer to each other in a cycle conform unless something else is
wrong with them.
-/

namespace ShaclExtract

abbrev Pairs := Set (Iri × Term)

/-- A node that a property reaches can be read. -/
def ValueType.Accepts (env : Environment) (g : Graph) (S : Pairs) : ValueType → Term → Prop
  | .ofClass cls, node => (cls, node) ∈ S
  | .datatype d, node => ∃ v, Datatype.extract env d ⟨node, g⟩ = .ok v

namespace Property

/-- A property has this many hops: one if it may have only one, else any number in its bounds. -/
def Counts (f : Property) (found : Nat) : Prop :=
  match f.maxCount with
  | none => f.minCount ≤ found
  | some m => if m < 2 then found = 1 else f.minCount ≤ found ∧ found ≤ m

/-- The walk ends with the right number of hops, and all of them are accepted. -/
def Satisfied (f : Property) (env : Environment) (g : Graph) (S : Pairs) (node : Term) : Prop :=
  ∃ hops, f.path.walk g node = .ok hops ∧ f.Counts hops.length ∧
    ∀ hop ∈ hops, f.type.Accepts env g S hop

theorem satisfied_of_walk {f : Property} {env : Environment} {g : Graph} {node : Term}
    {hops : List Term} (h : f.path.walk g node = .ok hops) (S : Pairs) :
    f.Satisfied env g S node ↔
      f.Counts hops.length ∧ ∀ hop ∈ hops, f.type.Accepts env g S hop := by
  constructor
  · rintro ⟨hops', hok, hcount, hall⟩
    rw [h] at hok
    cases hok
    exact ⟨hcount, hall⟩
  · rintro ⟨hcount, hall⟩
    exact ⟨hops, h, hcount, hall⟩

theorem not_satisfied_of_walk {f : Property} {env : Environment} {g : Graph} {node : Term}
    {e : Failure} (h : f.path.walk g node = .error e) (S : Pairs) :
    ¬ f.Satisfied env g S node := by
  rintro ⟨hops, hok, _⟩
  rw [h] at hok
  cases hok

theorem counts_of_isList {f : Property} (h : f.isList = true) (found : Nat) :
    f.Counts found ↔ f.admits found = true := by
  unfold isList at h
  unfold Counts admits
  cases hm : f.maxCount with
  | none => simp
  | some m =>
    simp only [hm, decide_eq_true_eq] at h
    simp [Nat.not_lt.2 h]

theorem counts_of_not_isList {f : Property} (h : f.isList = false) (found : Nat) :
    f.Counts found ↔ found = 1 := by
  unfold isList at h
  unfold Counts
  cases hm : f.maxCount with
  | none => simp [hm] at h
  | some m =>
    simp only [hm, decide_eq_false_iff_not, Nat.not_le] at h
    simp [h]

end Property

/-- All mandatory properties of the shape are satisfied. -/
def Shape.Conforms (sh : Shape) (env : Environment) (g : Graph) (S : Pairs) (node : Term) : Prop :=
  ∀ f ∈ sh.properties, 1 ≤ f.minCount → f.Satisfied env g S node

/-! ## more pairs, more conformance -/

variable {env : Environment} {g : Graph} {S T : Pairs} {node : Term}

theorem ValueType.Accepts.mono {t : ValueType} (h : t.Accepts env g S node) (hST : S ⊆ T) :
    t.Accepts env g T node := by
  cases t with
  | ofClass cls => exact hST h
  | datatype d => exact h

theorem Property.Satisfied.mono {f : Property} (h : f.Satisfied env g S node) (hST : S ⊆ T) :
    f.Satisfied env g T node := by
  obtain ⟨hops, hwalk, hcount, hall⟩ := h
  exact ⟨hops, hwalk, hcount, fun hop hmem => (hall hop hmem).mono hST⟩

theorem Shape.Conforms.mono {sh : Shape} (h : sh.Conforms env g S node) (hST : S ⊆ T) :
    sh.Conforms env g T node := fun f hf hmin => (h f hf hmin).mono hST

/-- The pairs that conform if the given pairs do: some shape of the class is conformed to. -/
def Schema.conformance (schema : Schema) (g : Graph) : Pairs →o Pairs where
  toFun S := {p | ∃ sh ∈ schema.shapes, sh.target = p.1 ∧
    sh.Conforms schema.setting.environment g S p.2}
  monotone' := by
    rintro S T hST p ⟨sh, hsh, htarget, hconf⟩
    exact ⟨sh, hsh, htarget, hconf.mono hST⟩

theorem Schema.mem_conformance {schema : Schema} {p : Iri × Term} :
    p ∈ schema.conformance g S ↔ ∃ sh ∈ schema.shapes, sh.target = p.1 ∧
      sh.Conforms schema.setting.environment g S p.2 := Iff.rfl

end ShaclExtract
