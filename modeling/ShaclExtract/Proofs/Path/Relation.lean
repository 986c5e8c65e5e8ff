import ShaclExtract.Proofs.Path.Converse
import ShaclExtract.Proofs.Rdf.Description

/-!
# ShaclExtract.Proofs.Path.Relation

Paths as relations between nodes. `Path.Relates` is what a path means in SPARQL, without an order
and without counting: a sequence composes relations, an alternative unites them and a repetition is
a closure. A walk along a path without a choice always succeeds, and its hops are the nodes that the
path relates to the start (`Path.Unbranched.walk_relates`).

The relation grows with the graph, so no hop is lost when quads are added (`Path.walk_enlarged`). A
choice may lose hops: a new quad can give hops to a branch before the one that was taken.
-/

namespace ShaclExtract

open Relation
open Search (answered)

def Direction.along (R : Term → Term → Prop) : Direction → Term → Term → Prop
  | .forward, x, y => R x y
  | .backward, x, y => R y x

namespace Path

/-! ## the relation of a path -/

mutual

/-- The path leads from `x` to `y`. -/
def Relates (g : Graph) : Path → Term → Term → Prop
  | .predicate i, x, y => ∃ q ∈ g, q.subject.toTerm = x ∧ q.predicate = i ∧ q.object = y
  | .inverse p, x, y => Relates g p y x
  | .sequence ps, x, y => RelatesThrough g ps x y
  | .alternative ps, x, y => RelatesEither g ps x y
  | .zeroOrMore p, x, y => ReflTransGen (Relates g p) x y
  | .oneOrMore p, x, y => TransGen (Relates g p) x y
  | .zeroOrOne p, x, y => y = x ∨ Relates g p x y

def RelatesThrough (g : Graph) : List Path → Term → Term → Prop
  | [], x, y => x = y
  | p :: ps, x, y => ∃ z, Relates g p x z ∧ RelatesThrough g ps z y

def RelatesEither (g : Graph) : List Path → Term → Term → Prop
  | [], _, _ => False
  | p :: ps, x, y => Relates g p x y ∨ RelatesEither g ps x y

end

section growth

variable {g g' : Graph}

mutual

theorem relates_mono (h : g ⊆ g') : ∀ (p : Path) (x y : Term), Relates g p x y → Relates g' p x y
  | .predicate i, _, _, hxy => by
    obtain ⟨q, hq, hxy⟩ := hxy
    exact ⟨q, h hq, hxy⟩
  | .inverse p, x, y, hxy => relates_mono h p y x hxy
  | .sequence ps, x, y, hxy => relatesThrough_mono h ps x y hxy
  | .alternative ps, x, y, hxy => relatesEither_mono h ps x y hxy
  | .zeroOrMore p, x, y, hxy => ReflTransGen.mono (relates_mono h p) x y hxy
  | .oneOrMore p, x, y, hxy => TransGen.mono (relates_mono h p) x y hxy
  | .zeroOrOne p, x, y, hxy => hxy.imp id (relates_mono h p x y)

theorem relatesThrough_mono (h : g ⊆ g') : ∀ (ps : List Path) (x y : Term),
    RelatesThrough g ps x y → RelatesThrough g' ps x y
  | [], _, _, hxy => hxy
  | p :: ps, x, y, hxy => by
    obtain ⟨z, hxz, hzy⟩ := hxy
    exact ⟨z, relates_mono h p x z hxz, relatesThrough_mono h ps z y hzy⟩

theorem relatesEither_mono (h : g ⊆ g') : ∀ (ps : List Path) (x y : Term),
    RelatesEither g ps x y → RelatesEither g' ps x y
  | [], _, _, hxy => hxy
  | p :: ps, x, y, hxy => hxy.imp (relates_mono h p x y) (relatesEither_mono h ps x y)

end

end growth

/-! ## walks list what is related -/

section walks

variable {g g' : Graph} {p : Path}

theorem Turns.mem_along {step : Direction → Term → Except Failure (List Term)}
    {R : Term → Term → Prop} (h : Turns step)
    (hR : ∀ x y, y ∈ answered (step .forward x) ↔ R x y) (d : Direction) (x y : Term) :
    y ∈ answered (step d x) ↔ d.along R x y := by
  cases d with
  | forward => exact hR x y
  | backward =>
    obtain ⟨hops, hstep, hT⟩ := h
    have hback : x ∈ answered (step .forward y) ↔ y ∈ answered (step .backward x) := by
      rw [hstep, hstep]
      exact hT.mem
    rw [← hback, hR]
    exact Iff.rfl

theorem mem_followAll {ps : List Path} (hps : ∀ p ∈ ps, Turns (follow g p))
    (hR : ∀ p ∈ ps, ∀ x y, y ∈ answered (follow g p .forward x) ↔ Relates g p x y)
    (xs : List Term) (y : Term) :
    y ∈ answered (followAll g ps .forward xs) ↔ ∃ x ∈ xs, RelatesThrough g ps x y := by
  induction ps generalizing xs with
  | nil => simp [followAll, answered, RelatesThrough]
  | cons p ps ih =>
    obtain ⟨hops, hstep, -⟩ := hps p List.mem_cons_self
    have hp : ∀ x z, z ∈ hops .forward x ↔ Relates g p x z := by
      intro x z
      rw [← hR p List.mem_cons_self, hstep]
      rfl
    have hrest := ih (fun q hq => hps q (.tail _ hq)) fun q hq => hR q (.tail _ hq)
    simp only [followAll, gather_eq_ok (hstep .forward), hrest, List.mem_flatMap, hp,
      RelatesThrough]
    constructor
    · rintro ⟨z, ⟨x, hx, hxz⟩, hzy⟩
      exact ⟨x, hx, z, hxz, hzy⟩
    · rintro ⟨x, hx, z, hxz, hzy⟩
      exact ⟨z, ⟨x, hx, hxz⟩, hzy⟩

/-- The hops of a path without a choice are the nodes that the path relates to the start. -/
theorem Unbranched.mem_follow (hp : p.Unbranched) (g : Graph) : ∀ (d : Direction) (x y : Term),
    y ∈ answered (follow g p d x) ↔ d.along (Relates g p) x y := by
  -- what one step of the path relates, where the path may be walked from everywhere
  have hop : ∀ {p : Path} {hops : Direction → Term → List Term},
      (∀ d x, follow g p d x = .ok (hops d x)) →
      (∀ d x y, y ∈ answered (follow g p d x) ↔ d.along (Relates g p) x y) →
      Hop (hops .forward) = Relates g p := by
    intro p hops hstep ih
    funext a b
    have hab := ih .forward a b
    rw [hstep] at hab
    exact propext hab
  induction hp with
  | predicate i =>
    exact ((Unbranched.predicate i).turns g).mem_along fun x y => Graph.mem_objects
  | @inverse p hp ih =>
    exact (hp.inverse.turns g).mem_along fun x y => ih .backward x y
  | @sequence ps hps ih =>
    refine ((Unbranched.sequence hps).turns g).mem_along fun x y => ?_
    have hall : y ∈ answered (follow g (.sequence ps) .forward x) ↔ _ :=
      mem_followAll (fun p hp => (hps p hp).turns g) (fun p hp => ih p hp .forward) [x] y
    rw [hall, Relates]
    simp only [List.mem_singleton, exists_eq_left]
  | @alternative p hp ih =>
    refine (hp.alternative.turns g).mem_along fun x y => ?_
    obtain ⟨hops, hstep, -⟩ := hp.turns g
    have hchoose : follow g (.alternative [p]) .forward x = follow g p .forward x := by
      rw [follow, choose_single (hstep .forward x), hstep]
    rw [hchoose, ih .forward]
    exact (or_iff_left id).symm
  | @zeroOrMore p hp ih =>
    refine (hp.zeroOrMore.turns g).mem_along fun x y => ?_
    obtain ⟨hops, hstep, -⟩ := hp.turns g
    obtain ⟨ys, hys, -, hmem⟩ := closure_spec (hstep .forward)
      (fun a b hb => follow_within g p .forward a _ (hstep .forward a) b hb) x
    rw [follow, hys, Relates, ← hop hstep ih]
    exact hmem y
  | @oneOrMore p hp ih =>
    refine (hp.oneOrMore.turns g).mem_along fun x y => ?_
    obtain ⟨hops, hstep, -⟩ := hp.turns g
    obtain ⟨ys, hys, -, hmem⟩ := closureBeyond_spec (hstep .forward)
      (fun a b hb => follow_within g p .forward a _ (hstep .forward a) b hb) x
    rw [follow, hys, Relates, ← hop hstep ih]
    exact hmem y
  | @zeroOrOne p hp ih =>
    refine (hp.zeroOrOne.turns g).mem_along fun x y => ?_
    obtain ⟨hops, hstep, -⟩ := hp.turns g
    rw [follow, optional, hstep, Relates, ← hop hstep ih]
    by_cases hyx : y = x <;> simp [answered, Hop, hyx]

/-- A walk along a path without a choice succeeds, and lists what is related to its start. -/
theorem Unbranched.walk_relates (hp : p.Unbranched) (g : Graph) (x : Term) :
    ∃ hops, p.walk g x = .ok hops ∧ ∀ y, y ∈ hops ↔ Relates g p x y := by
  obtain ⟨hops, hstep, -⟩ := hp.turns g
  have hwalk : p.walk g x = .ok (hops .forward x) := hstep .forward x
  refine ⟨hops .forward x, hwalk, fun y => ?_⟩
  have hmem := hp.mem_follow g .forward x y
  rw [hstep] at hmem
  exact hmem

/-! ## more quads -/

theorem Unbranched.walk_subset (hp : p.Unbranched) (h : g ⊆ g') (x : Term) :
    ∃ hops hops', p.walk g x = .ok hops ∧ p.walk g' x = .ok hops' ∧ hops ⊆ hops' := by
  obtain ⟨hops, hwalk, hmem⟩ := hp.walk_relates g x
  obtain ⟨hops', hwalk', hmem'⟩ := hp.walk_relates g' x
  exact ⟨hops, hops', hwalk, hwalk', fun y hy =>
    (hmem' y).2 (relates_mono h p x y ((hmem y).1 hy))⟩

end walks

/-- A walk along a path without a choice succeeds in every graph, and no hop of it is lost when
quads are added. So a walk in a description leads to no node but those to which it leads in the
graph that is described. -/
theorem walk_enlarged {p : Path} (hp : p.Unbranched) (x : Term) :
    (∀ g g' : Graph, g ⊆ g' →
      ∃ hops hops', p.walk g x = .ok hops ∧ p.walk g' x = .ok hops' ∧ hops ⊆ hops') ∧
    ∀ (g : Graph) (focus : Term), ∃ hops hops', p.walk (View.bounded focus g).graph x = .ok hops ∧
      p.walk g x = .ok hops' ∧ hops ⊆ hops' :=
  ⟨fun _ _ h => hp.walk_subset h x,
    fun g focus => hp.walk_subset (g.description_subset focus) x⟩

def twoLinks : Graph :=
  [⟨.iri ⟨"b"⟩, ⟨"next"⟩, .blank "c", none⟩, ⟨.iri ⟨"a"⟩, ⟨"next"⟩, .iri ⟨"b"⟩, none⟩]

def onward : Path := oneOrMore (.predicate ⟨"next"⟩)

/-- The description of the first node has the first link only, and one hop where the graph has
two. -/
theorem walk_enlarged_twoLinks :
    onward.Unbranched ∧ twoLinks.drop 1 ⊆ twoLinks ∧
    (∃ hops hops', onward.walk (twoLinks.drop 1) (.iri ⟨"a"⟩) = .ok hops ∧
      onward.walk twoLinks (.iri ⟨"a"⟩) = .ok hops' ∧ hops ⊆ hops') ∧
    (∃ hops hops', onward.walk (View.bounded (.iri ⟨"a"⟩) twoLinks).graph (.iri ⟨"a"⟩) = .ok hops ∧
      onward.walk twoLinks (.iri ⟨"a"⟩) = .ok hops' ∧ hops ⊆ hops') ∧
    onward.walk (View.bounded (.iri ⟨"a"⟩) twoLinks).graph (.iri ⟨"a"⟩) = .ok [.iri ⟨"b"⟩] ∧
    onward.walk twoLinks (.iri ⟨"a"⟩) = .ok [.iri ⟨"b"⟩, .blank "c"] := by
  have hp : onward.Unbranched := .oneOrMore (.predicate _)
  have hdrop : twoLinks.drop 1 ⊆ twoLinks := List.drop_subset 1 twoLinks
  obtain ⟨hmore, hbounded⟩ := walk_enlarged hp (.iri ⟨"a"⟩)
  exact ⟨hp, hdrop, hmore _ _ hdrop, hbounded twoLinks (.iri ⟨"a"⟩), by decide +kernel,
    by decide +kernel⟩

/-- With a choice the hop is lost when there is a quad for a branch before. -/
example :
    walk [⟨.iri ⟨"a"⟩, ⟨"next"⟩, .iri ⟨"b"⟩, none⟩]
      (.alternative [.predicate ⟨"last"⟩, .predicate ⟨"next"⟩]) (.iri ⟨"a"⟩) =
        .ok [.iri ⟨"b"⟩] ∧
    walk [⟨.iri ⟨"a"⟩, ⟨"next"⟩, .iri ⟨"b"⟩, none⟩, ⟨.iri ⟨"a"⟩, ⟨"last"⟩, .iri ⟨"c"⟩, none⟩]
      (.alternative [.predicate ⟨"last"⟩, .predicate ⟨"next"⟩]) (.iri ⟨"a"⟩) =
        .ok [.iri ⟨"c"⟩] := ⟨by rfl, by rfl⟩

end Path
end ShaclExtract
