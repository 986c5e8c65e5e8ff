import ShaclExtract.Proofs.Path.Bounds
import ShaclExtract.Proofs.Rdf.Description

/-!
# ShaclExtract.Proofs.Path.Forward

Paths that are only followed forwards. A walk from a node that can be reached from the focus leads
to nodes that can be reached, and consults nothing but the quads that start at such nodes. So it
leads to the same nodes, in the same order, in any graph where these nodes have the same outgoing
quads (`Path.follow_forward`).

One such graph is the description of the focus, if every IRI it refers to, other than the focus, has
no outgoing quad (`Graph.Bounded.sameFrom_description`).
-/

namespace ShaclExtract

namespace Graph

/-- The nodes that are reached from the focus by following quads from subject to object. -/
inductive Reach (g : Graph) (focus : Term) : Term → Prop where
  | focus : Reach g focus focus
  | object {q : Quad} : q ∈ g → Reach g focus q.subject.toTerm → Reach g focus q.object

/-- Whatever is reached from the focus has the same outgoing quads in both graphs. -/
def SameFrom (g : Graph) (focus : Term) (g' : Graph) : Prop :=
  ∀ n, g.Reach focus n → g'.outgoing n = g.outgoing n

/-- An object of a quad that starts at a node that is reached. -/
def Met (g : Graph) (focus n : Term) : Prop :=
  ∃ q ∈ g, g.Reach focus q.subject.toTerm ∧ q.object = n

variable {g g' : Graph} {focus n : Term}

theorem Met.reach (h : g.Met focus n) : g.Reach focus n := by
  obtain ⟨q, hq, hreach, rfl⟩ := h
  exact .object hq hreach

theorem Met.mem_terms (h : g.Met focus n) : n ∈ g.terms := by
  obtain ⟨q, hq, _, rfl⟩ := h
  exact object_mem_terms hq

theorem met_of_mem_objects (hn : g.Reach focus n) {p : Iri} {o : Term} (h : o ∈ g.objects n p) :
    g.Met focus o := by
  obtain ⟨q, hq, rfl, _, rfl⟩ := mem_objects.1 h
  exact ⟨q, hq, hn, rfl⟩

namespace SameFrom

theorem mem_iff (h : g.SameFrom focus g') {q : Quad} (hq : g.Reach focus q.subject.toTerm) :
    q ∈ g' ↔ q ∈ g := by
  have hmem : q ∈ g'.outgoing q.subject.toTerm ↔ q ∈ g.outgoing q.subject.toTerm := by
    rw [h _ hq]
  simpa only [mem_outgoing, and_true] using hmem

theorem reach_iff (h : g.SameFrom focus g') : g'.Reach focus n ↔ g.Reach focus n := by
  constructor
  · intro hn
    induction hn with
    | focus => exact .focus
    | object hq _ ih => exact .object ((h.mem_iff ih).1 hq) ih
  · intro hn
    induction hn with
    | focus => exact .focus
    | object hq hreach ih => exact .object ((h.mem_iff hreach).2 hq) ih

theorem met_iff (h : g.SameFrom focus g') : g'.Met focus n ↔ g.Met focus n := by
  simp only [Met, h.reach_iff]
  refine exists_congr fun q => ?_
  constructor
  · rintro ⟨hq, hreach, rfl⟩
    exact ⟨(h.mem_iff hreach).1 hq, hreach, rfl⟩
  · rintro ⟨hq, hreach, rfl⟩
    exact ⟨(h.mem_iff hreach).2 hq, hreach, rfl⟩

theorem objects_eq (h : g.SameFrom focus g') (hn : g.Reach focus n) (p : Iri) :
    g'.objects n p = g.objects n p := by
  rw [objects, h n hn, objects]

theorem types_eq (h : g.SameFrom focus g') (hn : g.Reach focus n) : g'.types n = g.types n :=
  h.objects_eq hn Rdf.type

end SameFrom
end Graph

/-! ## walks -/

namespace Path

mutual

/-- No predicate is followed from object to subject. -/
def Forward : Path → Prop
  | .predicate _ => True
  | .inverse _ => False
  | .sequence ps => ForwardAll ps
  | .alternative ps => ForwardAll ps
  | .zeroOrMore p => Forward p
  | .oneOrMore p => Forward p
  | .zeroOrOne p => Forward p

def ForwardAll : List Path → Prop
  | [] => True
  | p :: ps => Forward p ∧ ForwardAll ps

end

/-- Steps that are the same from all nodes that are reached, and lead to what is met or back to
where they start. -/
def Local (g : Graph) (focus : Term) (step step' : Term → Except Failure (List Term)) : Prop :=
  ∀ x, g.Reach focus x → step' x = step x ∧
    ∀ ys, step x = .ok ys → ∀ y ∈ ys, y = x ∨ g.Met focus y

variable {g g' : Graph} {focus : Term} {step step' : Term → Except Failure (List Term)}

theorem reach_of_eq_or_met {x y : Term} (hx : g.Reach focus x) (h : y = x ∨ g.Met focus y) :
    g.Reach focus y := by
  rcases h with rfl | h
  · exact hx
  · exact h.reach

theorem eq_or_met_trans {x y z : Term} (h : y = x ∨ g.Met focus y) (h' : z = y ∨ g.Met focus z) :
    z = x ∨ g.Met focus z := by
  rcases h' with rfl | h'
  · exact h
  · exact .inr h'

theorem Local.gather (h : Local g focus step step') {start : Term} (hstart : g.Reach focus start)
    {xs : List Term} (hxs : ∀ x ∈ xs, x = start ∨ g.Met focus x) :
    gather step' xs = gather step xs ∧
      ∀ ys, gather step xs = .ok ys → ∀ y ∈ ys, y = start ∨ g.Met focus y := by
  induction xs with
  | nil =>
    refine ⟨rfl, fun ys h => ?_⟩
    cases h
    simp
  | cons x xs ih =>
    have hx := hxs x List.mem_cons_self
    obtain ⟨hequal, hhops⟩ := h x (reach_of_eq_or_met hstart hx)
    obtain ⟨hrest, hrests⟩ := ih fun y hy => hxs y (List.mem_cons_of_mem _ hy)
    simp only [ShaclExtract.gather, hequal, hrest]
    refine ⟨trivial, fun ys hys => ?_⟩
    split at hys
    · cases hys
    · rename_i zs hzs
      split at hys
      · cases hys
      · rename_i ws hws
        cases hys
        intro y hy
        rcases List.mem_append.1 hy with hy | hy
        · exact eq_or_met_trans hx (hhops zs hzs y hy)
        · exact hrests ws hws y hy

section repetitions

variable (hsame : g.SameFrom focus g')
include hsame

theorem mem_terms_iff {y : Term} (h : g.Met focus y) : y ∈ g'.terms ↔ y ∈ g.terms :=
  iff_of_true (hsame.met_iff.2 h).mem_terms h.mem_terms

theorem Local.closure (h : Local g focus step step') :
    Local g focus (closure step g) (closure step' g') := by
  intro x hx
  refine Search.tryRun_congr (fun y hy => ?_) (by simp) fun y hy => ?_
  · obtain ⟨hequal, hhops⟩ := h y (reach_of_eq_or_met hx hy)
    exact ⟨hequal, fun ys hys z hz => eq_or_met_trans hy (hhops ys hys z hz)⟩
  · rcases hy with rfl | hy
    · simp
    · rw [List.mem_filter, List.mem_filter, mem_terms_iff hsame hy]

theorem Local.closureBeyond (h : Local g focus step step') :
    Local g focus (closureBeyond step g) (closureBeyond step' g') := by
  intro x hx
  obtain ⟨hequal, hhops⟩ := h x hx
  simp only [Path.closureBeyond, Search.tryReachBeyond, hequal]
  cases hnext : step x with
  | error e => exact ⟨rfl, fun ys hys => by cases hys⟩
  | ok next =>
    have hnodes : ∀ y, (y = x ∨ g.Met focus y) → (y ∈ x :: g'.terms ↔ y ∈ x :: g.terms) := by
      rintro y (rfl | hy)
      · simp
      · rw [List.mem_cons, List.mem_cons, mem_terms_iff hsame hy]
    obtain ⟨hfound, hleft⟩ := Search.discover_congr (hhops next hnext) hnodes
    dsimp only
    rw [hfound]
    refine Search.tryRun_congr (fun y hy => ?_) (fun y hy => ?_) hleft
    · by_cases hyx : y = x
      · simp only [if_pos hyx]
        refine ⟨trivial, fun ys hys => ?_⟩
        cases hys
        simp
      · simp only [if_neg hyx]
        obtain ⟨hequal, hhops⟩ := h y (reach_of_eq_or_met hx hy)
        exact ⟨hequal, fun ys hys z hz => eq_or_met_trans hy (hhops ys hys z hz)⟩
    · exact hhops next hnext y ((Search.mem_discover _ _).1 hy).1

end repetitions

theorem Local.optional (h : Local g focus step step') :
    Local g focus (optional step) (optional step') := by
  intro x hx
  obtain ⟨hequal, hhops⟩ := h x hx
  simp only [Path.optional, hequal]
  refine ⟨trivial, fun ys hys y hy => ?_⟩
  split at hys
  · rename_i hops hok
    cases hys
    rcases List.mem_cons.1 hy with rfl | hy
    · exact .inl rfl
    · exact hhops hops hok y (List.mem_filter.1 hy).1
  · cases hys

mutual

theorem follow_local (hsame : g.SameFrom focus g') : ∀ p : Path, p.Forward →
    Local g focus (follow g p .forward) (follow g' p .forward)
  | .predicate i, _ => by
    intro x hx
    simp only [follow, hsame.objects_eq hx]
    refine ⟨trivial, fun ys h y hy => ?_⟩
    cases h
    exact .inr (Graph.met_of_mem_objects hx hy)
  | .inverse p, h => h.elim
  | .sequence ps, h => by
    intro x hx
    simp only [follow]
    exact followAll_local hsame ps h hx fun y hy => .inl (List.mem_singleton.1 hy)
  | .alternative ps, h => by
    intro x hx
    simp only [follow]
    exact choose_local hsame ps h hx (by simp)
  | .zeroOrMore p, h => (follow_local hsame p h).closure hsame
  | .oneOrMore p, h => (follow_local hsame p h).closureBeyond hsame
  | .zeroOrOne p, h => (follow_local hsame p h).optional

theorem followAll_local (hsame : g.SameFrom focus g') : ∀ ps : List Path, ForwardAll ps →
    ∀ {start : Term}, g.Reach focus start → ∀ {xs : List Term},
      (∀ x ∈ xs, x = start ∨ g.Met focus x) →
        followAll g' ps .forward xs = followAll g ps .forward xs ∧
          ∀ ys, followAll g ps .forward xs = .ok ys → ∀ y ∈ ys, y = start ∨ g.Met focus y
  | [], _, start, hstart, xs, hxs => by
    refine ⟨by simp only [followAll], fun ys h => ?_⟩
    simp only [followAll] at h
    cases h
    exact hxs
  | p :: ps, h, start, hstart, xs, hxs => by
    obtain ⟨hequal, hhops⟩ := (follow_local hsame p h.1).gather hstart hxs
    simp only [followAll, hequal]
    cases hys : gather (follow g p .forward) xs with
    | error e => exact ⟨rfl, fun ys h => by cases h⟩
    | ok ys => exact followAll_local hsame ps h.2 hstart (hhops ys hys)

theorem choose_local (hsame : g.SameFrom focus g') : ∀ ps : List Path, ForwardAll ps →
    ∀ {x : Term}, g.Reach focus x → ∀ {best : Except Failure (List Term)},
      (∀ ys, best = .ok ys → ∀ y ∈ ys, y = x ∨ g.Met focus y) →
        choose g' ps .forward x best = choose g ps .forward x best ∧
          ∀ ys, choose g ps .forward x best = .ok ys → ∀ y ∈ ys, y = x ∨ g.Met focus y
  | [], _, x, hx, best, hbest => by
    simp only [choose]
    exact ⟨trivial, hbest⟩
  | p :: ps, h, x, hx, best, hbest => by
    obtain ⟨hequal, hhops⟩ := follow_local hsame p h.1 x hx
    obtain ⟨hrest, hrests⟩ := choose_local hsame ps h.2 hx (forall_of_prefer hbest hhops)
    simp only [choose, hequal]
    split
    · rename_i y ys hy
      exact ⟨rfl, fun zs hzs => hhops zs (hy.trans hzs)⟩
    · exact ⟨hrest, hrests⟩

end

/-- A walk from a node that is reached is the same in both graphs. -/
theorem walk_local (hsame : g.SameFrom focus g') {p : Path} (hp : p.Forward) {x : Term}
    (hx : g.Reach focus x) : p.walk g' x = p.walk g x :=
  (follow_local hsame p hp x hx).1

theorem reach_of_walk {p : Path} (hp : p.Forward) {x : Term} (hx : g.Reach focus x)
    {hops : List Term} (h : p.walk g x = .ok hops) : ∀ y ∈ hops, g.Reach focus y :=
  fun y hy => reach_of_eq_or_met hx ((follow_local (fun _ _ => rfl) p hp x hx).2 hops h y hy)

end Path

/-! ## descriptions -/

namespace Graph

variable {g g' : Graph} {focus n m : Term}

theorem Covered.reach (hn : g.Reach focus n) (h : g.Covered n m) : g.Reach focus m := by
  induction h with
  | focus => exact hn
  | object hq _ _ ih => exact .object hq ih

theorem SameFrom.description_eq (h : g.SameFrom focus g') (hn : g.Reach focus n) :
    g'.description n = g.description n :=
  description_congr fun m hm => h m (Covered.reach hn (mem_described.1 hm))

/-- No IRI that the description refers to leads on, except for the focus. -/
def Bounded (g : Graph) (focus : Term) : Prop :=
  ∀ q ∈ g.description focus, ∀ i, q.object = .iri i → q.object ≠ focus →
    g.outgoing q.object = []

theorem Bounded.covered_or (h : g.Bounded focus) (hn : g.Reach focus n) :
    g.Covered focus n ∨ g.outgoing n = [] := by
  induction hn with
  | focus => exact .inl .focus
  | @object q hq _ ih =>
    have hout : q ∈ g.outgoing q.subject.toTerm := mem_outgoing.2 ⟨hq, rfl⟩
    rcases ih with hsubject | hnone
    · have hdescription : q ∈ g.description focus :=
        List.mem_flatMap.2 ⟨_, mem_described.2 hsubject, hout⟩
      by_cases hfocus : q.object = focus
      · exact .inl (hfocus ▸ .focus)
      · cases ho : q.object with
        | iri i => exact .inr (ho ▸ h q hdescription i ho hfocus)
        | blank b =>
          have hblank : q.object.isBlank = true := by rw [ho]; rfl
          exact .inl (ho ▸ .object hq hsubject hblank)
        | literal l => exact .inr (outgoing_literal g l)
    · rw [hnone] at hout
      cases hout

theorem Bounded.sameFrom_description (h : g.Bounded focus) :
    g.SameFrom focus (g.description focus) := by
  intro n hn
  rw [outgoing_description]
  split
  · rfl
  · rename_i hnot
    exact ((h.covered_or hn).resolve_left (mt mem_described.2 hnot)).symm

end Graph
end ShaclExtract
