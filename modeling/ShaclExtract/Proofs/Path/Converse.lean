import Mathlib.Algebra.BigOperators.Group.Finset.Basic
import ShaclExtract.Proofs.Path.Bounds

/-!
# ShaclExtract.Proofs.Path.Converse

Walking the converse of a path is walking the path backwards (`follow_converse`), and the backward
walk has the hops of the forward walk, each as often: `y` occurs among the hops from `x` as many
times as `x` among the hops back from `y` (`Unbranched.turns`, `count_walk_converse`).

The path may not choose between branches: from the two ends of a hop the first branch that leads
anywhere need not be the same. An alternative without branches never succeeds.
-/

namespace ShaclExtract
namespace Path

/-! ## the direction turned around -/

theorem gather_singleton (step : Term → Except Failure (List Term)) (x : Term) :
    gather step [x] = step x := by
  rw [gather]
  cases step x with
  | error e => rfl
  | ok ys => exact congrArg Except.ok (List.append_nil ys)

theorem followAll_cons_forward (g : Graph) (p : Path) (ps : List Path) (xs : List Term) :
    followAll g (p :: ps) .forward xs =
      (gather (follow g p .forward) xs).bind (followAll g ps .forward) := by
  rw [followAll]
  cases gather (follow g p .forward) xs <;> rfl

theorem followAll_cons_backward (g : Graph) (p : Path) (ps : List Path) (xs : List Term) :
    followAll g (p :: ps) .backward xs =
      (followAll g ps .backward xs).bind (gather (follow g p .backward)) := by
  rw [followAll]
  cases followAll g ps .backward xs <;> rfl

theorem followAll_append_forward (g : Graph) (ps qs : List Path) (xs : List Term) :
    followAll g (ps ++ qs) .forward xs =
      (followAll g ps .forward xs).bind (followAll g qs .forward) := by
  induction ps generalizing xs with
  | nil => simp [followAll, Except.bind]
  | cons p ps ih =>
    rw [List.cons_append, followAll_cons_forward, followAll_cons_forward]
    cases gather (follow g p .forward) xs with
    | error e => rfl
    | ok ys => exact ih ys

theorem followAll_append_backward (g : Graph) (ps qs : List Path) (xs : List Term) :
    followAll g (ps ++ qs) .backward xs =
      (followAll g qs .backward xs).bind (followAll g ps .backward) := by
  induction ps generalizing xs with
  | nil => cases h : followAll g qs .backward xs <;> simp [followAll, Except.bind, h]
  | cons p ps ih =>
    rw [List.cons_append, followAll_cons_backward, ih]
    cases followAll g qs .backward xs with
    | error e => rfl
    | ok ys => exact (followAll_cons_backward g p ps ys).symm

theorem followAll_single (g : Graph) (p : Path) (d : Direction) (xs : List Term) :
    followAll g [p] d xs = gather (follow g p d) xs := by
  cases d with
  | forward =>
    rw [followAll_cons_forward]
    cases gather (follow g p .forward) xs <;> rfl
  | backward => simp only [followAll]

mutual

/-- The converse walked in one direction is the path walked in the other one. -/
theorem follow_converse (g : Graph) : ∀ (p : Path) (d : Direction) (x : Term),
    follow g (converse p) d x = follow g p d.flip x
  | .predicate i, d, x => by simp only [converse, follow]
  | .inverse p, d, x => by cases d <;> rfl
  | .sequence ps, d, x => followAll_converses g ps d [x]
  | .alternative ps, d, x => choose_converses g ps d x (.error .noAlternative)
  | .zeroOrMore p, d, x => by
    simp only [converse, follow, funext (follow_converse g p d)]
  | .oneOrMore p, d, x => by
    simp only [converse, follow, funext (follow_converse g p d)]
  | .zeroOrOne p, d, x => by
    simp only [converse, follow, funext (follow_converse g p d)]

theorem followAll_converses (g : Graph) : ∀ (ps : List Path) (d : Direction) (xs : List Term),
    followAll g (converses ps).reverse d xs = followAll g ps d.flip xs
  | [], d, xs => rfl
  | p :: ps, .forward, xs => by
    have hp : followAll g [converse p] .forward = gather (follow g p .backward) := by
      funext ys
      rw [followAll_single, funext (follow_converse g p .forward)]
      rfl
    rw [converses, List.reverse_cons, followAll_append_forward, followAll_converses g ps .forward,
      hp]
    exact (followAll_cons_backward g p ps xs).symm
  | p :: ps, .backward, xs => by
    rw [converses, List.reverse_cons, followAll_append_backward, followAll_single,
      funext (follow_converse g p .backward), funext (followAll_converses g ps .backward)]
    exact (followAll_cons_forward g p ps xs).symm

theorem choose_converses (g : Graph) : ∀ (ps : List Path) (d : Direction) (x : Term)
    (best : Except Failure (List Term)),
    choose g (converses ps) d x best = choose g ps d.flip x best
  | [], d, x, best => rfl
  | p :: ps, d, x, best => by
    simp only [converses, choose, follow_converse g p d]
    split
    · rfl
    · exact choose_converses g ps d x _

end

theorem walk_inverse (g : Graph) (p : Path) (x : Term) :
    walk g (.inverse p) x = walk g (converse p) x := by
  rw [walk, walk, follow_converse, follow]

/-! ## hops counted from both ends -/

/-- From `x` the one reaches `y` as often as the other reaches `x` from `y`. -/
def Transposed (f f' : Term → List Term) : Prop := ∀ x y, (f x).count y = (f' y).count x

namespace Transposed

variable {f f' h h' : Term → List Term}

theorem symm (hf : Transposed f f') : Transposed f' f := fun x y => (hf y x).symm

theorem mem (hf : Transposed f f') {x y : Term} : y ∈ f x ↔ x ∈ f' y := by
  rw [← List.count_pos_iff, ← List.count_pos_iff, hf]

theorem single : Transposed (fun x => [x]) fun x => [x] := by
  intro x y
  by_cases h : x = y
  · rw [h]
  · rw [List.count_singleton, List.count_singleton, if_neg (by simpa using h),
      if_neg (by simpa using Ne.symm h)]

theorem objects (g : Graph) (i : Iri) : Transposed (g.objects · i) (g.subjects · i) := by
  intro x y
  simp only [Graph.objects, Graph.subjects, Graph.outgoing, List.count_eq_countP, List.countP_map,
    List.countP_filter]
  refine List.countP_congr fun q _ => ?_
  simp only [Function.comp_apply, Bool.and_eq_true, beq_iff_eq, decide_eq_true_eq]
  tauto

/-- The hops of two steps are counted by the node in between. -/
theorem count_flatMap {xs : List Term} {nodes : Finset Term} (hn : xs.toFinset ⊆ nodes)
    (h : Term → List Term) (y : Term) :
    (xs.flatMap h).count y = ∑ z ∈ nodes, xs.count z * (h z).count y := by
  rw [List.count_flatMap, Finset.sum_list_map_count]
  refine Finset.sum_subset hn fun z _ hz => ?_
  rw [List.count_eq_zero_of_not_mem fun h => hz (List.mem_toFinset.2 h)]
  exact Nat.zero_mul _

theorem trans (hf : Transposed f f') (hh : Transposed h h') :
    Transposed (fun x => (f x).flatMap h) fun y => (h' y).flatMap f' := by
  intro x y
  have hx : (f x).toFinset ⊆ (f x ++ h' y).toFinset := by simp
  have hy : (h' y).toFinset ⊆ (f x ++ h' y).toFinset := by simp
  rw [count_flatMap hx, count_flatMap hy]
  refine Finset.sum_congr rfl fun z _ => ?_
  rw [hf x z, hh z y, Nat.mul_comm]

theorem optional (hf : Transposed f f') :
    Transposed (fun x => x :: (f x).filter fun y => y ≠ x)
      fun x => x :: (f' x).filter fun y => y ≠ x := by
  intro x y
  by_cases h : y = x
  · rw [h, List.count_cons_self, List.count_cons_self,
      List.count_eq_zero_of_not_mem (by simp), List.count_eq_zero_of_not_mem (by simp)]
  · rw [List.count_cons_of_ne (Ne.symm h), List.count_cons_of_ne h,
      List.count_filter (by simpa using h), List.count_filter (by simpa using Ne.symm h), hf]

theorem of_nodup (hf : ∀ x, (f x).Nodup) (hf' : ∀ x, (f' x).Nodup)
    (h : ∀ x y, y ∈ f x ↔ x ∈ f' y) : Transposed f f' := by
  intro x y
  by_cases hxy : y ∈ f x
  · rw [List.count_eq_one_of_mem (hf x) hxy, List.count_eq_one_of_mem (hf' y) ((h x y).1 hxy)]
  · rw [List.count_eq_zero_of_not_mem hxy,
      List.count_eq_zero_of_not_mem fun hyx => hxy ((h x y).2 hyx)]

end Transposed

/-! ## walks that turn around -/

/-- Walks that always succeed, with each hop as often in the one direction as in the other. -/
def Turns (step : Direction → Term → Except Failure (List Term)) : Prop :=
  ∃ hops : Direction → Term → List Term, (∀ d x, step d x = .ok (hops d x)) ∧
    Transposed (hops .forward) (hops .backward)

namespace Turns

variable {step : Direction → Term → Except Failure (List Term)}

theorem flip (h : Turns step) : Turns fun d => step d.flip := by
  obtain ⟨hops, hstep, hT⟩ := h
  exact ⟨fun d => hops d.flip, fun d => hstep d.flip, hT.symm⟩

theorem optional (h : Turns step) : Turns fun d => optional (step d) := by
  obtain ⟨hops, hstep, hT⟩ := h
  refine ⟨fun d x => x :: (hops d x).filter fun y => y ≠ x, fun d x => ?_, hT.optional⟩
  simp only [Path.optional, hstep]

theorem of_relation {R : Direction → Term → Term → Prop}
    (h : ∀ d x, ∃ ys, step d x = .ok ys ∧ ys.Nodup ∧ ∀ y, y ∈ ys ↔ R d x y)
    (hR : ∀ x y, R .forward x y ↔ R .backward y x) : Turns step := by
  choose hops hstep hnodup hmem using h
  refine ⟨hops, hstep, .of_nodup (hnodup .forward) (hnodup .backward) fun x y => ?_⟩
  rw [hmem, hmem, hR]

end Turns

theorem gather_eq_ok {step : Term → Except Failure (List Term)} {hops : Term → List Term}
    (h : ∀ x, step x = .ok (hops x)) (xs : List Term) : gather step xs = .ok (xs.flatMap hops) := by
  induction xs with
  | nil => rfl
  | cons x xs ih => simp only [gather, h, ih, List.flatMap_cons]

theorem turns_followAll (g : Graph) (ps : List Path) (hps : ∀ p ∈ ps, Turns (follow g p)) :
    ∃ hops : Direction → Term → List Term,
      (∀ d xs, followAll g ps d xs = .ok (xs.flatMap (hops d))) ∧
      Transposed (hops .forward) (hops .backward) := by
  induction ps with
  | nil =>
    refine ⟨fun _ x => [x], fun d xs => ?_, .single⟩
    rw [followAll, List.flatMap_singleton']
  | cons p ps ih =>
    obtain ⟨f, hf, hfT⟩ := hps p List.mem_cons_self
    obtain ⟨h, hh, hhT⟩ := ih fun q hq => hps q (List.mem_cons_of_mem _ hq)
    refine ⟨fun
      | .forward, x => (f .forward x).flatMap (h .forward)
      | .backward, x => (h .backward x).flatMap (f .backward), fun d xs => ?_, hfT.trans hhT⟩
    cases d with
    | forward => simp only [followAll, gather_eq_ok (hf .forward), hh, List.flatMap_assoc]
    | backward => simp only [followAll, gather_eq_ok (hf .backward), hh, List.flatMap_assoc]

/-- A path without a choice: each of its alternatives has exactly one branch. -/
inductive Unbranched : Path → Prop where
  | predicate (i : Iri) : Unbranched (.predicate i)
  | inverse {p : Path} : Unbranched p → Unbranched (.inverse p)
  | sequence {ps : List Path} : (∀ p ∈ ps, Unbranched p) → Unbranched (.sequence ps)
  | alternative {p : Path} : Unbranched p → Unbranched (.alternative [p])
  | zeroOrMore {p : Path} : Unbranched p → Unbranched (.zeroOrMore p)
  | oneOrMore {p : Path} : Unbranched p → Unbranched (.oneOrMore p)
  | zeroOrOne {p : Path} : Unbranched p → Unbranched (.zeroOrOne p)

/-- An only branch is taken, be its answer empty or not. -/
theorem choose_single {g : Graph} {p : Path} {d : Direction} {x : Term} {ys : List Term}
    (h : follow g p d x = .ok ys) : choose g [p] d x (.error .noAlternative) = .ok ys := by
  simp only [choose, h]
  cases ys with
  | nil => rfl
  | cons y ys => rfl

/-- One hop of a path with the given answers. -/
def Hop (f : Term → List Term) (a b : Term) : Prop := b ∈ f a

theorem closure_spec {g : Graph} {step : Term → Except Failure (List Term)}
    (hstep : ∀ x, step x = .ok (f x)) (hf : ∀ x, ∀ y ∈ f x, Within g x y) (x : Term) :
    ∃ ys, closure step g x = .ok ys ∧ ys.Nodup ∧
      ∀ y, y ∈ ys ↔ Relation.ReflTransGen (Hop f) x y :=
  ⟨_, Search.tryRun_eq_ok_run hstep _ _, Search.nodup_reach f g.terms x,
    fun _ => Search.mem_reach hf⟩

theorem closureBeyond_spec {g : Graph} {step : Term → Except Failure (List Term)}
    (hstep : ∀ x, step x = .ok (f x)) (hf : ∀ x, ∀ y ∈ f x, Within g x y) (x : Term) :
    ∃ ys, closureBeyond step g x = .ok ys ∧ ys.Nodup ∧
      ∀ y, y ∈ ys ↔ Relation.TransGen (Hop f) x y :=
  ⟨_, Search.tryReachBeyond_eq_ok_reachBeyond hstep _ _, Search.nodup_reachBeyond f _ x,
    fun _ => Search.mem_reachBeyond
      (fun a b hb => (hf a b hb).imp id (List.mem_cons_of_mem x)) List.mem_cons_self⟩

theorem swap_hop {f f' : Term → List Term} (h : Transposed f f') :
    Function.swap (Hop f) = Hop f' := by
  funext x y
  exact propext h.mem

theorem Unbranched.turns {p : Path} (hp : p.Unbranched) (g : Graph) : Turns (follow g p) := by
  induction hp with
  | predicate i =>
    refine ⟨fun | .forward, x => g.objects x i | .backward, x => g.subjects x i,
      fun d x => ?_, Transposed.objects g i⟩
    cases d <;> rfl
  | inverse _ ih => exact ih.flip
  | @sequence ps _ ih =>
    obtain ⟨hops, hall, hT⟩ := turns_followAll g ps ih
    refine ⟨hops, fun d x => ?_, hT⟩
    rw [follow, hall, List.flatMap_cons, List.flatMap_nil, List.append_nil]
  | alternative _ ih =>
    obtain ⟨hops, hstep, hT⟩ := ih
    exact ⟨hops, fun d x => choose_single (hstep d x), hT⟩
  | @zeroOrMore p _ ih =>
    obtain ⟨hops, hstep, hT⟩ := ih
    refine .of_relation (fun d x => closure_spec (hstep d) (fun x y hy =>
      follow_within g p d x _ (hstep d x) y hy) x) fun x y => ?_
    rw [← swap_hop hT, Relation.reflTransGen_swap]
  | @oneOrMore p _ ih =>
    obtain ⟨hops, hstep, hT⟩ := ih
    refine .of_relation (fun d x => closureBeyond_spec (hstep d) (fun x y hy =>
      follow_within g p d x _ (hstep d x) y hy) x) fun x y => ?_
    rw [← swap_hop hT, Relation.transGen_swap]
  | zeroOrOne _ ih => exact ih.optional

/-- A path and its converse have the same hops, each as often, seen from the two ends. -/
theorem count_walk_converse {p : Path} (hp : p.Unbranched) (g : Graph) (x y : Term) :
    ∃ hops back, p.walk g x = .ok hops ∧ p.converse.walk g y = .ok back ∧
      hops.count y = back.count x := by
  obtain ⟨hops, hstep, hT⟩ := hp.turns g
  refine ⟨hops .forward x, hops .backward y, hstep .forward x, ?_, hT x y⟩
  rw [walk, follow_converse]
  exact hstep .backward y

/-- There and back again, with a choice of one branch around an inverse. -/
def roundTrip : Path :=
  .sequence [.oneOrMore (.predicate ⟨"next"⟩), .alternative [.inverse (.predicate ⟨"next"⟩)]]

theorem count_walk_converse_roundTrip :
    roundTrip.Unbranched ∧
      ∃ hops back,
        roundTrip.walk [⟨.iri ⟨"a"⟩, ⟨"next"⟩, .iri ⟨"b"⟩, none⟩,
          ⟨.iri ⟨"a"⟩, ⟨"next"⟩, .iri ⟨"b"⟩, none⟩] (.iri ⟨"a"⟩) = .ok hops ∧
        roundTrip.converse.walk [⟨.iri ⟨"a"⟩, ⟨"next"⟩, .iri ⟨"b"⟩, none⟩,
          ⟨.iri ⟨"a"⟩, ⟨"next"⟩, .iri ⟨"b"⟩, none⟩] (.iri ⟨"a"⟩) = .ok back ∧
        hops.count (.iri ⟨"a"⟩) = back.count (.iri ⟨"a"⟩) := by
  have h : roundTrip.Unbranched := by
    refine .sequence fun p hp => ?_
    rcases List.mem_cons.1 hp with rfl | hp
    · exact .oneOrMore (.predicate _)
    · rw [List.mem_singleton.1 hp]
      exact .alternative (.inverse (.predicate _))
  exact ⟨h, count_walk_converse h _ _ _⟩

end Path
end ShaclExtract
