import Mathlib.Data.List.Perm.Basic
import ShaclExtract.Proofs.Extractor.Tandem
import ShaclExtract.Proofs.Path.Bounds
import ShaclExtract.Proofs.Rdf.Lookup

/-!
# ShaclExtract.Proofs.Path.Reordering

Walks in a graph whose quads are put in another order. A walk fails in both graphs or in neither,
and has the same hops, each as often (`Path.walk_reordered`).

The two walks go different ways: breadth-first searches meet the nodes in another order, and where a
walk fails it may be another step that fails first. But what a search finds is determined by the
relation that its step stands for, whether it fails by the steps from all that it finds, and which
branch of an alternative is taken by which branches lead anywhere.
-/

namespace ShaclExtract

open Search (answered)

/-! ## answers up to order -/

section answers

variable {α : Type} {r r' : Except Failure (List α)}

/-- Both answers succeed or none does, and then they have the same elements, each as often. -/
abbrev Reordered (r r' : Except Failure (List α)) : Prop := Outcomes List.Perm r r'

theorem reordered_iff : Reordered r r' ↔
    ((∃ ys, r = .ok ys) ↔ ∃ ys, r' = .ok ys) ∧ (answered r).Perm (answered r') := by
  rcases r with e | ys <;> rcases r' with e' | ys' <;> simp [Outcomes, answered]

/-- The answer is the second list, or a failure if the step from an element of the first fails. -/
def Finds (step : α → Except Failure (List α)) (taken found : List α)
    (r : Except Failure (List α)) : Prop :=
  ∀ ys, r = .ok ys ↔ ys = found ∧ ∀ y ∈ taken, ∃ next, step y = .ok next

theorem Finds.reordered {step step' : α → Except Failure (List α)}
    {taken taken' found found' : List α} (h : Finds step taken found r)
    (h' : Finds step' taken' found' r') (hstep : ∀ y, Reordered (step y) (step' y))
    (htaken : ∀ y, y ∈ taken ↔ y ∈ taken') (hfound : found.Perm found') : Reordered r r' := by
  have hall : (∀ y ∈ taken, ∃ next, step y = .ok next) ↔
      ∀ y ∈ taken', ∃ next, step' y = .ok next :=
    forall_congr' fun y => imp_congr (htaken y) (reordered_iff.1 (hstep y)).1
  cases hr : r with
  | ok ys =>
    obtain ⟨rfl, hok⟩ := (h ys).1 hr
    rw [(h' found').2 ⟨rfl, hall.1 hok⟩]
    exact hfound
  | error e =>
    cases hr' : r' with
    | ok ys' =>
      obtain ⟨-, hok⟩ := (h' ys').1 hr'
      cases hr.symm.trans ((h found).2 ⟨rfl, hall.2 hok⟩)
    | error e' => trivial

theorem finds_gather (step : α → Except Failure (List α)) (xs : List α) :
    Finds step xs (xs.flatMap fun x => answered (step x)) (gather step xs) := by
  induction xs with
  | nil => simp [Finds, gather, eq_comm]
  | cons x xs ih =>
    intro ys
    rw [List.flatMap_cons, List.forall_mem_cons, gather]
    cases hx : step x with
    | error e => simp
    | ok hops =>
      cases hxs : gather step xs with
      | error e =>
        have hfails : ¬ ∀ y ∈ xs, ∃ next, step y = .ok next := fun hok => by
          cases hxs.symm.trans ((ih _).2 ⟨rfl, hok⟩)
        simp [hfails]
      | ok rest =>
        obtain ⟨rfl, hok⟩ := (ih rest).1 hxs
        have hall : (∃ next, (.ok hops : Except Failure (List α)) = .ok next) ∧
          ∀ y ∈ xs, ∃ next, step y = .ok next := ⟨⟨hops, rfl⟩, hok⟩
        rw [Except.ok.injEq, and_iff_left hall]
        exact eq_comm

theorem gather_reordered {step step' : α → Except Failure (List α)}
    (hstep : ∀ x, Reordered (step x) (step' x)) {xs xs' : List α} (h : xs.Perm xs') :
    Reordered (gather step xs) (gather step' xs') :=
  (finds_gather step xs).reordered (finds_gather step' xs') hstep (fun _ => h.mem_iff)
    (h.flatMap fun x _ => (reordered_iff.1 (hstep x)).2)

theorem prefer_reordered {first first' : Except Failure (List α)} (h : Reordered first first')
    (hr : Reordered r r') : Reordered (prefer first r) (prefer first' r') := by
  obtain ⟨e, e', rfl, rfl⟩ | ⟨xs, xs', rfl, rfl, hxs⟩ := h.cases
  · exact hr
  · rcases xs with _ | ⟨x, xs⟩ <;> rcases xs' with _ | ⟨x', xs'⟩
    · obtain ⟨e, e', rfl, rfl⟩ | ⟨ys, ys', rfl, rfl, hys⟩ := hr.cases
      · exact List.Perm.refl []
      · exact hys
    · cases hxs.length_eq
    · cases hxs.length_eq
    · exact hxs

end answers

/-! ## searches -/

namespace Search

variable {α : Type} [DecidableEq α]

theorem finds_tryReach (step : α → Except Failure (List α)) (nodes : List α) (x : α) :
    Finds step (reach (fun a => answered (step a)) nodes x)
      (reach (fun a => answered (step a)) nodes x) (tryReach step nodes x) :=
  fun _ => tryReach_eq_ok_iff.trans (and_congr_right fun h => by rw [h])

theorem finds_tryReachBeyond (step : α → Except Failure (List α)) (nodes : List α) (x : α) :
    Finds step (x :: reachBeyond (fun a => answered (step a)) nodes x)
      (reachBeyond (fun a => answered (step a)) nodes x) (tryReachBeyond step nodes x) :=
  fun _ => tryReachBeyond_eq_ok_iff.trans (and_congr_right fun h => by rw [h])

variable {step step' : α → Except Failure (List α)} {nodes nodes' : List α}
  (hstep : ∀ x, Reordered (step x) (step' x))
  (hnodes : ∀ a, ∀ b ∈ answered (step a), b = a ∨ b ∈ nodes)
  (hnodes' : ∀ a, ∀ b ∈ answered (step' a), b = a ∨ b ∈ nodes')
include hstep hnodes hnodes'

theorem reach_perm (x : α) : (reach (fun a => answered (step a)) nodes x).Perm
    (reach (fun a => answered (step' a)) nodes' x) := by
  refine (List.perm_ext_iff_of_nodup (nodup_reach _ _ x) (nodup_reach _ _ x)).2 fun y => ?_
  rw [mem_reach hnodes, mem_reach hnodes']
  simp only [(reordered_iff.1 (hstep _)).2.mem_iff]

theorem tryReach_reordered (x : α) :
    Reordered (tryReach step nodes x) (tryReach step' nodes' x) := by
  have hfound := reach_perm hstep hnodes hnodes' x
  exact (finds_tryReach step nodes x).reordered (finds_tryReach step' nodes' x) hstep
    (fun _ => hfound.mem_iff) hfound

theorem reachBeyond_perm {x : α} (hx : x ∈ nodes) (hx' : x ∈ nodes') :
    (reachBeyond (fun a => answered (step a)) nodes x).Perm
      (reachBeyond (fun a => answered (step' a)) nodes' x) := by
  refine (List.perm_ext_iff_of_nodup (nodup_reachBeyond _ _ x) (nodup_reachBeyond _ _ x)).2
    fun y => ?_
  rw [mem_reachBeyond hnodes hx, mem_reachBeyond hnodes' hx']
  simp only [(reordered_iff.1 (hstep _)).2.mem_iff]

theorem tryReachBeyond_reordered {x : α} (hx : x ∈ nodes) (hx' : x ∈ nodes') :
    Reordered (tryReachBeyond step nodes x) (tryReachBeyond step' nodes' x) := by
  have hfound := reachBeyond_perm hstep hnodes hnodes' hx hx'
  exact (finds_tryReachBeyond step nodes x).reordered (finds_tryReachBeyond step' nodes' x) hstep
    (fun _ => (hfound.cons x).mem_iff) hfound

end Search

/-! ## walks -/

namespace Path

variable {g g' : Graph}

theorem optional_reordered {step step' : Term → Except Failure (List Term)}
    (hstep : ∀ x, Reordered (step x) (step' x)) (x : Term) :
    Reordered (optional step x) (optional step' x) := by
  rw [optional, optional]
  obtain ⟨e, e', h, h'⟩ | ⟨hops, hops', h, h', hhops⟩ := (hstep x).cases
  · rw [h, h']
    trivial
  · rw [h, h']
    exact (hhops.filter _).cons x

mutual

theorem follow_reordered (h : g.Perm g') : ∀ (p : Path) (d : Direction) (x : Term),
    Reordered (follow g p d x) (follow g' p d x)
  | .predicate i, .forward, x => Graph.objects_of_perm h x i
  | .predicate i, .backward, x => Graph.subjects_of_perm h x i
  | .inverse p, d, x => follow_reordered h p d.flip x
  | .sequence ps, d, x => followAll_reordered h ps d (.refl [x])
  | .alternative ps, d, x =>
    choose_reordered h ps d x
      (show Reordered (.error .noAlternative) (.error .noAlternative) from trivial)
  | .zeroOrMore p, d, x =>
    Search.tryReach_reordered (follow_reordered h p d) (within_of_mem_follow g p d)
      (within_of_mem_follow g' p d) x
  | .oneOrMore p, d, x =>
    Search.tryReachBeyond_reordered (follow_reordered h p d)
      (within_cons_of_mem_follow g p d x) (within_cons_of_mem_follow g' p d x)
      List.mem_cons_self List.mem_cons_self
  | .zeroOrOne p, d, x => optional_reordered (follow_reordered h p d) x

theorem followAll_reordered (h : g.Perm g') : ∀ (ps : List Path) (d : Direction)
    {xs xs' : List Term}, xs.Perm xs' → Reordered (followAll g ps d xs) (followAll g' ps d xs')
  | [], d, xs, xs', hxs => hxs
  | p :: ps, .forward, xs, xs', hxs => by
    simp only [followAll]
    obtain ⟨e, e', hr, hr'⟩ | ⟨ys, ys', hr, hr', hys⟩ :=
      (gather_reordered (follow_reordered h p .forward) hxs).cases
    · rw [hr, hr']
      trivial
    · rw [hr, hr']
      exact followAll_reordered h ps .forward hys
  | p :: ps, .backward, xs, xs', hxs => by
    simp only [followAll]
    obtain ⟨e, e', hr, hr'⟩ | ⟨ys, ys', hr, hr', hys⟩ :=
      (followAll_reordered h ps .backward hxs).cases
    · rw [hr, hr']
      trivial
    · rw [hr, hr']
      exact gather_reordered (follow_reordered h p .backward) hys

theorem choose_reordered (h : g.Perm g') : ∀ (ps : List Path) (d : Direction) (x : Term)
    {best best' : Except Failure (List Term)}, Reordered best best' →
      Reordered (choose g ps d x best) (choose g' ps d x best')
  | [], d, x, best, best', hbest => hbest
  | p :: ps, d, x, best, best', hbest => by
    have hp := follow_reordered h p d x
    have hrest := fun {r r'} (hr : Reordered r r') =>
      choose_reordered h ps d x (prefer_reordered hbest hr)
    simp only [choose]
    obtain ⟨e, e', hr, hr'⟩ | ⟨ys, ys', hr, hr', hys⟩ := hp.cases
    · rw [hr, hr']
      exact hrest (show Reordered (.error e) (.error e') from trivial)
    · rw [hr, hr']
      rcases ys with _ | ⟨y, ys⟩ <;> rcases ys' with _ | ⟨y', ys'⟩
      · exact hrest (show Reordered (.ok []) (.ok []) from List.Perm.refl [])
      · cases hys.length_eq
      · cases hys.length_eq
      · exact hys

end

/-- Where the quads of a graph stand does not matter to a walk, but for the order of its hops: it
fails or not, and has the same hops, each as often. -/
theorem walk_reordered (h : g.Perm g') (p : Path) (x : Term) :
    ((∃ e, p.walk g x = .error e) ↔ ∃ e, p.walk g' x = .error e) ∧
      ∀ hops, p.walk g x = .ok hops → ∃ hops', p.walk g' x = .ok hops' ∧ hops.Perm hops' := by
  have hwalk : Reordered (p.walk g x) (p.walk g' x) := follow_reordered h p .forward x
  obtain ⟨e, e', hr, hr'⟩ | ⟨ys, ys', hr, hr', hys⟩ := hwalk.cases
  · rw [hr, hr']
    simp
  · rw [hr, hr']
    refine ⟨by simp, fun hops hhops => ⟨ys', rfl, ?_⟩⟩
    cases hhops
    exact hys

def fork : Graph :=
  [⟨.iri ⟨"a"⟩, ⟨"next"⟩, .iri ⟨"b"⟩, none⟩, ⟨.iri ⟨"a"⟩, ⟨"next"⟩, .iri ⟨"c"⟩, none⟩]

/-- A last node if there is one, else a next one. -/
def lastOrNext : Path := .alternative [.predicate ⟨"last"⟩, .predicate ⟨"next"⟩]

/-- A next node, then a choice between no branches. -/
def deadEnd : Path := .sequence [.predicate ⟨"next"⟩, .alternative []]

/-- With the quads swapped the hops are swapped, and the walk that fails still does. -/
theorem walk_reordered_fork :
    fork.Perm fork.reverse ∧ lastOrNext.walk fork (.iri ⟨"a"⟩) = .ok [.iri ⟨"b"⟩, .iri ⟨"c"⟩] ∧
    (∃ hops', lastOrNext.walk fork.reverse (.iri ⟨"a"⟩) = .ok hops' ∧
      [Term.iri ⟨"b"⟩, .iri ⟨"c"⟩].Perm hops') ∧
    lastOrNext.walk fork.reverse (.iri ⟨"a"⟩) = .ok [.iri ⟨"c"⟩, .iri ⟨"b"⟩] ∧
    deadEnd.walk fork (.iri ⟨"a"⟩) = .error .noAlternative ∧
    ∃ e, deadEnd.walk fork.reverse (.iri ⟨"a"⟩) = .error e := by
  have hperm : fork.Perm fork.reverse := (List.reverse_perm fork).symm
  have hwalk : lastOrNext.walk fork (.iri ⟨"a"⟩) = .ok [.iri ⟨"b"⟩, .iri ⟨"c"⟩] := by rfl
  have hfails : deadEnd.walk fork (.iri ⟨"a"⟩) = .error .noAlternative := by rfl
  exact ⟨hperm, hwalk, (walk_reordered hperm lastOrNext _).2 _ hwalk, by rfl, hfails,
    (walk_reordered hperm deadEnd _).1.1 ⟨_, hfails⟩⟩

end Path
end ShaclExtract
