import ShaclExtract.Proofs.Path.Bounds

/-!
# ShaclExtract.Proofs.Path.Repetition

What the repetitions of a path list. `p*` and `p+` list the nodes that are reached by steps of `p`,
each once and nearer ones first, if `p` can be walked from all of them, and fail otherwise
(`Path.walk_repetitions`).

`p?` does not search. It lists its start once and every other node as often as `p` does, so a node
that `p` reaches along several routes is repeated (`Path.walk_zeroOrOne`).
-/

namespace ShaclExtract
namespace Path

open Relation

variable {g : Graph} {p : Path} {x y : Term} {ys : List Term}

/-- One hop of the path, from a node where it can be walked. -/
def Leads (g : Graph) (p : Path) (x y : Term) : Prop := ∃ hops, p.walk g x = .ok hops ∧ y ∈ hops

theorem leads_iff : p.Leads g x y ↔ y ∈ Search.answered (p.walk g x) :=
  Search.mem_answered.symm

theorem leads_eq (g : Graph) (p : Path) :
    p.Leads g = fun x y => y ∈ Search.answered (p.walk g x) :=
  funext fun _ => funext fun _ => propext leads_iff

/-! ## zero or more -/

theorem walk_zeroOrMore_eq_ok_iff :
    (zeroOrMore p).walk g x = .ok ys ↔
      ys = Search.reach (fun a => Search.answered (p.walk g a)) g.terms x ∧
        ∀ y ∈ ys, ∃ hops, p.walk g y = .ok hops :=
  Search.tryReach_eq_ok_iff

theorem mem_reach_walk :
    y ∈ Search.reach (fun a => Search.answered (p.walk g a)) g.terms x ↔
      ReflTransGen (p.Leads g) x y := by
  rw [leads_eq]
  exact Search.mem_reach (within_of_mem_follow g p .forward)

theorem walk_zeroOrMore (hok : ∀ y, ReflTransGen (p.Leads g) x y → ∃ hops, p.walk g y = .ok hops) :
    ∃ ys, (zeroOrMore p).walk g x = .ok ys ∧ ys.Nodup ∧ ys.head? = some x ∧
      (∀ y, y ∈ ys ↔ ReflTransGen (p.Leads g) x y) ∧
      ys.Pairwise (Search.NoFarther (p.Leads g) [x] 0) := by
  refine ⟨_, walk_zeroOrMore_eq_ok_iff.2 ⟨rfl, fun y hy => hok y (mem_reach_walk.1 hy)⟩,
    Search.nodup_reach _ _ _, Search.head?_reach _ _ _, fun _ => mem_reach_walk, ?_⟩
  rw [leads_eq]
  exact Search.pairwise_reach (within_of_mem_follow g p .forward) x

theorem walk_zeroOrMore_error {e : Failure} (hy : ReflTransGen (p.Leads g) x y)
    (he : p.walk g y = .error e) : ∃ e, (zeroOrMore p).walk g x = .error e := by
  cases hx : (zeroOrMore p).walk g x with
  | error e => exact ⟨e, rfl⟩
  | ok ys =>
    obtain ⟨rfl, hok⟩ := walk_zeroOrMore_eq_ok_iff.1 hx
    obtain ⟨hops, hhops⟩ := hok y (mem_reach_walk.2 hy)
    cases he.symm.trans hhops

/-! ## one or more -/

theorem walk_oneOrMore_eq_ok_iff :
    (oneOrMore p).walk g x = .ok ys ↔
      ys = Search.reachBeyond (fun a => Search.answered (p.walk g a)) (x :: g.terms) x ∧
        ∀ y ∈ x :: ys, ∃ hops, p.walk g y = .ok hops :=
  Search.tryReachBeyond_eq_ok_iff

theorem mem_reachBeyond_walk :
    y ∈ Search.reachBeyond (fun a => Search.answered (p.walk g a)) (x :: g.terms) x ↔
      TransGen (p.Leads g) x y := by
  rw [leads_eq]
  exact Search.mem_reachBeyond (within_cons_of_mem_follow g p .forward x) List.mem_cons_self

theorem walk_oneOrMore (hok : ∀ y, ReflTransGen (p.Leads g) x y → ∃ hops, p.walk g y = .ok hops) :
    ∃ ys, (oneOrMore p).walk g x = .ok ys ∧ ys.Nodup ∧
      (∀ y, y ∈ ys ↔ TransGen (p.Leads g) x y) ∧
      ys.Pairwise (Search.NoFarther (p.Leads g) [x] 1) := by
  refine ⟨_, walk_oneOrMore_eq_ok_iff.2 ⟨rfl, List.forall_mem_cons.2 ⟨hok x .refl, fun y hy =>
      hok y (mem_reachBeyond_walk.1 hy).to_reflTransGen⟩⟩,
    Search.nodup_reachBeyond _ _ _, fun _ => mem_reachBeyond_walk, ?_⟩
  rw [leads_eq]
  exact Search.pairwise_reachBeyond (within_cons_of_mem_follow g p .forward x) List.mem_cons_self

theorem walk_oneOrMore_error {e : Failure} (hy : ReflTransGen (p.Leads g) x y)
    (he : p.walk g y = .error e) : ∃ e, (oneOrMore p).walk g x = .error e := by
  cases hx : (oneOrMore p).walk g x with
  | error e => exact ⟨e, rfl⟩
  | ok ys =>
    obtain ⟨rfl, hok⟩ := walk_oneOrMore_eq_ok_iff.1 hx
    have hmem : y ∈ x :: Search.reachBeyond (fun a => Search.answered (p.walk g a))
        (x :: g.terms) x := by
      rcases reflTransGen_iff_eq_or_transGen.1 hy with rfl | hy
      · exact List.mem_cons_self
      · exact List.mem_cons_of_mem x (mem_reachBeyond_walk.2 hy)
    obtain ⟨hops, hhops⟩ := hok y hmem
    cases he.symm.trans hhops

/-- The repetitions list what is reached in zero or more and in one or more steps, each node once
and in the order of the least number of steps; they fail if the path fails at a node that is
reached. -/
theorem walk_repetitions (g : Graph) (p : Path) (x : Term) :
    ((∀ y, ReflTransGen (p.Leads g) x y → ∃ hops, p.walk g y = .ok hops) →
      (∃ ys, (zeroOrMore p).walk g x = .ok ys ∧ ys.Nodup ∧ ys.head? = some x ∧
        (∀ y, y ∈ ys ↔ ReflTransGen (p.Leads g) x y) ∧
        ys.Pairwise (Search.NoFarther (p.Leads g) [x] 0)) ∧
      ∃ ys, (oneOrMore p).walk g x = .ok ys ∧ ys.Nodup ∧
        (∀ y, y ∈ ys ↔ TransGen (p.Leads g) x y) ∧
        ys.Pairwise (Search.NoFarther (p.Leads g) [x] 1)) ∧
    ∀ y e, ReflTransGen (p.Leads g) x y → p.walk g y = .error e →
      (∃ e, (zeroOrMore p).walk g x = .error e) ∧ ∃ e, (oneOrMore p).walk g x = .error e :=
  ⟨fun hok => ⟨walk_zeroOrMore hok, walk_oneOrMore hok⟩,
    fun _ _ hy he => ⟨walk_zeroOrMore_error hy he, walk_oneOrMore_error hy he⟩⟩

/-- Two nodes that lead to each other, the second one also to a last node. -/
def ring : Graph :=
  [⟨.iri ⟨"a"⟩, ⟨"next"⟩, .iri ⟨"b"⟩, none⟩, ⟨.iri ⟨"b"⟩, ⟨"next"⟩, .iri ⟨"a"⟩, none⟩,
    ⟨.iri ⟨"b"⟩, ⟨"last"⟩, .iri ⟨"c"⟩, none⟩]

/-- The next node, where the path fails if that node leads to a last one. -/
def checkedNext : Path :=
  .sequence [.predicate ⟨"next"⟩, .zeroOrOne (.sequence [.predicate ⟨"last"⟩, .alternative []])]

/-- From the second node, one path can be walked again and again, the other one only once. -/
theorem walk_repetitions_ring :
    (∀ y, ReflTransGen ((predicate ⟨"next"⟩).Leads ring) (.iri ⟨"b"⟩) y →
      ∃ hops, (predicate ⟨"next"⟩).walk ring y = .ok hops) ∧
    (∃ ys, (zeroOrMore (.predicate ⟨"next"⟩)).walk ring (.iri ⟨"b"⟩) = .ok ys ∧ ys.Nodup ∧
      ys.head? = some (.iri ⟨"b"⟩) ∧
      (∀ y, y ∈ ys ↔ ReflTransGen ((predicate ⟨"next"⟩).Leads ring) (.iri ⟨"b"⟩) y) ∧
      ys.Pairwise (Search.NoFarther ((predicate ⟨"next"⟩).Leads ring) [.iri ⟨"b"⟩] 0)) ∧
    (∃ ys, (oneOrMore (.predicate ⟨"next"⟩)).walk ring (.iri ⟨"b"⟩) = .ok ys ∧ ys.Nodup ∧
      (∀ y, y ∈ ys ↔ TransGen ((predicate ⟨"next"⟩).Leads ring) (.iri ⟨"b"⟩) y) ∧
      ys.Pairwise (Search.NoFarther ((predicate ⟨"next"⟩).Leads ring) [.iri ⟨"b"⟩] 1)) ∧
    ReflTransGen (checkedNext.Leads ring) (.iri ⟨"b"⟩) (.iri ⟨"a"⟩) ∧
    checkedNext.walk ring (.iri ⟨"a"⟩) = .error .noAlternative ∧
    (∃ e, (zeroOrMore checkedNext).walk ring (.iri ⟨"b"⟩) = .error e) ∧
    ∃ e, (oneOrMore checkedNext).walk ring (.iri ⟨"b"⟩) = .error e := by
  have hok : ∀ y, ReflTransGen ((predicate ⟨"next"⟩).Leads ring) (.iri ⟨"b"⟩) y →
      ∃ hops, (predicate ⟨"next"⟩).walk ring y = .ok hops := fun _ _ => ⟨_, rfl⟩
  have hback : ReflTransGen (checkedNext.Leads ring) (.iri ⟨"b"⟩) (.iri ⟨"a"⟩) :=
    .single ⟨[.iri ⟨"a"⟩], by rfl, List.mem_singleton_self _⟩
  have hfails : checkedNext.walk ring (.iri ⟨"a"⟩) = .error .noAlternative := by rfl
  obtain ⟨hmore, hbeyond⟩ := (walk_repetitions ring (.predicate ⟨"next"⟩) (.iri ⟨"b"⟩)).1 hok
  exact ⟨hok, hmore, hbeyond, hback, hfails,
    (walk_repetitions ring checkedNext (.iri ⟨"b"⟩)).2 _ _ hback hfails⟩

/-! ## zero or one -/

theorem walk_zeroOrOne_eq {hops : List Term} (h : p.walk g x = .ok hops) :
    (zeroOrOne p).walk g x = .ok (x :: hops.filter fun y => y ≠ x) := by
  change optional (p.walk g) x = _
  rw [optional, h]

/-- At their first occurrences, a node and its hops are what `p*` lists first. -/
theorem prefix_walk_zeroOrMore {hops zs : List Term} (h : p.walk g x = .ok hops)
    (hz : (zeroOrMore p).walk g x = .ok zs) : (x :: hops).eraseDups <+: zs := by
  obtain ⟨hzs, -⟩ := walk_zeroOrMore_eq_ok_iff.1 hz
  have hwithin : ∀ a, ∀ b ∈ Search.answered (p.walk g a), b = a ∨ b ∈ g.terms :=
    within_of_mem_follow g p .forward
  have hlisted := Search.reach_eq_eraseDups hwithin x
  have hhead := Search.head?_reach (fun a => Search.answered (p.walk g a)) g.terms x
  rw [← hzs] at hlisted hhead
  obtain ⟨zs, rfl⟩ := List.head?_eq_some_iff.1 hhead
  rw [List.flatMap_cons, h, Search.answered, ← List.cons_append, List.eraseDups_append] at hlisted
  rw [hlisted]
  exact List.prefix_append _ _

/-- `p?` lists its start and the hops of `p`, the start once and any other node as often as `p`
lists it, in the order of `p`. So no node is repeated exactly if `p` repeats only the start; and the
nodes at their first occurrences are those that `p*` lists first. -/
theorem walk_zeroOrOne {hops : List Term} (h : p.walk g x = .ok hops) :
    ∃ ys, (zeroOrOne p).walk g x = .ok ys ∧ ys.head? = some x ∧
      (∀ y, y ∈ ys ↔ y = x ∨ y ∈ hops) ∧ ys.tail.Sublist hops ∧ ys.count x = 1 ∧
      (∀ y, y ≠ x → ys.count y = hops.count y) ∧
      (ys.Nodup ↔ ∀ y, y ≠ x → hops.count y ≤ 1) ∧
      ∀ zs, (zeroOrMore p).walk g x = .ok zs → ys.eraseDups <+: zs := by
  have hself : (x :: hops.filter fun y => y ≠ x).count x = 1 := by
    rw [List.count_cons_self, List.count_eq_zero_of_not_mem (by simp)]
  have hother : ∀ y, y ≠ x → (x :: hops.filter fun y => y ≠ x).count y = hops.count y := by
    intro y hy
    rw [List.count_cons_of_ne (Ne.symm hy), List.count_filter (by simpa using hy)]
  refine ⟨_, walk_zeroOrOne_eq h, List.head?_cons, fun y => ?_, List.filter_sublist, hself,
    hother, ?_, fun zs hz => ?_⟩
  · by_cases hy : y = x <;> simp [hy]
  · rw [List.nodup_iff_count_le_one]
    constructor
    · intro hcount y hy
      exact hother y hy ▸ hcount y
    · intro hcount y
      by_cases hy : y = x
      · rw [hy]
        exact Nat.le_of_eq hself
      · rw [hother y hy]
        exact hcount y hy
  · have hfirst : (x :: hops.filter fun y => y ≠ x).eraseDups = (x :: hops).eraseDups := by
      rw [List.eraseDups_cons, List.eraseDups_cons, List.filter_filter]
      simp [beq_eq_decide]
    rw [hfirst]
    exact prefix_walk_zeroOrMore h hz

/-- Two routes lead from the first node to the last. -/
def diamond : Graph :=
  [⟨.iri ⟨"a"⟩, ⟨"next"⟩, .iri ⟨"b"⟩, none⟩, ⟨.iri ⟨"a"⟩, ⟨"next"⟩, .iri ⟨"c"⟩, none⟩,
    ⟨.iri ⟨"b"⟩, ⟨"next"⟩, .iri ⟨"d"⟩, none⟩, ⟨.iri ⟨"c"⟩, ⟨"next"⟩, .iri ⟨"d"⟩, none⟩]

def twoSteps : Path := .sequence [.predicate ⟨"next"⟩, .predicate ⟨"next"⟩]

theorem walk_zeroOrOne_diamond :
    twoSteps.walk diamond (.iri ⟨"a"⟩) = .ok [.iri ⟨"d"⟩, .iri ⟨"d"⟩] ∧
    ∃ ys, (zeroOrOne twoSteps).walk diamond (.iri ⟨"a"⟩) = .ok ys ∧
      ys.head? = some (.iri ⟨"a"⟩) ∧
      (∀ y, y ∈ ys ↔ y = .iri ⟨"a"⟩ ∨ y ∈ [Term.iri ⟨"d"⟩, .iri ⟨"d"⟩]) ∧
      ys.tail.Sublist [.iri ⟨"d"⟩, .iri ⟨"d"⟩] ∧ ys.count (.iri ⟨"a"⟩) = 1 ∧
      (∀ y, y ≠ .iri ⟨"a"⟩ → ys.count y = [Term.iri ⟨"d"⟩, .iri ⟨"d"⟩].count y) ∧
      (ys.Nodup ↔ ∀ y, y ≠ .iri ⟨"a"⟩ → [Term.iri ⟨"d"⟩, .iri ⟨"d"⟩].count y ≤ 1) ∧
      ∀ zs, (zeroOrMore twoSteps).walk diamond (.iri ⟨"a"⟩) = .ok zs → ys.eraseDups <+: zs := by
  have hwalk : twoSteps.walk diamond (.iri ⟨"a"⟩) = .ok [.iri ⟨"d"⟩, .iri ⟨"d"⟩] := by rfl
  exact ⟨hwalk, walk_zeroOrOne hwalk⟩

/-- The last node is listed once for each route to it, where `p*` lists it once. -/
theorem zeroOrOne_repeats_diamond :
    twoSteps.walk diamond (.iri ⟨"a"⟩) = .ok [.iri ⟨"d"⟩, .iri ⟨"d"⟩] ∧
    (zeroOrOne twoSteps).walk diamond (.iri ⟨"a"⟩) =
      .ok [.iri ⟨"a"⟩, .iri ⟨"d"⟩, .iri ⟨"d"⟩] ∧
    ¬ [Term.iri ⟨"a"⟩, .iri ⟨"d"⟩, .iri ⟨"d"⟩].Nodup ∧
    (zeroOrMore twoSteps).walk diamond (.iri ⟨"a"⟩) = .ok [.iri ⟨"a"⟩, .iri ⟨"d"⟩] :=
  ⟨by rfl, by rfl, by decide, by decide +kernel⟩

end Path
end ShaclExtract
