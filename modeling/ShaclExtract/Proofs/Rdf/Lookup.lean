import ShaclExtract.Rdf.Graph

/-!
# ShaclExtract.Proofs.Rdf.Lookup

Looking up in a graph that is put together from others, or that has its quads in another order. One
way to put a graph together is to take, node by node, the quads that start there.
-/

namespace ShaclExtract
namespace Graph

variable {g qs : Graph}

theorem outgoing_append (qs qs' : Graph) (node : Term) :
    Graph.outgoing (qs ++ qs') node = qs.outgoing node ++ qs'.outgoing node :=
  List.filter_append ..

theorem outgoing_eq_nil {r : Resource} (h : ∀ q ∈ qs, q.subject ≠ r) :
    qs.outgoing r.toTerm = [] :=
  List.filter_eq_nil_iff.2 fun q hq => by
    simpa using fun hr => h q hq (Resource.toTerm_injective hr)

theorem objects_of_outgoing {node : Term} (h : (g.outgoing node).Perm qs) (i : Iri) :
    (g.objects node i).Perm ((qs.filter fun q => q.predicate = i).map Quad.object) :=
  (h.filter _).map _

theorem objects_eq_nil {r : Resource} (h : ∀ q ∈ qs, q.subject ≠ r) (i : Iri) :
    qs.objects r.toTerm i = [] := by
  rw [objects, outgoing_eq_nil h, List.filter_nil, List.map_nil]

theorem objects_of_perm (h : g.Perm qs) (node : Term) (i : Iri) :
    (g.objects node i).Perm (qs.objects node i) :=
  ((h.filter _).filter _).map _

theorem subjects_of_perm (h : g.Perm qs) (node : Term) (i : Iri) :
    (g.subjects node i).Perm (qs.subjects node i) :=
  (h.filter _).map _

theorem objects_append (qs qs' : Graph) (node : Term) (i : Iri) :
    (qs ++ qs').objects node i = qs.objects node i ++ qs'.objects node i := by
  simp only [objects, outgoing_append, List.filter_append, List.map_append]

theorem subjects_append (qs qs' : Graph) (node : Term) (i : Iri) :
    (qs ++ qs').subjects node i = qs.subjects node i ++ qs'.subjects node i := by
  simp only [subjects, List.filter_append, List.map_append]

theorem outgoing_literal (g : Graph) (l : Literal) : g.outgoing (.literal l) = [] :=
  List.filter_eq_nil_iff.2 fun q _ => by cases q.subject <;> simp [Resource.toTerm]

/-! ## the quads of several nodes -/

theorem outgoing_outgoing (g : Graph) (m n : Term) :
    Graph.outgoing (g.outgoing m) n = if n = m then g.outgoing n else [] := by
  split
  · rename_i hnm
    subst hnm
    exact List.filter_eq_self.2 fun q hq => (List.mem_filter.1 hq).2
  · rename_i hnm
    refine List.filter_eq_nil_iff.2 fun q hq hn => hnm ?_
    rw [← of_decide_eq_true hn, (mem_outgoing.1 hq).2]

theorem outgoing_flatMap (g : Graph) {nodes : List Term} (hnodes : nodes.Nodup) (n : Term) :
    Graph.outgoing (nodes.flatMap g.outgoing) n = if n ∈ nodes then g.outgoing n else [] := by
  induction nodes with
  | nil => rfl
  | cons m nodes ih =>
    obtain ⟨hm, hnodes⟩ := List.nodup_cons.1 hnodes
    rw [List.flatMap_cons, outgoing_append, outgoing_outgoing, ih hnodes]
    by_cases hnm : n = m
    · subst hnm
      simp [hm]
    · simp [hnm]

/-- Each quad that starts at one of the nodes is taken once. -/
theorem flatMap_outgoing_perm (g : Graph) {nodes : List Term} (hnodes : nodes.Nodup) :
    (nodes.flatMap g.outgoing).Perm (g.filter fun q => q.subject.toTerm ∈ nodes) := by
  induction nodes with
  | nil => simp
  | cons m nodes ih =>
    obtain ⟨hm, hnodes⟩ := List.nodup_cons.1 hnodes
    have hfirst : (g.filter fun q => q.subject.toTerm ∈ m :: nodes).filter
        (fun q => q.subject.toTerm = m) = g.outgoing m := by
      rw [List.filter_filter]
      exact List.filter_congr fun q _ => by simp +contextual
    have hothers : (g.filter fun q => q.subject.toTerm ∈ m :: nodes).filter
        (fun q => !decide (q.subject.toTerm = m)) =
          g.filter fun q => q.subject.toTerm ∈ nodes := by
      rw [List.filter_filter]
      refine List.filter_congr fun q _ => ?_
      by_cases hq : q.subject.toTerm = m
      · simp [hq, hm]
      · simp [hq]
    have hsplit := List.filter_append_perm (fun q => decide (q.subject.toTerm = m))
      (g.filter fun q => q.subject.toTerm ∈ m :: nodes)
    rw [hfirst, hothers] at hsplit
    exact ((ih hnodes).append_left (g.outgoing m)).trans hsplit

end Graph
end ShaclExtract
