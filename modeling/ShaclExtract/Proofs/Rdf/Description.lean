import ShaclExtract.Proofs.Rdf.Lookup
import ShaclExtract.Proofs.Search.BreadthFirst
import ShaclExtract.Rdf.Description

/-!
# ShaclExtract.Proofs.Rdf.Description

What the concise bounded description of a node consists of. It covers the least set of nodes that
has the focus and, with a node, every blank node among its objects (`Graph.Covered`). The search for
them is a breadth-first one, so they are met nearest first and listed once, and the description has
the quads of each, in the order of the graph (`Graph.description_exact`).

A description is determined by the quads of the nodes that it covers (`Graph.description_congr`),
and has all of these. So nothing is lost in it, and its own description is the same.
-/

namespace ShaclExtract

namespace Graph

/-- The focus, and the blank nodes that quads of covered nodes lead to. -/
inductive Covered (g : Graph) (focus : Term) : Term → Prop where
  | focus : Covered g focus focus
  | object {q : Quad} : q ∈ g → Covered g focus q.subject.toTerm → q.object.isBlank = true →
      Covered g focus q.object

variable {g g' : Graph} {focus n : Term}

/-! ## covered nodes -/

theorem mem_blankObjects {node o : Term} :
    o ∈ g.blankObjects node ↔
      ∃ q ∈ g, q.subject.toTerm = node ∧ q.object = o ∧ o.isBlank = true := by
  simp only [blankObjects, List.mem_filter, List.mem_map, mem_outgoing]
  constructor
  · rintro ⟨⟨q, ⟨hq, hsubject⟩, rfl⟩, hblank⟩
    exact ⟨q, hq, hsubject, rfl, hblank⟩
  · rintro ⟨q, hq, hsubject, rfl, hblank⟩
    exact ⟨⟨q, ⟨hq, hsubject⟩, rfl⟩, hblank⟩

theorem blankObjects_within (g : Graph) :
    ∀ node, ∀ o ∈ g.blankObjects node, o = node ∨ o ∈ g.terms := by
  intro node o ho
  obtain ⟨q, hq, -, rfl, -⟩ := mem_blankObjects.1 ho
  exact .inr (object_mem_terms hq)

theorem mem_described : n ∈ g.described focus ↔ g.Covered focus n := by
  rw [described, Search.mem_reach g.blankObjects_within]
  constructor
  · intro h
    induction h with
    | refl => exact .focus
    | tail _ hstep ih =>
      obtain ⟨q, hq, rfl, rfl, hblank⟩ := mem_blankObjects.1 hstep
      exact .object hq ih hblank
  · intro h
    induction h with
    | focus => exact .refl
    | object hq _ hblank ih => exact ih.tail (mem_blankObjects.2 ⟨_, hq, rfl, rfl, hblank⟩)

theorem nodup_described (g : Graph) (focus : Term) : (g.described focus).Nodup :=
  Search.nodup_reach _ _ _

theorem flatMap_blankObjects (g : Graph) (nodes : List Term) :
    nodes.flatMap g.blankObjects =
      ((nodes.flatMap g.outgoing).map Quad.object).filter Term.isBlank := by
  rw [List.map_flatMap, List.filter_flatMap]
  rfl

theorem description_subset (g : Graph) (focus : Term) : g.description focus ⊆ g := by
  intro q hq
  obtain ⟨n, -, hq⟩ := List.mem_flatMap.1 hq
  exact (mem_outgoing.1 hq).1

theorem described_eq_eraseDups (g : Graph) (focus : Term) :
    g.described focus =
      (focus :: ((g.description focus).map Quad.object).filter Term.isBlank).eraseDups := by
  rw [description, ← flatMap_blankObjects]
  exact Search.reach_eq_eraseDups g.blankObjects_within focus

/-! ## the same description -/

theorem outgoing_description (g : Graph) (focus n : Term) :
    (g.description focus).outgoing n = if n ∈ g.described focus then g.outgoing n else [] :=
  outgoing_flatMap g (g.nodup_described focus) n

/-- The same nodes are met in a graph where they have the same quads. -/
theorem described_congr (h : ∀ n ∈ g.described focus, g'.outgoing n = g.outgoing n) :
    g'.described focus = g.described focus := by
  have hstep : ∀ x ∈ g.described focus, g'.blankObjects x = g.blankObjects x ∧
      ∀ y ∈ g.blankObjects x, y ∈ g.described focus := by
    refine fun x hx => ⟨by rw [blankObjects, h x hx, blankObjects], fun y hy => ?_⟩
    obtain ⟨q, hq, rfl, rfl, hblank⟩ := mem_blankObjects.1 hy
    exact mem_described.2 (.object hq (mem_described.1 hx) hblank)
  have hterms : ∀ y ∈ g.described focus,
      (y ∈ g'.terms.filter (fun y => y ≠ focus) ↔ y ∈ g.terms.filter fun y => y ≠ focus) := by
    intro y hy
    cases mem_described.1 hy with
    | focus => simp
    | @object q hq hsubject _ =>
      have hout : q ∈ g'.outgoing q.subject.toTerm := by
        rw [h _ (mem_described.2 hsubject)]
        exact mem_outgoing.2 ⟨hq, rfl⟩
      have hq' : q ∈ g' := (mem_outgoing.1 hout).1
      simp [object_mem_terms hq, object_mem_terms hq']
  have hfocus : ∀ x ∈ [focus], x ∈ g.described focus := fun x hx =>
    List.mem_singleton.1 hx ▸ mem_described.2 .focus
  exact (Search.run_congr hstep hfocus hterms).1

theorem description_congr (h : ∀ n ∈ g.described focus, g'.outgoing n = g.outgoing n) :
    g'.description focus = g.description focus := by
  rw [description, described_congr h, description]
  exact List.flatMap_congr h

/-- A description consists of all quads of the covered nodes, taken node by node in the order in
which breadth-first search meets them. Each quad of the graph that starts at a covered node stands
in it once, none else does, and so the covered nodes keep their quads and the description of the
focus is its own description. -/
theorem description_exact (g : Graph) (focus : Term) :
    ∃ nodes : List Term,
      nodes.Nodup ∧
      (∀ n, n ∈ nodes ↔ g.Covered focus n) ∧
      nodes = (focus :: ((g.description focus).map Quad.object).filter Term.isBlank).eraseDups ∧
      nodes.Pairwise (Search.NoFarther (fun m n => n ∈ g.blankObjects m) [focus] 0) ∧
      g.description focus = nodes.flatMap g.outgoing ∧
      (g.description focus).Perm (g.filter fun q => q.subject.toTerm ∈ nodes) ∧
      (∀ n ∈ nodes, (View.bounded focus g).graph.outgoing n = g.outgoing n) ∧
      (g.description focus).description focus = g.description focus := by
  have hnodup := g.nodup_described focus
  have hkept : ∀ n ∈ g.described focus, (g.description focus).outgoing n = g.outgoing n :=
    fun n hn => by rw [outgoing_description, if_pos hn]
  exact ⟨g.described focus, hnodup, fun n => mem_described, g.described_eq_eraseDups focus,
    Search.pairwise_reach g.blankObjects_within focus, rfl, g.flatMap_outgoing_perm hnodup, hkept,
    description_congr hkept⟩

/-- Blank nodes that refer to each other, and a quad that is listed twice. -/
example :
    description
      [⟨.blank "y", ⟨"p"⟩, .blank "x", none⟩, ⟨.blank "x", ⟨"p"⟩, .blank "y", none⟩,
        ⟨.iri ⟨"a"⟩, ⟨"p"⟩, .blank "x", none⟩, ⟨.blank "y", ⟨"p"⟩, .blank "x", none⟩]
      (.blank "x") =
    [⟨.blank "x", ⟨"p"⟩, .blank "y", none⟩, ⟨.blank "y", ⟨"p"⟩, .blank "x", none⟩,
      ⟨.blank "y", ⟨"p"⟩, .blank "x", none⟩] := by
  cbv

end Graph
end ShaclExtract
