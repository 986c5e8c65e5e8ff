import Mathlib.Data.List.Basic
import Mathlib.Logic.Embedding.Basic
import ShaclExtract.Rdf.Description

/-!
# ShaclExtract.Proofs.Rdf.Relabelling

Other labels for blank nodes. A relabelling `f : String ↪ String` gives every label a new one, and
no two labels the same. Whatever is looked up in a relabelled graph is the relabelled answer: the
quads of a node, its objects and subjects, its description. For a search does the same when its
nodes are sent elsewhere, no two to the same place (`Search.run_map`).
-/

namespace ShaclExtract

section definitions

variable (f : String ↪ String)

def Resource.relabelled : Resource → Resource
  | .iri i => .iri i
  | .blank b => .blank (f b)

def Term.relabelled : Term → Term
  | .iri i => .iri i
  | .blank b => .blank (f b)
  | .literal l => .literal l

def Quad.relabelled (q : Quad) : Quad :=
  ⟨q.subject.relabelled f, q.predicate, q.object.relabelled f, q.graph.map (Resource.relabelled f)⟩

def Graph.relabelled (g : Graph) : Graph := g.map (Quad.relabelled f)

def View.relabelled (v : View) : View := ⟨v.focus.relabelled f, v.graph.relabelled f⟩

end definitions

variable (f : String ↪ String)

/-! ## terms -/

theorem Resource.toTerm_relabelled (r : Resource) :
    (r.relabelled f).toTerm = r.toTerm.relabelled f := by
  cases r <;> rfl

namespace Term

theorem relabelled_injective : Function.Injective (relabelled f) := by
  intro t u h
  cases t <;> cases u <;> simp_all [relabelled]

@[simp] theorem relabelled_inj {t u : Term} : t.relabelled f = u.relabelled f ↔ t = u :=
  (relabelled_injective f).eq_iff

@[simp] theorem isBlank_relabelled (t : Term) : (t.relabelled f).isBlank = t.isBlank := by
  cases t <;> rfl

@[simp] theorem isLiteral_relabelled (t : Term) : (t.relabelled f).isLiteral = t.isLiteral := by
  cases t <;> rfl

@[simp] theorem iri?_relabelled (t : Term) : (t.relabelled f).iri? = t.iri? := by
  cases t <;> rfl

theorem relabelled_of_not_blank {t : Term} (h : t.isBlank = false) : t.relabelled f = t := by
  cases t with
  | iri i => rfl
  | blank b => cases h
  | literal l => rfl

theorem relabelled_eq_iri {t : Term} {i : Iri} : t.relabelled f = .iri i ↔ t = .iri i := by
  cases t <;> simp [relabelled]

end Term

/-! ## graphs -/

namespace Graph

theorem length_relabelled (g : Graph) : (g.relabelled f).length = g.length := List.length_map _

theorem outgoing_relabelled (g : Graph) (n : Term) :
    (g.relabelled f).outgoing (n.relabelled f) = (g.outgoing n).relabelled f := by
  simp [outgoing, relabelled, List.filter_map, Function.comp_def, Quad.relabelled,
    Resource.toTerm_relabelled]

theorem objects_relabelled (g : Graph) (n : Term) (i : Iri) :
    (g.relabelled f).objects (n.relabelled f) i = (g.objects n i).map (Term.relabelled f) := by
  have hpredicate : (fun q : Quad => decide (q.predicate = i)) ∘ Quad.relabelled f =
      fun q => decide (q.predicate = i) := rfl
  rw [objects, outgoing_relabelled, relabelled, List.filter_map, hpredicate, objects,
    List.map_map, List.map_map]
  rfl

theorem subjects_relabelled (g : Graph) (n : Term) (i : Iri) :
    (g.relabelled f).subjects (n.relabelled f) i = (g.subjects n i).map (Term.relabelled f) := by
  have hobject : (fun q : Quad => decide (q.predicate = i ∧ q.object = n.relabelled f)) ∘
      Quad.relabelled f = fun q => decide (q.predicate = i ∧ q.object = n) := by
    funext q
    exact decide_eq_decide.2 (by simp [Quad.relabelled])
  rw [subjects, relabelled, List.filter_map, hobject, subjects, List.map_map, List.map_map]
  exact List.map_congr_left fun q _ => q.subject.toTerm_relabelled f

theorem object?_relabelled (g : Graph) (n : Term) (i : Iri) :
    (g.relabelled f).object? (n.relabelled f) i = (g.object? n i).map (Term.relabelled f) := by
  rw [object?, objects_relabelled, List.head?_map, object?]

theorem hasType_relabelled (g : Graph) (n : Term) (cls : Iri) :
    (g.relabelled f).hasType (n.relabelled f) cls = g.hasType n cls := by
  rw [hasType, types, objects_relabelled, hasType, types, Bool.eq_iff_iff, List.contains_iff_mem,
    List.contains_iff_mem, List.mem_map]
  simp only [Term.relabelled_eq_iri, exists_eq_right]

theorem terms_relabelled (g : Graph) :
    (g.relabelled f).terms = g.terms.map (Term.relabelled f) := by
  simp [terms, relabelled, List.flatMap_map, List.map_flatMap, Quad.relabelled,
    Resource.toTerm_relabelled]

end Graph

theorem View.types_relabelled (v : View) :
    (v.relabelled f).types = v.types.map (Term.relabelled f) :=
  v.graph.objects_relabelled f v.focus _

/-! ## searches -/

namespace Search

variable {α β ε : Type} [DecidableEq α] [DecidableEq β] (h : α ↪ β)

theorem filter_ne_map (x : α) (l : List α) :
    (l.map h).filter (fun y => y ≠ h x) = (l.filter fun y => y ≠ x).map h := by
  simp [List.filter_map, Function.comp_def]

theorem discover_map (xs unmet : List α) : discover (xs.map h) (unmet.map h) =
    ((discover xs unmet).1.map h, (discover xs unmet).2.map h) := by
  induction xs generalizing unmet with
  | nil => rfl
  | cons x xs ih =>
    by_cases hx : x ∈ unmet
    · rw [List.map_cons, discover, if_pos (List.mem_map_of_mem hx), discover, if_pos hx,
        filter_ne_map, ih]
      rfl
    · have hx' : h x ∉ unmet.map h := by rwa [List.mem_map_of_injective h.injective]
      rw [List.map_cons, discover, if_neg hx', discover, if_neg hx, ih]

theorem run_map {step : α → List α} {step' : β → List β}
    (hstep : ∀ x, step' (h x) = (step x).map h) (queue unmet : List α) :
    run step' (queue.map h) (unmet.map h) = (run step queue unmet).map h := by
  fun_induction run step queue unmet with
  | case1 unmet => rw [List.map_nil, run]
  | case2 unmet x queue found ih =>
    rw [List.map_cons, run, hstep, discover_map, List.map_cons, ← ih, List.map_append]

theorem tryRun_map {step : α → Except ε (List α)} {step' : β → Except ε (List β)}
    (hstep : ∀ x, step' (h x) = (step x).map (List.map h)) (queue unmet : List α) :
    tryRun step' (queue.map h) (unmet.map h) = (tryRun step queue unmet).map (List.map h) := by
  fun_induction tryRun step queue unmet with
  | case1 unmet =>
    rw [List.map_nil, tryRun]
    rfl
  | case2 unmet x queue e he =>
    rw [List.map_cons, tryRun, hstep, he]
    rfl
  | case3 unmet x queue next hnext found e he ih =>
    rw [List.map_cons, tryRun, hstep, hnext]
    simp only [Except.map, discover_map, ← List.map_append]
    rw [ih, he]
    rfl
  | case4 unmet x queue next hnext found rest hrest ih =>
    rw [List.map_cons, tryRun, hstep, hnext]
    simp only [Except.map, discover_map, ← List.map_append]
    rw [ih, hrest]
    rfl

theorem reach_map {step : α → List α} {step' : β → List β}
    (hstep : ∀ x, step' (h x) = (step x).map h) (nodes : List α) (x : α) :
    reach step' (nodes.map h) (h x) = (reach step nodes x).map h := by
  rw [reach, filter_ne_map, reach, ← run_map h hstep, List.map_singleton]

theorem tryReach_map {step : α → Except ε (List α)} {step' : β → Except ε (List β)}
    (hstep : ∀ x, step' (h x) = (step x).map (List.map h)) (nodes : List α) (x : α) :
    tryReach step' (nodes.map h) (h x) = (tryReach step nodes x).map (List.map h) := by
  rw [tryReach, filter_ne_map, tryReach, ← tryRun_map h hstep, List.map_singleton]

theorem tryReachBeyond_map {step : α → Except ε (List α)} {step' : β → Except ε (List β)}
    (hstep : ∀ x, step' (h x) = (step x).map (List.map h)) (nodes : List α) (x : α) :
    tryReachBeyond step' (nodes.map h) (h x) =
      (tryReachBeyond step nodes x).map (List.map h) := by
  have hbeyond : ∀ y, (if h y = h x then .ok [] else step' (h y)) =
      (if y = x then .ok [] else step y).map (List.map h) := by
    intro y
    by_cases hy : y = x
    · rw [if_pos (congrArg h hy), if_pos hy]
      rfl
    · rw [if_neg fun heq => hy (h.injective heq), if_neg hy, hstep]
  rw [tryReachBeyond, hstep, tryReachBeyond]
  cases step x with
  | error e => rfl
  | ok next =>
    simp only [Except.map, discover_map]
    exact tryRun_map (ε := ε) h hbeyond _ _

end Search

/-! ## descriptions -/

def Term.relabelling : Term ↪ Term := ⟨relabelled f, relabelled_injective f⟩

namespace Graph

theorem blankObjects_relabelled (g : Graph) (n : Term) :
    (g.relabelled f).blankObjects (n.relabelled f) =
      (g.blankObjects n).map (Term.relabelled f) := by
  have hblank : Term.isBlank ∘ Term.relabelled f = Term.isBlank := by
    funext t
    exact t.isBlank_relabelled f
  have hobjects : ((g.outgoing n).relabelled f).map Quad.object =
      ((g.outgoing n).map Quad.object).map (Term.relabelled f) := by
    rw [relabelled, List.map_map, List.map_map]
    rfl
  rw [blankObjects, outgoing_relabelled, hobjects, List.filter_map, hblank, blankObjects]

theorem described_relabelled (g : Graph) (n : Term) :
    (g.relabelled f).described (n.relabelled f) = (g.described n).map (Term.relabelled f) := by
  rw [described, terms_relabelled]
  exact Search.reach_map (Term.relabelling f) (g.blankObjects_relabelled f) g.terms n

theorem description_relabelled (g : Graph) (n : Term) :
    (g.relabelled f).description (n.relabelled f) = (g.description n).relabelled f := by
  rw [description, described_relabelled, description, List.flatMap_map]
  exact (List.flatMap_congr fun m _ => g.outgoing_relabelled f m).trans List.map_flatMap.symm

end Graph

end ShaclExtract
