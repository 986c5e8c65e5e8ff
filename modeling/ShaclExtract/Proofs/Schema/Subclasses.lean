import Mathlib.Data.List.Chain
import Mathlib.Data.List.Perm.Subperm
import ShaclExtract.Proofs.Schema.Registration
import ShaclExtract.Proofs.Search.Reachability
import ShaclExtract.Subclasses

/-!
# ShaclExtract.Proofs.Schema.Subclasses

Subclass links and the chains along them. Links are read from a graph and may be overwritten one by
one afterwards; a class keeps the parent that was written last (`Subclasses.parent?_written`).

A search whose steps lead to one node at most goes along a line (`Search.isChain_run`), so a chain
lists its class, the parent of that, and so on. On a cycle it ends before the class that it would
list a second time, and by then it has listed all ancestors (`Subclasses.chain_written`).
-/

namespace ShaclExtract

open Relation

/-! ## searches along a line -/

namespace Search

variable {α : Type} [DecidableEq α]

theorem head?_run (step : α → List α) (queue unmet : List α) :
    (run step queue unmet).head? = queue.head? := by
  cases queue <;> simp [run]

theorem length_discover_toList (o : Option α) (unmet : List α) :
    (discover o.toList unmet).1.length ≤ 1 := by
  cases o with
  | none => exact Nat.zero_le 1
  | some x => by_cases h : x ∈ unmet <;> simp [discover, h]

/-- With one successor at most, each node that is found is the successor of the one before it. -/
theorem isChain_run {next : α → Option α} {queue unmet : List α} (hqueue : queue.length ≤ 1) :
    (run (fun x => (next x).toList) queue unmet).IsChain fun a b => next a = some b := by
  fun_induction run (fun x => (next x).toList) queue unmet with
  | case1 unmet => exact .nil
  | case2 unmet x queue found ih =>
    have hrest : queue = [] := by simpa using hqueue
    subst hrest
    refine List.isChain_cons.2 ⟨fun b hb => ?_, ih (length_discover_toList (next x) unmet)⟩
    rw [head?_run] at hb
    have hfound : b ∈ found.1 := List.mem_of_mem_head? hb
    exact Option.mem_toList.1 ((mem_discover _ _).1 hfound).1

end Search

/-! ## the parent of a class -/

/-- The parent in the last link of a class; links count only between IRIs. -/
def Graph.declaredParent? (g : Graph) (cls : Iri) : Option Iri :=
  ((g.filter fun q => q.predicate = Rdfs.subClassOf ∧ q.subject = .iri cls).filterMap
    fun q => q.object.iri?).getLast?

namespace Subclasses

variable {s : Subclasses} {cls : Iri}

def written (s : Subclasses) (links : List (Iri × Iri)) : Subclasses :=
  links.foldl (fun s e => s.insert e.1 e.2) s

theorem parents_written (s : Subclasses) (links : List (Iri × Iri)) :
    (s.written links).parents = links.foldl (fun t e => t.insert e.1 e.2) s.parents := by
  induction links generalizing s with
  | nil => rfl
  | cons e links ih => exact ih (s.insert e.1 e.2)

theorem links_of_class (g : Graph) (cls : Iri) :
    ((g.filterMap link?).filter fun e => e.1 = cls).map Prod.snd =
      (g.filter fun q => q.predicate = Rdfs.subClassOf ∧ q.subject = .iri cls).filterMap
        fun q => q.object.iri? := by
  induction g with
  | nil => rfl
  | cons q g ih =>
    obtain ⟨subject, predicate, object, graph⟩ := q
    by_cases hpred : predicate = Rdfs.subClassOf
    · cases subject with
      | blank b => simpa [link?, hpred] using ih
      | iri c =>
        by_cases hc : c = cls <;> cases object <;> simpa [link?, hpred, hc, Term.iri?] using ih
    · simpa [link?, hpred] using ih

theorem parent?_ofGraph (g : Graph) (cls : Iri) :
    (ofGraph g).parent? cls = g.declaredParent? cls := by
  rw [parent?, ofGraph, Table.ofList, Table.get?_foldl_insert, Table.get?_empty, Option.or_none,
    Table.lastWritten, ← List.getLast?_map, links_of_class, Graph.declaredParent?]

theorem parent?_written (s : Subclasses) (links : List (Iri × Iri)) (cls : Iri) :
    (s.written links).parent? cls = (Table.lastWritten cls links).or (s.parent? cls) := by
  rw [parent?, parents_written, Table.get?_foldl_insert, parent?]

/-! ## chains -/

def Up (s : Subclasses) (c p : Iri) : Prop := s.parent? c = some p

theorem Up.mem_values {c p : Iri} (h : s.Up c p) : p ∈ s.parents.values :=
  List.mem_map.2 ⟨(c, p), Table.mem_of_lookup h, rfl⟩

theorem mem_chain {c : Iri} : c ∈ s.chain cls ↔ ReflTransGen s.Up cls c := by
  have hstep : ∀ a, ∀ b ∈ (s.parent? a).toList, b = a ∨ b ∈ s.parents.values :=
    fun a b hb => .inr (Up.mem_values (Option.mem_toList.1 hb))
  have hup : (fun a b => b ∈ (s.parent? a).toList) = s.Up := by
    funext a b
    exact propext Option.mem_toList
  rw [chain, Search.mem_reach hstep, hup]

theorem head?_chain (s : Subclasses) (cls : Iri) : (s.chain cls).head? = some cls :=
  Search.head?_reach _ _ _

theorem nodup_chain (s : Subclasses) (cls : Iri) : (s.chain cls).Nodup :=
  Search.nodup_reach _ _ _

theorem isChain_chain (s : Subclasses) (cls : Iri) : (s.chain cls).IsChain s.Up :=
  Search.isChain_run (Nat.le_refl 1)

theorem length_chain (s : Subclasses) (cls : Iri) : (s.chain cls).length ≤ s.size + 1 := by
  obtain ⟨tail, htail⟩ := List.head?_eq_some_iff.1 (s.head?_chain cls)
  have hnodup := s.nodup_chain cls
  rw [htail, List.nodup_cons] at hnodup
  have hvalues : tail ⊆ s.parents.values := fun c hc => by
    have hmem : c ∈ s.chain cls := htail ▸ List.mem_cons_of_mem _ hc
    rcases Search.eq_or_mem_of_mem_reach hmem with rfl | h
    · exact absurd hc hnodup.1
    · exact h
  have hlength : s.parents.values.length = s.size := List.length_map _
  rw [htail, List.length_cons, ← hlength]
  exact Nat.succ_le_succ (List.subperm_of_subset hnodup.2 hvalues).length_le

/--
Links of a graph, overwritten by others: the parent of a class is the one that was written last, and
its chain is the class with all its ancestors, each once and each the parent of the one before it.
-/
theorem chain_written (g : Graph) (links : List (Iri × Iri)) (cls : Iri) :
    ((ofGraph g).written links).parent? cls =
      (Table.lastWritten cls links).or (g.declaredParent? cls) ∧
    (((ofGraph g).written links).chain cls).length ≤ ((ofGraph g).written links).size + 1 ∧
    (((ofGraph g).written links).chain cls).head? = some cls ∧
    (((ofGraph g).written links).chain cls).Nodup ∧
    (((ofGraph g).written links).chain cls).IsChain
      (fun c p => ((ofGraph g).written links).parent? c = some p) ∧
    ∀ c, c ∈ ((ofGraph g).written links).chain cls ↔
      ReflTransGen (fun c p => ((ofGraph g).written links).parent? c = some p) cls c := by
  refine ⟨?_, length_chain _ _, head?_chain _ _, nodup_chain _ _, isChain_chain _ _,
    fun c => mem_chain⟩
  rw [parent?_written, parent?_ofGraph]

/-- A cycle that is entered from outside. -/
example : ((empty.written [(⟨"A"⟩, ⟨"B"⟩), (⟨"B"⟩, ⟨"C"⟩), (⟨"C"⟩, ⟨"B"⟩)]).chain ⟨"A"⟩) =
    [⟨"A"⟩, ⟨"B"⟩, ⟨"C"⟩] := by
  cbv

end Subclasses
end ShaclExtract
