import Mathlib.Data.List.Basic
import ShaclExtract.Path.Grammar
import ShaclExtract.Path.Sparql
import ShaclExtract.Proofs.Path.Writing

/-!
# ShaclExtract.Proofs.Path.Spelling

The terminals of a path that is written in SPARQL. A text spells one list of terminals at most
(`Sparql.Spells.unique`), as a terminal shows by its first character, and an IRI reference by its
closing bracket, where it ends. So two paths that are written alike have the same terminals
(`terminals_eq_of_toSparql_eq`).
-/

namespace ShaclExtract
namespace Sparql

/-! ## texts and terminals -/

/-- An IRI reference that ends where its closing bracket says. -/
def Terminal.Closed : Terminal → Prop
  | .iriRef text => '>' ∉ text
  | _ => True

/-- What stands before a character for the first time, and what stands behind it. -/
theorem append_cons_inj {α : Type} {c : α} {xs ys s s' : List α} (hx : c ∉ xs) (hy : c ∉ ys)
    (h : xs ++ c :: s = ys ++ c :: s') : xs = ys ∧ s = s' := by
  induction xs generalizing ys with
  | nil =>
    cases ys with
    | nil => exact ⟨rfl, (List.cons.inj h).2⟩
    | cons y ys => exact absurd ((List.cons.inj h).1 ▸ List.mem_cons_self) hy
  | cons x xs ih =>
    cases ys with
    | nil => exact absurd ((List.cons.inj h).1 ▸ List.mem_cons_self) hx
    | cons y ys =>
      obtain ⟨rfl, hrest⟩ := List.cons.inj h
      obtain ⟨rfl, rfl⟩ :=
        ih (mt (List.mem_cons_of_mem _) hx) (mt (List.mem_cons_of_mem _) hy) hrest
      exact ⟨rfl, rfl⟩

theorem text_append_inj {t u : Terminal} {s s' : List Char} (ht : t.Closed) (hu : u.Closed)
    (h : t.text ++ s = u.text ++ s') : t = u ∧ s = s' := by
  cases t with
  | iriRef text =>
    cases u with
    | iriRef text' =>
      simp only [Terminal.text, List.cons_append, List.append_assoc, List.nil_append,
        List.cons.injEq, true_and] at h
      obtain ⟨rfl, rfl⟩ := append_cons_inj ht hu h
      exact ⟨rfl, rfl⟩
    | mark m => cases m <;> simp [Terminal.text, Mark.char] at h
    | _ => simp [Terminal.text] at h
  | mark m =>
    cases u with
    | mark m' => cases m <;> cases m' <;> simp_all [Terminal.text, Mark.char]
    | _ => cases m <;> simp [Terminal.text, Mark.char] at h
  | _ =>
    cases u with
    | mark m => cases m <;> simp [Terminal.text, Mark.char] at h
    | _ => simp_all [Terminal.text]

theorem Terminal.text_ne_white {t : Terminal} {c : Char} {s s' : List Char}
    (hc : isWhite c = true) : t.text ++ s ≠ c :: s' := by
  intro h
  have hhead : ∃ d rest, t.text = d :: rest ∧ isWhite d = false := by
    cases t with
    | mark m => cases m <;> exact ⟨_, _, rfl, rfl⟩
    | _ => exact ⟨_, _, rfl, rfl⟩
  obtain ⟨d, rest, htext, hd⟩ := hhead
  rw [htext, List.cons_append, List.cons.injEq] at h
  rw [← h.1, hd] at hc
  cases hc

theorem Terminal.text_append_ne_nil (t : Terminal) (s : List Char) : t.text ++ s ≠ [] := by
  cases t <;> simp [Terminal.text]

/-- A text spells one list of terminals. -/
theorem Spells.unique {s : List Char} {ts us : List Terminal} (hts : ∀ t ∈ ts, t.Closed)
    (hus : ∀ t ∈ us, t.Closed) (h : Spells s ts) (h' : Spells s us) : ts = us := by
  induction h generalizing us with
  | nil =>
    generalize hs : ([] : List Char) = s at h'
    cases h' with
    | nil => rfl
    | white _ _ => cases hs
    | terminal t _ => exact absurd hs.symm (t.text_append_ne_nil _)
  | @white c s ts hc _ ih =>
    generalize hs : c :: s = s' at h'
    cases h' with
    | nil => cases hs
    | white _ h' =>
      cases hs
      exact ih hts hus h'
    | terminal t _ => exact absurd hs.symm (Terminal.text_ne_white hc)
  | @terminal s ts t _ ih =>
    generalize hs : t.text ++ s = s' at h'
    cases h' with
    | nil => exact absurd hs (t.text_append_ne_nil _)
    | white hc _ => exact absurd hs (Terminal.text_ne_white hc)
    | @terminal s' us u h' =>
      obtain ⟨ht, hrest⟩ := List.forall_mem_cons.1 hts
      obtain ⟨hu, hrest'⟩ := List.forall_mem_cons.1 hus
      obtain ⟨rfl, rfl⟩ := text_append_inj ht hu hs
      rw [ih hrest hrest' h']

theorem Spells.append {s s' : List Char} {ts us : List Terminal} (h : Spells s ts)
    (h' : Spells s' us) : Spells (s ++ s') (ts ++ us) := by
  induction h with
  | nil => exact h'
  | white hc _ ih => exact .white hc ih
  | terminal t _ ih =>
    rw [List.append_assoc]
    exact .terminal t ih

theorem spells_single (t : Terminal) : Spells t.text [t] := by
  simpa using Spells.terminal t .nil

end Sparql

/-! ## written paths -/

namespace Path

open Sparql (Terminal Spells)

def separated (separator : Terminal) : List (List Terminal) → List Terminal
  | [] => []
  | [ts] => ts
  | ts :: us :: more => ts ++ separator :: separated separator (us :: more)

mutual

/-- The terminals that the written form of a path spells. -/
def terminals : Path → List Terminal
  | .predicate i => [.iriRef i.text.toList]
  | .inverse p => .caret :: terminals p
  | .sequence [] => [.opening, .bang, .iriRef [], .closing, .mark .zeroOrOne]
  | .sequence [p] => terminals p
  | .sequence (p :: q :: ps) =>
    .opening :: (separated .slash (terminalsOfAll (p :: q :: ps)) ++ [.closing])
  | .alternative ps => .opening :: (separated .bar (terminalsOfAll ps) ++ [.closing])
  | .zeroOrMore p => terminals p ++ [.mark .zeroOrMore]
  | .oneOrMore p => terminals p ++ [.mark .oneOrMore]
  | .zeroOrOne p => terminals p ++ [.mark .zeroOrOne]

def terminalsOfAll : List Path → List (List Terminal)
  | [] => []
  | p :: ps => terminals p :: terminalsOfAll ps

end

theorem terminalsOfAll_eq_map (ps : List Path) : terminalsOfAll ps = ps.map terminals := by
  induction ps with
  | nil => rfl
  | cons p ps ih => rw [terminalsOfAll, ih, List.map_cons]

theorem sparqlAll_eq_map (ps : List Path) : sparqlAll ps = ps.map sparql := by
  induction ps with
  | nil => rfl
  | cons p ps ih => rw [sparqlAll, ih, List.map_cons]

theorem spells_joined {t : Terminal} {separator : List Char}
    (hsep : separator = ' ' :: t.text ++ [' ']) {ps : List Path}
    (h : ∀ p ∈ ps, Spells (sparql p) (terminals p)) :
    Spells (joined separator (ps.map sparql)) (separated t (ps.map terminals)) := by
  induction ps with
  | nil => exact .nil
  | cons p ps ih =>
    obtain ⟨hp, hps⟩ := List.forall_mem_cons.1 h
    cases ps with
    | nil => exact hp
    | cons q ps =>
      have hwhite : Sparql.isWhite ' ' = true := rfl
      have hrest := hp.append (.white hwhite (.terminal t (.white hwhite (ih hps))))
      simpa only [List.map_cons, joined, separated, hsep, List.append_assoc, List.cons_append,
        List.nil_append] using hrest

theorem spells_group {t : Terminal} {separator : List Char}
    (hsep : separator = ' ' :: t.text ++ [' ']) {ps : List Path}
    (h : ∀ p ∈ ps, Spells (sparql p) (terminals p)) :
    Spells ('(' :: (joined separator (sparqlAll ps) ++ [')']))
      (.opening :: (separated t (terminalsOfAll ps) ++ [.closing])) := by
  rw [sparqlAll_eq_map, terminalsOfAll_eq_map]
  exact .terminal .opening ((spells_joined hsep h).append (Sparql.spells_single .closing))

mutual

theorem spells_sparql : ∀ p : Path, Spells (sparql p) (terminals p)
  | .predicate i => by
    rw [sparql, terminals]
    exact Sparql.spells_single (.iriRef i.text.toList)
  | .inverse p => by
    rw [sparql, terminals]
    exact .terminal .caret (spells_sparql p)
  | .sequence [] => by
    rw [sparql, terminals]
    exact .terminal .opening (.terminal .bang (.terminal (.iriRef []) (.terminal .closing
      (Sparql.spells_single (.mark .zeroOrOne)))))
  | .sequence [p] => by
    rw [sparql, terminals]
    exact spells_sparql p
  | .sequence (p :: q :: ps) => by
    rw [sparql, terminals]
    exact spells_group (t := .slash) rfl (spells_sparqlAll (p :: q :: ps))
  | .alternative ps => by
    rw [sparql, terminals]
    exact spells_group (t := .bar) rfl (spells_sparqlAll ps)
  | .zeroOrMore p => by
    rw [sparql, terminals]
    exact (spells_sparql p).append (Sparql.spells_single (.mark .zeroOrMore))
  | .oneOrMore p => by
    rw [sparql, terminals]
    exact (spells_sparql p).append (Sparql.spells_single (.mark .oneOrMore))
  | .zeroOrOne p => by
    rw [sparql, terminals]
    exact (spells_sparql p).append (Sparql.spells_single (.mark .zeroOrOne))

theorem spells_sparqlAll : ∀ ps : List Path, ∀ p ∈ ps, Spells (sparql p) (terminals p)
  | [] => fun _ h => absurd h List.not_mem_nil
  | p :: ps => List.forall_mem_cons.2 ⟨spells_sparql p, spells_sparqlAll ps⟩

end

/-! ## IRIs that end where they are closed -/

theorem forall_mem_separated {P : Terminal → Prop} {separator : Terminal} (hsep : P separator)
    {tss : List (List Terminal)} (h : ∀ ts ∈ tss, ∀ t ∈ ts, P t) :
    ∀ t ∈ separated separator tss, P t := by
  induction tss with
  | nil => simp [separated]
  | cons ts tss ih =>
    obtain ⟨hts, hrest⟩ := List.forall_mem_cons.1 h
    cases tss with
    | nil => exact hts
    | cons us more =>
      rw [separated, List.forall_mem_append, List.forall_mem_cons]
      exact ⟨hts, hsep, ih hrest⟩

theorem closed_group (t : Terminal) (ht : t.Closed) {ps : List Path}
    (h : ∀ ts ∈ terminalsOfAll ps, ∀ t ∈ ts, t.Closed) :
    ∀ u ∈ .opening :: (separated t (terminalsOfAll ps) ++ [.closing]), u.Closed := by
  rw [List.forall_mem_cons, List.forall_mem_append, List.forall_mem_singleton]
  exact ⟨trivial, forall_mem_separated ht h, trivial⟩

theorem closed_marked {ts : List Terminal} (h : ∀ t ∈ ts, t.Closed) (m : Sparql.Mark) :
    ∀ t ∈ ts ++ [.mark m], t.Closed := by
  rw [List.forall_mem_append, List.forall_mem_singleton]
  exact ⟨h, trivial⟩

mutual

theorem closed_terminals : ∀ p : Path, (∀ i ∈ p.iris, '>' ∉ i.text.toList) →
    ∀ t ∈ terminals p, t.Closed
  | .predicate i, h => by
    rw [terminals, List.forall_mem_singleton]
    exact h i (List.mem_singleton_self i)
  | .inverse p, h => by
    rw [terminals, List.forall_mem_cons]
    exact ⟨trivial, closed_terminals p h⟩
  | .sequence [], h => by simp [terminals, Terminal.Closed]
  | .sequence [p], h => by
    rw [terminals]
    exact closed_terminalsOfAll [p] h _ List.mem_cons_self
  | .sequence (p :: q :: ps), h => by
    rw [terminals]
    exact closed_group .slash trivial (closed_terminalsOfAll (p :: q :: ps) h)
  | .alternative ps, h => by
    rw [terminals]
    exact closed_group .bar trivial (closed_terminalsOfAll ps h)
  | .zeroOrMore p, h => by
    rw [terminals]
    exact closed_marked (closed_terminals p h) _
  | .oneOrMore p, h => by
    rw [terminals]
    exact closed_marked (closed_terminals p h) _
  | .zeroOrOne p, h => by
    rw [terminals]
    exact closed_marked (closed_terminals p h) _

theorem closed_terminalsOfAll : ∀ ps : List Path, (∀ i ∈ irisOfAll ps, '>' ∉ i.text.toList) →
    ∀ ts ∈ terminalsOfAll ps, ∀ t ∈ ts, t.Closed
  | [], _ => by simp [terminalsOfAll]
  | p :: ps, h => by
    rw [irisOfAll, List.forall_mem_append] at h
    rw [terminalsOfAll, List.forall_mem_cons]
    exact ⟨closed_terminals p h.1, closed_terminalsOfAll ps h.2⟩

end

theorem terminals_eq_of_toSparql_eq {p q : Path} (hp : ∀ i ∈ p.iris, '>' ∉ i.text.toList)
    (hq : ∀ i ∈ q.iris, '>' ∉ i.text.toList) (h : p.toSparql = q.toSparql) :
    terminals p = terminals q := by
  have hs : sparql p = sparql q := String.ofList_injective h
  exact Spells.unique (closed_terminals p hp) (closed_terminals q hq) (spells_sparql p)
    (hs ▸ spells_sparql q)

end Path
end ShaclExtract
