import ShaclExtract.Proofs.Path.Readability
import ShaclExtract.Proofs.Path.Rewriting

/-!
# ShaclExtract.Proofs.Path.Legibility

Which of the paths that are read are written as SPARQL has them (`isPropertyPath_iff_legible`):
those in which every alternative has a branch and no mark comes right behind another one
(`Path.legible`). The grammar has no empty group, and room for one mark behind a primary.

That the others are not is seen by one scan along the terminals, which remembers what has just been
read (`Sparql.State`): it gets through all that the grammar derives (`Sparql.scanned_of_derives`),
but neither through two marks nor through an empty group (`Path.scan_terminals`).
-/

namespace ShaclExtract
namespace Sparql

/-! ## scanning terminals -/

/-- What has been read last. -/
inductive State where
  /-- A primary has to follow. -/
  | wanting
  /-- A primary. -/
  | done
  | marked
  /-- A negation. -/
  | negating
  /-- A negated set that is still open. -/
  | inSet
deriving DecidableEq, Repr

def State.next : State → Terminal → Option State
  | .wanting, .iriRef _ => some .done
  | .wanting, .caret => some .wanting
  | .wanting, .bang => some .negating
  | .wanting, .opening => some .wanting
  | .done, .mark _ => some .marked
  | .done, .slash => some .wanting
  | .done, .bar => some .wanting
  | .done, .closing => some .done
  | .marked, .slash => some .wanting
  | .marked, .bar => some .wanting
  | .marked, .closing => some .done
  | .negating, .iriRef _ => some .done
  | .negating, .caret => some .negating
  | .negating, .opening => some .inSet
  | .inSet, .iriRef _ => some .inSet
  | .inSet, .caret => some .inSet
  | .inSet, .bar => some .inSet
  | .inSet, .closing => some .done
  | _, _ => none

/-- The state behind the terminals, unless one of them cannot follow. -/
def scan : State → List Terminal → Option State
  | s, [] => some s
  | s, t :: ts => (s.next t).bind fun s => scan s ts

theorem scan_append (s : State) (ts us : List Terminal) :
    scan s (ts ++ us) = (scan s ts).bind fun s => scan s us := by
  induction ts generalizing s with
  | nil => rfl
  | cons t ts ih =>
    simp only [List.cons_append, scan, ih]
    cases s.next t <;> rfl

/-- How the terminals that the grammar derives from a symbol are scanned. -/
def Scanned : Symbol → List Terminal → Prop
  | .primary, ts => scan .wanting ts = some .done
  | .negatedSet, ts => scan .negating ts = some .done
  | .several, ts => scan .inSet ts = some .inSet
  | .one, ts => scan .negating ts = some .done ∧ scan .inSet ts = some .inSet
  | _, ts => scan .wanting ts = some .done ∨ scan .wanting ts = some .marked

theorem scanned_of_derives {n : Symbol} {ts : List Terminal} (h : Derives n ts) :
    Scanned n ts := by
  induction h with
  | path _ ih | sequence _ ih | elt _ ih | inverse _ ih | negated _ ih => exact ih
  | bar _ _ ih ih' | slash _ _ ih ih' =>
    rcases ih with ih | ih <;> simpa [Scanned, scan_append, ih, scan, State.next] using ih'
  | unmarked _ ih => exact .inl ih
  | marked m _ ih => exact .inr (by rw [scan_append, ih]; rfl)
  | group _ ih => rcases ih with ih | ih <;> simp [Scanned, scan_append, ih, scan, State.next]
  | single _ ih => exact ih.1
  | set _ ih =>
    have ih : scan .inSet _ = some .inSet := ih
    simp [Scanned, scan_append, ih, scan, State.next]
  | last _ ih => exact ih.2
  | more _ _ ih ih' => simpa [Scanned, scan_append, ih.2, scan, State.next] using ih'
  | iriRef _ | emptySet => rfl
  | forwards _ | backwards _ => exact ⟨rfl, rfl⟩

theorem closed_iriRef {text : List Char} (h : ∀ c ∈ text, isIriChar c = true) :
    (Terminal.iriRef text).Closed :=
  fun hmem => absurd (h _ hmem) (by decide)

theorem closed_of_derives {n : Symbol} {ts : List Terminal} (h : Derives n ts) :
    ∀ t ∈ ts, t.Closed := by
  induction h with
  | path _ ih | sequence _ ih | elt _ ih | unmarked _ ih | single _ ih | last _ ih => exact ih
  | bar _ _ ih ih' | slash _ _ ih ih' | more _ _ ih ih' =>
    exact List.forall_mem_append.2 ⟨ih, List.forall_mem_cons.2 ⟨trivial, ih'⟩⟩
  | inverse _ ih | negated _ ih => exact List.forall_mem_cons.2 ⟨trivial, ih⟩
  | marked m _ ih => exact Path.closed_marked ih m
  | group _ ih | set _ ih =>
    have hclosing : ∀ t ∈ [Terminal.closing], t.Closed := List.forall_mem_singleton.2 trivial
    exact List.forall_mem_cons.2 ⟨trivial, List.forall_mem_append.2 ⟨ih, hclosing⟩⟩
  | iriRef h | forwards h => exact List.forall_mem_singleton.2 (closed_iriRef h)
  | backwards h =>
    exact List.forall_mem_cons.2 ⟨trivial, List.forall_mem_singleton.2 (closed_iriRef h)⟩
  | emptySet => exact List.forall_mem_cons.2 ⟨trivial, List.forall_mem_singleton.2 trivial⟩

end Sparql

/-! ## legible paths -/

namespace Path

open Sparql (Derives Mark Spells State Symbol Terminal scan scan_append)

def endsInMark : Path → Bool
  | .predicate _ => false
  | .inverse p => endsInMark p
  | .sequence [] => true
  | .sequence [p] => endsInMark p
  | .sequence (_ :: _ :: _) => false
  | .alternative _ => false
  | .zeroOrMore _ => true
  | .oneOrMore _ => true
  | .zeroOrOne _ => true

mutual

/-- Every alternative has a branch, and no mark is written right behind another one. -/
def legible : Path → Bool
  | .predicate _ => true
  | .inverse p => legible p
  | .sequence ps => legibleAll ps
  | .alternative ps => !ps.isEmpty && legibleAll ps
  | .zeroOrMore p => legible p && !endsInMark p
  | .oneOrMore p => legible p && !endsInMark p
  | .zeroOrOne p => legible p && !endsInMark p

def legibleAll : List Path → Bool
  | [] => true
  | p :: ps => legible p && legibleAll ps

end

theorem legibleAll_eq_all (ps : List Path) : legibleAll ps = ps.all legible := by
  induction ps with
  | nil => rfl
  | cons p ps ih => rw [legibleAll, List.all_cons, ih]

/-- The state behind a path that has been read, if the path can be read. -/
def behindState (p : Path) : Option State :=
  if p.legible then some (if p.endsInMark then .marked else .done) else none

/-! ### the scan gets through legible paths only -/

theorem scan_separated {t : Terminal} (ht : IsSeparator t) {p : Path} {ps : List Path}
    (h : ∀ q ∈ p :: ps, scan .wanting (terminals q) = q.behindState) :
    scan .wanting (separated t (terminalsOfAll (p :: ps)) ++ [.closing]) =
      if legibleAll (p :: ps) then some .done else none := by
  induction ps generalizing p with
  | nil =>
    simp only [terminalsOfAll, separated, scan_append, h p List.mem_cons_self, behindState,
      legibleAll, Bool.and_true]
    cases p.legible <;> cases p.endsInMark <;> rfl
  | cons q ps ih =>
    obtain ⟨hp, hps⟩ := List.forall_mem_cons.1 h
    have hrest := ih hps
    rw [terminalsOfAll, terminalsOfAll, separated, ← terminalsOfAll, List.append_assoc,
      scan_append, hp, behindState, legibleAll]
    cases ht <;> cases p.legible <;> cases p.endsInMark <;> simp [scan, State.next, hrest]

theorem scan_marked {p : Path} (h : scan .wanting (terminals p) = p.behindState) (m : Mark) :
    scan .wanting (terminals p ++ [.mark m]) =
      if p.legible && !p.endsInMark then some .marked else none := by
  rw [scan_append, h, behindState]
  cases p.legible <;> cases p.endsInMark <;> rfl

mutual

theorem scan_terminals : ∀ p : Path, scan .wanting (terminals p) = p.behindState
  | .predicate i => by simp [terminals, scan, State.next, behindState, legible, endsInMark]
  | .inverse p => by
    rw [terminals, behindState, legible, endsInMark]
    exact scan_terminals p
  | .sequence [] => by
    simp [terminals, scan, State.next, behindState, legible, legibleAll, endsInMark]
  | .sequence [p] => by
    rw [terminals, behindState, legible, legibleAll, legibleAll, Bool.and_true, endsInMark]
    exact scan_terminals p
  | .sequence (p :: q :: ps) => by
    rw [terminals, behindState, legible, endsInMark]
    exact scan_separated .slash (scan_terminalsOfAll (p :: q :: ps))
  | .alternative [] => by
    simp [terminals, terminalsOfAll, separated, scan, State.next, behindState, legible]
  | .alternative (p :: ps) => by
    rw [terminals, behindState, legible, endsInMark]
    exact scan_separated .bar (scan_terminalsOfAll (p :: ps))
  | .zeroOrMore p => by
    rw [terminals, behindState, legible, endsInMark]
    exact scan_marked (scan_terminals p) .zeroOrMore
  | .oneOrMore p => by
    rw [terminals, behindState, legible, endsInMark]
    exact scan_marked (scan_terminals p) .oneOrMore
  | .zeroOrOne p => by
    rw [terminals, behindState, legible, endsInMark]
    exact scan_marked (scan_terminals p) .zeroOrOne

theorem scan_terminalsOfAll : ∀ ps : List Path,
    ∀ p ∈ ps, scan .wanting (terminals p) = p.behindState
  | [] => fun _ h => absurd h List.not_mem_nil
  | p :: ps => List.forall_mem_cons.2 ⟨scan_terminals p, scan_terminalsOfAll ps⟩

end

/-! ### legible paths are derived -/

/-- The path is written as an element or its inverse, and if it ends in no mark, the element is a
primary, so that a mark may follow. -/
def Derived (p : Path) : Prop :=
  ∃ ts, (terminals p = ts ∨ terminals p = .caret :: ts) ∧ Derives .elt ts ∧
    (p.endsInMark = false → Derives .primary ts)

theorem Derived.eltOrInverse {p : Path} (h : p.Derived) : Derives .eltOrInverse (terminals p) := by
  obtain ⟨ts, rfl | hts, helt, -⟩ := h
  · exact .elt helt
  · rw [hts]
    exact .inverse helt

theorem derived_of_primary {p : Path} (h : Derives .primary (terminals p)) : p.Derived :=
  ⟨_, .inl rfl, .unmarked h, fun _ => h⟩

theorem derived_of_marked {p q : Path} {m : Mark} (hp : p.Derived) (hmark : p.endsInMark = false)
    (hq : q.endsInMark = true) (hterminals : terminals q = terminals p ++ [.mark m]) :
    q.Derived := by
  obtain ⟨ts, hts, -, hprimary⟩ := hp
  refine ⟨ts ++ [.mark m], ?_, .marked m (hprimary hmark), fun h => absurd h (by simp [hq])⟩
  rw [hterminals]
  rcases hts with hts | hts
  · exact .inl (by rw [hts])
  · exact .inr (by rw [hts, List.cons_append])

theorem derives_sequence {p : Path} {ps : List Path} (h : ∀ q ∈ p :: ps, q.Derived) :
    Derives .sequence (separated .slash (terminalsOfAll (p :: ps))) := by
  induction ps generalizing p with
  | nil => exact .sequence (h p List.mem_cons_self).eltOrInverse
  | cons q ps ih =>
    obtain ⟨hp, hps⟩ := List.forall_mem_cons.1 h
    exact .slash hp.eltOrInverse (ih hps)

theorem derives_alternative {p : Path} {ps : List Path} (h : ∀ q ∈ p :: ps, q.Derived) :
    Derives .path (separated .bar (terminalsOfAll (p :: ps))) := by
  induction ps generalizing p with
  | nil => exact .path (.sequence (h p List.mem_cons_self).eltOrInverse)
  | cons q ps ih =>
    obtain ⟨hp, hps⟩ := List.forall_mem_cons.1 h
    exact .bar (.sequence hp.eltOrInverse) (ih hps)

/-- The sequence of no path is an optional negated set. -/
theorem derived_stay : Derived (.sequence []) := by
  have hset : Derives .primary [.bang, .iriRef []] :=
    .negated (.single (.forwards fun _ h => absurd h List.not_mem_nil))
  have hgroup : Derives .primary (.opening :: ([.bang, .iriRef []] ++ [.closing])) :=
    .group (.path (.sequence (.elt (.unmarked hset))))
  refine ⟨_, .inl rfl, ?_, fun h => absurd h (by simp [endsInMark])⟩
  rw [terminals]
  exact .marked .zeroOrOne hgroup

/-- The IRIs of the path are made of characters that an IRI reference may have. -/
def Clean (p : Path) : Prop := ∀ i ∈ p.iris, ∀ c ∈ i.text.toList, Sparql.isIriChar c = true

instance (p : Path) : Decidable p.Clean :=
  decidable_of_iff ((p.iris.all fun i => i.text.toList.all Sparql.isIriChar) = true)
    (by simp [Clean])

theorem clean_of_mem {ps : List Path} {p : Path} (hp : p ∈ ps)
    (h : ∀ i ∈ irisOfAll ps, ∀ c ∈ i.text.toList, Sparql.isIriChar c = true) : p.Clean := by
  induction ps with
  | nil => cases hp
  | cons q ps ih =>
    rw [irisOfAll, List.forall_mem_append] at h
    rcases List.mem_cons.1 hp with rfl | hp
    · exact h.1
    · exact ih hp h.2

theorem Normal.derived {p : Path} (h : p.Normal) (hclean : p.Clean) (hlegible : p.legible = true) :
    p.Derived := by
  have hall : ∀ ps : List Path,
      (∀ q ∈ ps, q.Clean → q.legible = true → q.Derived) → Clean (.sequence ps) →
      legibleAll ps = true → ∀ q ∈ ps, q.Derived := by
    intro ps ih hclean hlegible q hq
    rw [legibleAll_eq_all, List.all_eq_true] at hlegible
    exact ih q hq (clean_of_mem hq hclean) (hlegible q hq)
  induction h with
  | predicate i =>
    refine derived_of_primary ?_
    rw [terminals]
    exact .iriRef (hclean i (List.mem_singleton_self i))
  | inverse i =>
    have hiri : Derives .primary [.iriRef i.text.toList] :=
      .iriRef (hclean i (List.mem_singleton_self i))
    exact ⟨_, .inr (by rw [terminals, terminals]), .unmarked hiri, fun _ => hiri⟩
  | @sequence ps _ ih =>
    rw [legible] at hlegible
    have hps := hall ps ih hclean hlegible
    match ps with
    | [] => exact derived_stay
    | [p] =>
      obtain ⟨ts, hts, helt, hprimary⟩ := hps p List.mem_cons_self
      exact ⟨ts, by rwa [terminals], helt, by rwa [endsInMark]⟩
    | p :: q :: ps =>
      refine derived_of_primary ?_
      rw [terminals]
      exact .group (.path (derives_sequence hps))
  | @alternative ps _ ih =>
    rw [legible, Bool.and_eq_true] at hlegible
    have hps := hall ps ih hclean hlegible.2
    match ps with
    | [] => cases hlegible.1
    | p :: ps =>
      refine derived_of_primary ?_
      rw [terminals]
      exact .group (derives_alternative hps)
  | zeroOrMore _ ih =>
    rw [legible, Bool.and_eq_true, Bool.not_eq_true'] at hlegible
    exact derived_of_marked (ih hclean hlegible.1) hlegible.2 rfl (by rw [terminals])
  | oneOrMore _ ih =>
    rw [legible, Bool.and_eq_true, Bool.not_eq_true'] at hlegible
    exact derived_of_marked (ih hclean hlegible.1) hlegible.2 rfl (by rw [terminals])
  | zeroOrOne _ ih =>
    rw [legible, Bool.and_eq_true, Bool.not_eq_true'] at hlegible
    exact derived_of_marked (ih hclean hlegible.1) hlegible.2 rfl (by rw [terminals])

/-! ## what is written is a property path -/

theorem legible_of_isPropertyPath {p : Path} (hclean : p.Clean)
    (h : Sparql.IsPropertyPath p.toSparql) : p.legible = true := by
  obtain ⟨ts, hspells, hderives⟩ := h
  have hiris : ∀ i ∈ p.iris, '>' ∉ i.text.toList := fun i hi hmem =>
    absurd (hclean i hi _ hmem) (by decide)
  rw [toSparql, String.toList_ofList] at hspells
  obtain rfl := hspells.unique (Sparql.closed_of_derives hderives) (closed_terminals p hiris)
    (spells_sparql p)
  have hscan := Sparql.scanned_of_derives hderives
  simp only [Sparql.Scanned, scan_terminals, behindState] at hscan
  by_contra hp
  simp [hp] at hscan

theorem Normal.isPropertyPath_iff {p : Path} (h : p.Normal) (hclean : p.Clean) :
    Sparql.IsPropertyPath p.toSparql ↔ p.legible = true := by
  refine ⟨legible_of_isPropertyPath hclean, fun hlegible => ⟨terminals p, ?_, ?_⟩⟩
  · rw [toSparql, String.toList_ofList]
    exact spells_sparql p
  · exact .path (.sequence (h.derived hclean hlegible).eltOrInverse)

/-- A path that is read is written as a property path just if every alternative has a branch and no
mark comes right behind another one. -/
theorem isPropertyPath_iff_legible {g : Graph} {node : Term} {p : Path}
    (h : read g node = some (.ok p)) (hclean : p.Clean) :
    Sparql.IsPropertyPath p.toSparql ↔ p.legible = true :=
  (normal_of_read h).isPropertyPath_iff hclean

theorem isPropertyPath_backwardSteps :
    read backwardSteps (.blank "p") = some (.ok (.zeroOrMore (.inverse (.predicate ⟨"next"⟩)))) ∧
      Clean (.zeroOrMore (.inverse (.predicate ⟨"next"⟩))) ∧
      Sparql.IsPropertyPath "^<next>*" := by
  have hread : read backwardSteps (.blank "p") =
      some (.ok (.zeroOrMore (.inverse (.predicate ⟨"next"⟩)))) := by rfl
  have hclean : Clean (.zeroOrMore (.inverse (.predicate ⟨"next"⟩))) := by decide
  exact ⟨hread, hclean, (isPropertyPath_iff_legible hread hclean).2 rfl⟩

/-- A description of one or more steps, zero or more times. -/
def repeatedTwice : Graph :=
  [⟨.blank "p", Sh.zeroOrMorePath, .blank "q", none⟩,
    ⟨.blank "q", Sh.oneOrMorePath, .iri ⟨"next"⟩, none⟩]

/-- Two marks are written one behind the other, which is no property path. -/
theorem not_isPropertyPath_repeatedTwice :
    read repeatedTwice (.blank "p") =
        some (.ok (.zeroOrMore (.oneOrMore (.predicate ⟨"next"⟩)))) ∧
      Clean (.zeroOrMore (.oneOrMore (.predicate ⟨"next"⟩))) ∧
      toSparql (.zeroOrMore (.oneOrMore (.predicate ⟨"next"⟩))) = "<next>+*" ∧
      ¬ Sparql.IsPropertyPath "<next>+*" := by
  have hclean : Clean (.zeroOrMore (.oneOrMore (.predicate ⟨"next"⟩))) := by decide
  refine ⟨by rfl, hclean, by rfl, fun h => ?_⟩
  cases legible_of_isPropertyPath hclean h

end Path
end ShaclExtract
