import Mathlib.Order.Interval.Set.Basic
import ShaclExtract.Path.Writing
import ShaclExtract.Proofs.Path.Converse
import ShaclExtract.Proofs.Path.SelfReference
import ShaclExtract.Proofs.Rdf.Lookup

/-!
# ShaclExtract.Proofs.Path.Writing

Reading a written path gives the path back, with its inverses moved inward until they stand around
predicates (`normal`), whatever else the graph says about other nodes (`read_write`). The normal
form has the hops of the path, and a path in normal form is read as it was written.

A written path takes its nodes from an interval of labels. A graph carries it (`Carries`) if, at
these labels, it has the quads of the written path and no others.
-/

namespace ShaclExtract
namespace Path

open Collection (objects_of_cell)
open ShaclExtract.Graph (outgoing_append outgoing_eq_nil)

/-! ## inverses around predicates only -/

mutual

/-- The path with every inverse moved inward. -/
def normal : Path → Path
  | .predicate i => .predicate i
  | .inverse p => converse (normal p)
  | .sequence ps => .sequence (normals ps)
  | .alternative ps => .alternative (normals ps)
  | .zeroOrMore p => .zeroOrMore (normal p)
  | .oneOrMore p => .oneOrMore (normal p)
  | .zeroOrOne p => .zeroOrOne (normal p)

def normals : List Path → List Path
  | [] => []
  | p :: ps => normal p :: normals ps

end

theorem normals_eq_map : ∀ ps : List Path, normals ps = ps.map normal
  | [] => rfl
  | p :: ps => by rw [normals, normals_eq_map ps, List.map_cons]

/-- Every inverse in the path stands around a predicate. -/
inductive Normal : Path → Prop where
  | predicate (i : Iri) : Normal (.predicate i)
  | inverse (i : Iri) : Normal (.inverse (.predicate i))
  | sequence {ps : List Path} : (∀ p ∈ ps, Normal p) → Normal (.sequence ps)
  | alternative {ps : List Path} : (∀ p ∈ ps, Normal p) → Normal (.alternative ps)
  | zeroOrMore {p : Path} : Normal p → Normal (.zeroOrMore p)
  | oneOrMore {p : Path} : Normal p → Normal (.oneOrMore p)
  | zeroOrOne {p : Path} : Normal p → Normal (.zeroOrOne p)

theorem Normal.converse {p : Path} (h : p.Normal) : p.converse.Normal := by
  induction h with
  | predicate i => exact .inverse i
  | inverse i => exact .predicate i
  | @sequence ps _ ih =>
    refine .sequence fun q hq => ?_
    rw [converses_eq_map, List.mem_reverse] at hq
    obtain ⟨p, hp, rfl⟩ := List.mem_map.1 hq
    exact ih p hp
  | @alternative ps _ ih =>
    refine .alternative fun q hq => ?_
    rw [converses_eq_map] at hq
    obtain ⟨p, hp, rfl⟩ := List.mem_map.1 hq
    exact ih p hp
  | zeroOrMore _ ih => exact .zeroOrMore ih
  | oneOrMore _ ih => exact .oneOrMore ih
  | zeroOrOne _ ih => exact .zeroOrOne ih

mutual

theorem normal_normal : ∀ p : Path, (normal p).Normal
  | .predicate i => .predicate i
  | .inverse p => (normal_normal p).converse
  | .sequence ps => .sequence (normals_normal ps)
  | .alternative ps => .alternative (normals_normal ps)
  | .zeroOrMore p => .zeroOrMore (normal_normal p)
  | .oneOrMore p => .oneOrMore (normal_normal p)
  | .zeroOrOne p => .zeroOrOne (normal_normal p)

theorem normals_normal : ∀ ps : List Path, ∀ p ∈ normals ps, p.Normal
  | [], _, h => absurd h List.not_mem_nil
  | p :: ps, _, h => by
    rcases List.mem_cons.1 h with rfl | h
    · exact normal_normal p
    · exact normals_normal ps _ h

end

theorem Normal.normal_eq {p : Path} (h : p.Normal) : normal p = p := by
  have hmap : ∀ ps : List Path, (∀ p ∈ ps, normal p = p) → normals ps = ps := fun ps h =>
    (normals_eq_map ps).trans ((List.map_congr_left h).trans (List.map_id ps))
  induction h with
  | predicate i => rfl
  | inverse i => rfl
  | sequence _ ih => rw [normal, hmap _ ih]
  | alternative _ ih => rw [normal, hmap _ ih]
  | zeroOrMore _ ih => rw [normal, ih]
  | oneOrMore _ ih => rw [normal, ih]
  | zeroOrOne _ ih => rw [normal, ih]

mutual

theorem follow_normal (g : Graph) : ∀ (p : Path) (d : Direction) (x : Term),
    follow g (normal p) d x = follow g p d x
  | .predicate i, d, x => rfl
  | .inverse p, d, x => by
    rw [normal, follow_converse, follow_normal g p, follow]
  | .sequence ps, d, x => followAll_normals g ps d [x]
  | .alternative ps, d, x => choose_normals g ps d x _
  | .zeroOrMore p, d, x => by simp only [normal, follow, funext (follow_normal g p d)]
  | .oneOrMore p, d, x => by simp only [normal, follow, funext (follow_normal g p d)]
  | .zeroOrOne p, d, x => by simp only [normal, follow, funext (follow_normal g p d)]

theorem followAll_normals (g : Graph) : ∀ (ps : List Path) (d : Direction) (xs : List Term),
    followAll g (normals ps) d xs = followAll g ps d xs
  | [], d, xs => rfl
  | p :: ps, .forward, xs => by
    simp only [normals, followAll, funext (follow_normal g p .forward),
      followAll_normals g ps .forward]
  | p :: ps, .backward, xs => by
    simp only [normals, followAll, funext (follow_normal g p .backward),
      followAll_normals g ps .backward]

theorem choose_normals (g : Graph) : ∀ (ps : List Path) (d : Direction) (x : Term)
    (best : Except Failure (List Term)), choose g (normals ps) d x best = choose g ps d x best
  | [], d, x, best => rfl
  | p :: ps, d, x, best => by
    simp only [normals, choose, follow_normal g p d, choose_normals g ps d]

end

/-! ## what a written path is made of -/

mutual

def iris : Path → List Iri
  | .predicate i => [i]
  | .inverse p => iris p
  | .sequence ps => irisOfAll ps
  | .alternative ps => irisOfAll ps
  | .zeroOrMore p => iris p
  | .oneOrMore p => iris p
  | .zeroOrOne p => iris p

def irisOfAll : List Path → List Iri
  | [] => []
  | p :: ps => iris p ++ irisOfAll ps

end

/-- The quads are about blank nodes with labels of the interval only. -/
def Written.Labelled (label : Nat → String) (n : Nat) (w : Written) : Prop :=
  n ≤ w.next ∧ ∀ q ∈ w.quads, ∃ k, n ≤ k ∧ k < w.next ∧ q.subject = .blank (label k)

theorem Written.Labelled.wrapped {label : Nat → String} {n : Nat} {w : Written}
    (h : w.Labelled label (n + 1)) (predicate : Iri) :
    (w.wrapped (label n) predicate).Labelled label n := by
  obtain ⟨hle, hq⟩ := h
  have hlt : n < (w.wrapped (label n) predicate).next := hle
  refine ⟨hlt.le, fun q hmem => ?_⟩
  rcases List.mem_cons.1 hmem with rfl | hmem
  · exact ⟨n, le_rfl, hlt, rfl⟩
  · obtain ⟨k, hk, hk', hs⟩ := hq q hmem
    exact ⟨k, by omega, hk', hs⟩

mutual

theorem labelled_write (label : Nat → String) : ∀ (p : Path) (n : Nat),
    (write label n p).Labelled label n
  | .predicate i, n => ⟨le_rfl, by simp [write]⟩
  | .inverse p, n => (labelled_write label p (n + 1)).wrapped _
  | .sequence ps, n => labelled_writeList label ps n
  | .alternative ps, n => (labelled_writeList label ps (n + 1)).wrapped _
  | .zeroOrMore p, n => (labelled_write label p (n + 1)).wrapped _
  | .oneOrMore p, n => (labelled_write label p (n + 1)).wrapped _
  | .zeroOrOne p, n => (labelled_write label p (n + 1)).wrapped _

theorem labelled_writeList (label : Nat → String) : ∀ (ps : List Path) (n : Nat),
    (writeList label n ps).Labelled label n
  | [], n => ⟨le_rfl, by simp [writeList]⟩
  | p :: ps, n => by
    obtain ⟨hle, hq⟩ := labelled_write label p (n + 1)
    obtain ⟨hle', hq'⟩ := labelled_writeList label ps (write label (n + 1) p).next
    refine ⟨?_, fun q hmem => ?_⟩
    · simp only [writeList]
      omega
    · simp only [writeList, List.mem_cons, List.mem_append] at hmem ⊢
      rcases hmem with rfl | rfl | hmem | hmem
      · exact ⟨n, le_rfl, by omega, rfl⟩
      · exact ⟨n, le_rfl, by omega, rfl⟩
      · obtain ⟨k, hk, hk', hs⟩ := hq q hmem
        exact ⟨k, by omega, by omega, hs⟩
      · obtain ⟨k, hk, hk', hs⟩ := hq' q hmem
        exact ⟨k, by omega, hk', hs⟩

end

/-! ## a graph that carries a written path -/

/-- At the labels of the interval, the graph has the quads of the written path and no others. -/
def Carries (g : Graph) (label : Nat → String) (n : Nat) (w : Written) : Prop :=
  ∀ k, n ≤ k → k < w.next →
    (g.outgoing (.blank (label k))).Perm (Graph.outgoing w.quads (.blank (label k)))

variable {g : Graph} {label : Nat → String} {n : Nat}

theorem outgoing_cons_blank (b c : String) (i : Iri) (o : Term) (qs : Graph) :
    Graph.outgoing (⟨.blank b, i, o, none⟩ :: qs) (.blank c) =
      if b = c then ⟨.blank b, i, o, none⟩ :: qs.outgoing (.blank c)
      else qs.outgoing (.blank c) := by
  simp only [Graph.outgoing, List.filter_cons, Resource.toTerm, Term.blank.injEq,
    decide_eq_true_eq]

theorem Written.Labelled.outgoing_eq_nil {w : Written} {b : String} (h : w.Labelled label n)
    (hb : ∀ k, n ≤ k → k < w.next → label k ≠ b) : Graph.outgoing w.quads (.blank b) = [] := by
  refine Graph.outgoing_eq_nil (r := .blank b) fun q hq => ?_
  obtain ⟨k, hk, hk', hs⟩ := h.2 q hq
  simpa [hs] using hb k hk hk'

theorem Carries.unwrap {w : Written} {predicate : Iri} (hw : w.Labelled label (n + 1))
    (hinj : Set.InjOn label (Set.Ico n w.next))
    (h : Carries g label n (w.wrapped (label n) predicate)) :
    g.outgoing (.blank (label n)) = [⟨.blank (label n), predicate, w.node, none⟩] ∧
      Carries g label (n + 1) w := by
  have hlt : n < w.next := hw.1
  have hne : ∀ k, n + 1 ≤ k → k < w.next → label k ≠ label n := by
    intro k hk hk' heq
    have := hinj ⟨by omega, hk'⟩ ⟨le_rfl, hlt⟩ heq
    omega
  refine ⟨List.perm_singleton.1 ?_, fun k hk hk' => ?_⟩
  · have hn := h n le_rfl hlt
    simp only [Written.wrapped, outgoing_cons_blank, if_true] at hn
    rwa [hw.outgoing_eq_nil hne] at hn
  · have hn := h k (by omega) hk'
    simp only [Written.wrapped, outgoing_cons_blank] at hn
    rwa [if_neg (hne k hk hk').symm] at hn

def Written.cons (label : String) (member tail : Written) : Written :=
  ⟨.blank label, ⟨.blank label, Rdf.first, member.node, none⟩ ::
    ⟨.blank label, Rdf.rest, tail.node, none⟩ :: (member.quads ++ tail.quads), tail.next⟩

theorem writeList_cons (label : Nat → String) (n : Nat) (p : Path) (ps : List Path) :
    writeList label n (p :: ps) = .cons (label n) (write label (n + 1) p)
      (writeList label (write label (n + 1) p).next ps) := rfl

theorem Carries.uncons {w w' : Written} (hw : w.Labelled label (n + 1))
    (hw' : w'.Labelled label w.next) (hinj : Set.InjOn label (Set.Ico n w'.next))
    (h : Carries g label n (.cons (label n) w w')) :
    (g.outgoing (.blank (label n))).Perm [⟨.blank (label n), Rdf.first, w.node, none⟩,
        ⟨.blank (label n), Rdf.rest, w'.node, none⟩] ∧
      Carries g label (n + 1) w ∧ Carries g label w.next w' := by
  have hlt : n + 1 ≤ w.next := hw.1
  have hle : w.next ≤ w'.next := hw'.1
  have hne : ∀ j k, n ≤ j → j < w'.next → n ≤ k → k < w'.next → j ≠ k → label j ≠ label k :=
    fun j k hj hj' hk hk' hjk heq => hjk (hinj ⟨hj, hj'⟩ ⟨hk, hk'⟩ heq)
  have hmember : ∀ k, n ≤ k → k < w'.next → k < n + 1 ∨ w.next ≤ k →
      Graph.outgoing w.quads (.blank (label k)) = [] := fun k hk hk' hout =>
    hw.outgoing_eq_nil fun j _ _ =>
      hne j k (by omega) (by omega) hk hk' (by omega)
  have htail : ∀ k, n ≤ k → k < w.next → Graph.outgoing w'.quads (.blank (label k)) = [] :=
    fun k hk hk' => hw'.outgoing_eq_nil fun j _ _ =>
      hne j k (by omega) (by omega) hk (by omega) (by omega)
  refine ⟨?_, fun k hk hk' => ?_, fun k hk hk' => ?_⟩
  · have hn := h n le_rfl (by simp only [Written.cons]; omega)
    simp only [Written.cons, outgoing_cons_blank, if_true, outgoing_append] at hn
    rwa [hmember n le_rfl (by omega) (by omega), htail n le_rfl (by omega)] at hn
  · have hn := h k (by omega) (by simp only [Written.cons]; omega)
    have hnk := hne n k le_rfl (by omega) (by omega) (by omega) (by omega)
    simp only [Written.cons, outgoing_cons_blank, outgoing_append, if_neg hnk] at hn
    rwa [htail k (by omega) hk', List.append_nil] at hn
  · have hn := h k (by omega) (by simp only [Written.cons]; omega)
    have hnk := hne n k le_rfl (by omega) (by omega) hk' (by omega)
    simp only [Written.cons, outgoing_cons_blank, outgoing_append, if_neg hnk] at hn
    rwa [hmember k (by omega) hk' (by omega), List.nil_append] at hn

theorem object?_of_outgoing {node inner : Term} {s : Resource} {i : Iri}
    (h : g.outgoing node = [⟨s, i, inner, none⟩]) (j : Iri) :
    g.object? node j = if i = j then some inner else none := by
  rw [Graph.object?, Graph.objects, h]
  by_cases hij : i = j <;> simp [hij]

theorem injOn_succ {m : Nat} (h : Set.InjOn label (Set.Ico n m)) :
    Set.InjOn label (Set.Ico (n + 1) m) :=
  h.mono (Set.Ico_subset_Ico_left (Nat.le_succ n))

/-! ## reading it -/

theorem read_iri {i : Iri} (hnil : i ≠ Rdf.nil) (h : g.outgoing (.iri i) = []) :
    read g (.iri i) = some (.ok (.predicate i)) := by
  have hobj : ∀ j, g.object? (.iri i) j = none := by
    intro j
    rw [Graph.object?, Graph.objects, h]
    rfl
  simp [read_eq_readLevel, readLevel, Collection.isHead, hnil, hobj, readForm, readAlternative,
    readInverse, readRepetition, readPredicate]

/-- A blank node that points to a description is read as the form that its one quad names. -/
theorem read_of_outgoing {b : String} {s : Resource} {i : Iri} {inner : Term}
    (h : g.outgoing (.blank b) = [⟨s, i, inner, none⟩]) (hi : i ≠ Rdf.first) :
    read g (.blank b) = readForm (read g) g (.blank b) := by
  rw [read_eq_readLevel, readLevel, if_neg]
  simp [Collection.isHead, object?_of_outgoing h, hi]

theorem read_alternative {b : String} {s : Resource} {head : Term} {ps : List Path}
    (h : g.outgoing (.blank b) = [⟨s, Sh.alternativePath, head, none⟩])
    (hps : readMembers (read g) g head = some (.ok ps)) :
    read g (.blank b) = some (.ok (.alternative ps)) := by
  rw [read_of_outgoing h (by decide)]
  simp [readForm, readAlternative, object?_of_outgoing h, hps, built]

theorem read_inverse {b : String} {s : Resource} {inner : Term} {p : Path}
    (h : g.outgoing (.blank b) = [⟨s, Sh.inversePath, inner, none⟩])
    (hp : read g inner = some (.ok p)) : read g (.blank b) = some (.ok (converse p)) := by
  have h₁ : Sh.inversePath ≠ Sh.alternativePath := by decide
  rw [read_of_outgoing h (by decide)]
  simp [readForm, readAlternative, readInverse, object?_of_outgoing h, hp, built, h₁]

/-- The predicate of a repetition, and what it makes of the path that is repeated. -/
inductive Repetition : Iri → (Path → Path) → Prop where
  | zeroOrMore : Repetition Sh.zeroOrMorePath .zeroOrMore
  | oneOrMore : Repetition Sh.oneOrMorePath .oneOrMore
  | zeroOrOne : Repetition Sh.zeroOrOnePath .zeroOrOne

theorem read_repetition {b : String} {s : Resource} {i : Iri} {form : Path → Path} {inner : Term}
    {p : Path} (hform : Repetition i form) (h : g.outgoing (.blank b) = [⟨s, i, inner, none⟩])
    (hp : read g inner = some (.ok p)) : read g (.blank b) = some (.ok (form p)) := by
  have hfirst : i ≠ Rdf.first := by cases hform <;> decide
  have halternative : i ≠ Sh.alternativePath := by cases hform <;> decide
  have hinverse : i ≠ Sh.inversePath := by cases hform <;> decide
  have hrepetition : readRepetition (read g) g (.blank b) = some (.ok (form p)) := by
    cases hform <;> simp +decide [readRepetition, object?_of_outgoing h, hp, built]
  rw [read_of_outgoing h hfirst]
  simp [readForm, readAlternative, readInverse, object?_of_outgoing h, halternative, hinverse,
    hrepetition]

theorem read_sequence {head : Term} {ps : List Path}
    (h : Collection.isHead g head = true) (hps : readMembers (read g) g head = some (.ok ps)) :
    read g head = some (.ok (.sequence ps)) := by
  rw [read_eq_readLevel, readLevel, if_pos h, hps]
  rfl

/-- The IRIs are neither the empty list nor described by the graph. -/
def Plain (g : Graph) (is : List Iri) : Prop := ∀ i ∈ is, i ≠ Rdf.nil ∧ g.outgoing (.iri i) = []

theorem readMembers_of_readFrom {head : Term} {nodes : List Term} {ps : List Path}
    (h : Collection.readFrom g [] head = .ok nodes)
    (hps : readEach (read g) nodes = some (.ok ps)) :
    readMembers (read g) g head = some (.ok ps) := by
  rw [readMembers, Collection.read, h]
  exact hps

theorem isHead_writeList {ps : List Path}
    (hinj : Set.InjOn label (Set.Ico n (writeList label n ps).next))
    (h : Carries g label n (writeList label n ps)) :
    Collection.isHead g (writeList label n ps).node = true := by
  cases ps with
  | nil => rfl
  | cons p ps =>
    obtain ⟨hout, -, -⟩ := h.uncons (labelled_write label p (n + 1))
      (labelled_writeList label ps _) hinj
    simp [writeList_cons, Written.cons, Collection.isHead, Graph.object?, (objects_of_cell hout).1]

mutual

/-- A written path that the graph carries is read as its normal form. -/
theorem read_of_carries : ∀ (p : Path) (n : Nat),
    Set.InjOn label (Set.Ico n (write label n p).next) → Plain g p.iris →
      Carries g label n (write label n p) →
        read g (write label n p).node = some (.ok (normal p))
  | .predicate i, n, _, hplain, _ => by
    obtain ⟨hnil, hout⟩ := hplain i (List.mem_singleton_self i)
    exact read_iri hnil hout
  | .inverse p, n, hinj, hplain, h => by
    obtain ⟨hout, hin⟩ := h.unwrap (labelled_write label p (n + 1)) hinj
    exact read_inverse hout (read_of_carries p (n + 1) (injOn_succ hinj) hplain hin)
  | .sequence ps, n, hinj, hplain, h => by
    obtain ⟨nodes, hnodes, hps⟩ := readFrom_of_carries ps n [] hinj hplain h (by simp)
    exact read_sequence (isHead_writeList hinj h) (readMembers_of_readFrom hnodes hps)
  | .alternative ps, n, hinj, hplain, h => by
    obtain ⟨hout, hin⟩ := h.unwrap (labelled_writeList label ps (n + 1)) hinj
    obtain ⟨nodes, hnodes, hps⟩ :=
      readFrom_of_carries ps (n + 1) [] (injOn_succ hinj) hplain hin (by simp)
    exact read_alternative hout (readMembers_of_readFrom hnodes hps)
  | .zeroOrMore p, n, hinj, hplain, h => by
    obtain ⟨hout, hin⟩ := h.unwrap (labelled_write label p (n + 1)) hinj
    have hp := read_of_carries p (n + 1) (injOn_succ hinj) hplain hin
    exact (read_repetition .zeroOrMore hout hp :)
  | .oneOrMore p, n, hinj, hplain, h => by
    obtain ⟨hout, hin⟩ := h.unwrap (labelled_write label p (n + 1)) hinj
    have hp := read_of_carries p (n + 1) (injOn_succ hinj) hplain hin
    exact (read_repetition .oneOrMore hout hp :)
  | .zeroOrOne p, n, hinj, hplain, h => by
    obtain ⟨hout, hin⟩ := h.unwrap (labelled_write label p (n + 1)) hinj
    have hp := read_of_carries p (n + 1) (injOn_succ hinj) hplain hin
    exact (read_repetition .zeroOrOne hout hp :)

theorem readFrom_of_carries : ∀ (ps : List Path) (n : Nat) (seen : List Term),
    Set.InjOn label (Set.Ico n (writeList label n ps).next) → Plain g (irisOfAll ps) →
      Carries g label n (writeList label n ps) →
        (∀ k, n ≤ k → k < (writeList label n ps).next → .blank (label k) ∉ seen) →
          ∃ nodes, Collection.readFrom g seen (writeList label n ps).node = .ok nodes ∧
            readEach (read g) nodes = some (.ok (normals ps))
  | [], n, seen, _, _, _, _ => ⟨[], Collection.readFrom_nil g seen, rfl⟩
  | p :: ps, n, seen, hinj, hplain, h, hseen => by
    have hp := labelled_write label p (n + 1)
    have hps := labelled_writeList label ps (write label (n + 1) p).next
    obtain ⟨hout, hin, htail⟩ := h.uncons hp hps hinj
    obtain ⟨hfirst, hrest⟩ := objects_of_cell hout
    rw [writeList_cons] at hinj hseen ⊢
    have hle : n + 1 ≤ (write label (n + 1) p).next := hp.1
    have hread := read_of_carries p (n + 1)
      (hinj.mono (Set.Ico_subset_Ico (Nat.le_succ n) hps.1))
      (fun i hi => hplain i (List.mem_append_left _ hi)) hin
    -- the cells behind are neither the cells seen so far nor this cell
    have hseen' : ∀ k, (write label (n + 1) p).next ≤ k →
        k < (writeList label (write label (n + 1) p).next ps).next →
          .blank (label k) ∉ Term.blank (label n) :: seen := by
      intro k hk hk' hmem
      rcases List.mem_cons.1 hmem with heq | hmem
      · have := hinj ⟨by omega, hk'⟩ ⟨le_rfl, lt_of_lt_of_le hle hps.1⟩ (Term.blank.inj heq)
        omega
      · exact hseen k (by omega) hk' hmem
    obtain ⟨nodes, hnodes, hall⟩ := readFrom_of_carries ps _ (.blank (label n) :: seen)
      (hinj.mono (Set.Ico_subset_Ico_left (by omega)))
      (fun i hi => hplain i (List.mem_append_right _ hi)) htail hseen'
    refine ⟨_, Collection.readFrom_cell (by simp [Written.cons])
      (hseen n le_rfl (lt_of_lt_of_le hle hps.1)) hfirst hrest hnodes, ?_⟩
    simp only [readEach, hread, hall, normals]

end

/-- Reading a written path gives a path with the same hops and with inverses only around predicates,
and the path itself if it had none elsewhere. -/
theorem read_write {label : Nat → String} {n : Nat} {p : Path} {g others : Graph}
    (hinj : Set.InjOn label (Set.Ico n (p.write label n).next)) (hnil : Rdf.nil ∉ p.iris)
    (hg : g.Perm ((p.write label n).quads ++ others))
    (hothers : ∀ q ∈ others, (∀ k, n ≤ k → k < (p.write label n).next →
      q.subject ≠ .blank (label k)) ∧ ∀ i ∈ p.iris, q.subject ≠ .iri i) :
    ∃ p', read g (p.write label n).node = some (.ok p') ∧ p'.Normal ∧
      (∀ g' x, p'.walk g' x = p.walk g' x) ∧ (p.Normal → p' = p) := by
  have hout : ∀ node, (g.outgoing node).Perm
      (Graph.outgoing (p.write label n).quads node ++ others.outgoing node) := by
    intro node
    rw [← outgoing_append]
    exact hg.filter _
  have hcarries : Carries g label n (p.write label n) := by
    intro k hk hk'
    have hnone : others.outgoing (.blank (label k)) = [] :=
      outgoing_eq_nil fun q hq => (hothers q hq).1 k hk hk'
    simpa only [hnone, List.append_nil] using hout (.blank (label k))
  have hplain : Plain g p.iris := by
    intro i hi
    refine ⟨fun h => hnil (h ▸ hi), outgoing_eq_nil (r := .iri i) fun q hq => ?_⟩
    rcases List.mem_append.1 (hg.mem_iff.1 hq) with hq | hq
    · obtain ⟨k, -, -, hs⟩ := (labelled_write label p n).2 q hq
      simp [hs]
    · exact (hothers q hq).2 i hi
  exact ⟨normal p, read_of_carries p n hinj hplain hcarries, normal_normal p,
    fun g' x => follow_normal g' p .forward x, Normal.normal_eq⟩

def tally (n : Nat) : String := String.ofList (List.replicate n 'b')

theorem tally_injective : Function.Injective tally := by
  intro j k h
  simpa [tally] using congrArg String.length h

/-- The inverse of a step forward and a step back. -/
def turnedAround : Path :=
  .inverse (.sequence [.predicate ⟨"next"⟩, .inverse (.predicate ⟨"part"⟩)])

/-- The description of the path from its end, before a quad that points to it. -/
def turnedAroundGraph : Graph :=
  (turnedAround.write tally 0).quads.reverse ++ [⟨.iri ⟨"S"⟩, Sh.path, .blank "", none⟩]

theorem read_write_turnedAround :
    ∃ p', read turnedAroundGraph (turnedAround.write tally 0).node = some (.ok p') ∧ p'.Normal ∧
      (∀ g' x, p'.walk g' x = turnedAround.walk g' x) ∧ (turnedAround.Normal → p' = turnedAround) :=
  read_write tally_injective.injOn (by decide) ((List.reverse_perm _).append_right _) (by
    intro q hq
    rw [List.mem_singleton.1 hq]
    exact ⟨by simp, by decide⟩)

end Path
end ShaclExtract
