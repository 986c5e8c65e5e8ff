import ShaclExtract.Proofs.Path.Writing
import ShaclExtract.Shape.Declaration
import ShaclExtract.Shape.Reading

/-!
# ShaclExtract.Proofs.Shape.Declaration

The quads of a declared property are read as the property (`PropertyDeclaration.read_of_carried`),
and those of several properties of a subject as the properties in order (`readEach_of_carried`).

Blank nodes are numbered, and each declaration takes those of an interval (`Graph.Numbered`). At
these a graph carries the quads of the declaration and no others (`Graph.Carried`), so a declaration
is read as if it stood alone.
-/

namespace ShaclExtract

/-! ## counts -/

theorem Text.trim_eq_self {cs : List Char} (h : ∀ c ∈ cs, isBlank c = false) : trim cs = cs := by
  have hdrop : ∀ l : List Char, (∀ c ∈ l, isBlank c = false) → l.dropWhile isBlank = l := by
    intro l hl
    cases l with
    | nil => rfl
    | cons c l => rw [List.dropWhile_cons, hl c List.mem_cons_self, if_neg Bool.false_ne_true]
  rw [trim, hdrop cs h, hdrop _ fun c hc => h c (List.mem_reverse.1 hc), List.reverse_reverse]

namespace Number

theorem isDigit_iff {c : Char} : isDigit c = true ↔ 48 ≤ c.toNat ∧ c.toNat ≤ 57 := by
  rw [isDigit, Bool.and_eq_true, decide_eq_true_iff, decide_eq_true_iff]
  rfl

theorem not_isBlank_of_isDigit {c : Char} (h : isDigit c = true) : Text.isBlank c = false := by
  have hc := isDigit_iff.1 h
  simp only [Text.isBlank, Bool.or_eq_false_iff, Bool.and_eq_false_iff, decide_eq_false_iff_not]
  omega

theorem isDigit_of_mem_toDigits {n : Nat} {c : Char} (h : c ∈ toDigits n) : isDigit c = true := by
  have hc := Nat.isDigit_of_mem_toDigits (by decide) le_rfl h
  rw [Char.isDigit, Bool.and_eq_true, decide_eq_true_iff, decide_eq_true_iff] at hc
  exact isDigit_iff.2 hc

theorem natural?_toDigits (n : Nat) : natural? (toDigits n) = some n := by
  have hall : (toDigits n).all isDigit = true :=
    List.all_eq_true.2 fun c hc => isDigit_of_mem_toDigits hc
  have hvalue : ofDigits (toDigits n) = n := Nat.ofDigitChars_toDigits (by decide) le_rfl
  rw [natural?, if_pos ⟨Nat.toDigits_ne_nil, hall⟩, hvalue]

theorem count?_toDigits {n : Nat} (h : n < 2 ^ 64) : count? (toDigits n) = some n := by
  have hsign : ∀ rest, toDigits n ≠ '+' :: rest := by
    intro rest heq
    have hplus : isDigit '+' = true := isDigit_of_mem_toDigits (heq ▸ List.mem_cons_self)
    cases hplus
  unfold count?
  split
  · rename_i rest heq
    exact absurd heq (hsign rest)
  · simp only [natural?_toDigits]
    exact if_pos h

end Number

/-! ## numbered blank nodes -/

namespace Graph

variable {label : Nat → String} {n j m : Nat} {g qs qs' : Graph}

/-- All blank nodes that the quads are about have labels of the interval. -/
def Numbered (label : Nat → String) (n m : Nat) (qs : Graph) : Prop :=
  n ≤ m ∧ ∀ q ∈ qs, ∀ b, q.subject = .blank b → ∃ k, n ≤ k ∧ k < m ∧ b = label k

theorem numbered_nil (label : Nat → String) (n : Nat) : Numbered label n n [] :=
  ⟨le_rfl, by simp⟩

theorem Numbered.append (h : Numbered label n j qs) (h' : Numbered label j m qs') :
    Numbered label n m (qs ++ qs') := by
  refine ⟨h.1.trans h'.1, fun q hq b hb => ?_⟩
  rcases List.mem_append.1 hq with hq | hq
  · obtain ⟨k, hk, hk', heq⟩ := h.2 q hq b hb
    exact ⟨k, hk, lt_of_lt_of_le hk' h'.1, heq⟩
  · obtain ⟨k, hk, hk', heq⟩ := h'.2 q hq b hb
    exact ⟨k, h.1.trans hk, hk', heq⟩

theorem Numbered.append_iris (h : Numbered label n m qs)
    (h' : ∀ q ∈ qs', ∃ i, q.subject = .iri i) : Numbered label n m (qs' ++ qs) := by
  refine ⟨h.1, fun q hq b hb => ?_⟩
  rcases List.mem_append.1 hq with hq | hq
  · obtain ⟨i, hi⟩ := h' q hq
    cases hi.symm.trans hb
  · exact h.2 q hq b hb

theorem Numbered.outgoing_eq_nil (hinj : Function.Injective label) (h : Numbered label n m qs)
    {k : Nat} (hk : k < n ∨ m ≤ k) : qs.outgoing (.blank (label k)) = [] := by
  refine Graph.outgoing_eq_nil (r := .blank (label k)) fun q hq heq => ?_
  obtain ⟨k', hn, hm, hlabel⟩ := h.2 q hq _ heq
  obtain rfl := hinj hlabel
  omega

/-- At the labels of the interval, the graph has these quads and no others. -/
def Carried (g : Graph) (label : Nat → String) (n m : Nat) (qs : Graph) : Prop :=
  ∀ k, n ≤ k → k < m →
    (g.outgoing (.blank (label k))).Perm (qs.outgoing (.blank (label k)))

theorem Carried.of_append (hinj : Function.Injective label) (hq : Numbered label n j qs)
    (hq' : Numbered label j m qs') (h : g.Carried label n m (qs ++ qs')) :
    g.Carried label n j qs ∧ g.Carried label j m qs' := by
  constructor
  · intro k hk hk'
    have hperm := h k hk (lt_of_lt_of_le hk' hq'.1)
    rwa [outgoing_append, hq'.outgoing_eq_nil hinj (.inl hk'), List.append_nil] at hperm
  · intro k hk hk'
    have hperm := h k (hq.1.trans hk) hk'
    rwa [outgoing_append, hq.outgoing_eq_nil hinj (.inr hk), List.nil_append] at hperm

theorem Carried.of_append_iris (h' : ∀ q ∈ qs', ∃ i, q.subject = .iri i)
    (h : g.Carried label n m (qs' ++ qs)) : g.Carried label n m qs := by
  intro k hk hk'
  have hnone : Graph.outgoing qs' (.blank (label k)) = [] := by
    refine Graph.outgoing_eq_nil (r := .blank (label k)) fun q hq => ?_
    obtain ⟨i, hi⟩ := h' q hq
    simp [hi]
  have hperm := h k hk hk'
  rwa [outgoing_append, hnone, List.nil_append] at hperm

theorem object?_of_outgoing {node : Term} (h : (g.outgoing node).Perm qs) {i : Iri}
    {o : Option Term} (ho : (qs.filter fun q => q.predicate = i).map Quad.object = o.toList) :
    g.object? node i = o := by
  have hobjects := Graph.objects_of_outgoing h i
  rw [ho] at hobjects
  cases o with
  | none => rw [object?, List.perm_nil.1 hobjects, List.head?_nil]
  | some o => rw [object?, List.perm_singleton.1 hobjects, List.head?_cons]

end Graph

open ShaclExtract.Graph

/-! ## properties -/

theorem Path.numbered_write (label : Nat → String) (n : Nat) (p : Path) :
    Numbered label n (p.write label n).next (p.write label n).quads := by
  obtain ⟨hle, hquads⟩ := labelled_write label p n
  refine ⟨hle, fun q hq b hb => ?_⟩
  obtain ⟨k, hk, hk', hs⟩ := hquads q hq
  exact ⟨k, hk, hk', Resource.blank.inj (hb.symm.trans hs)⟩

def Graph.Untyped (qs : Graph) : Prop := ∀ q ∈ qs, q.predicate ≠ Rdf.type

theorem Graph.untyped_cons {qs : Graph} {s : Resource} {i : Iri} {o : Term} (hi : i ≠ Rdf.type)
    (h : qs.Untyped) : Graph.Untyped (⟨s, i, o, none⟩ :: qs) :=
  List.forall_mem_cons.2 ⟨hi, h⟩

theorem Graph.Untyped.append {qs qs' : Graph} (h : qs.Untyped) (h' : qs'.Untyped) :
    Graph.Untyped (qs ++ qs') :=
  List.forall_mem_append.2 ⟨h, h'⟩

mutual

theorem Path.untyped_write (label : Nat → String) : ∀ (p : Path) (n : Nat),
    Untyped (p.write label n).quads
  | .predicate i, n => List.forall_mem_nil _
  | .inverse p, n => untyped_cons (by decide) (untyped_write label p (n + 1))
  | .sequence ps, n => untyped_writeList label ps n
  | .alternative ps, n => untyped_cons (by decide) (untyped_writeList label ps (n + 1))
  | .zeroOrMore p, n => untyped_cons (by decide) (untyped_write label p (n + 1))
  | .oneOrMore p, n => untyped_cons (by decide) (untyped_write label p (n + 1))
  | .zeroOrOne p, n => untyped_cons (by decide) (untyped_write label p (n + 1))

theorem Path.untyped_writeList (label : Nat → String) : ∀ (ps : List Path) (n : Nat),
    Untyped (writeList label n ps).quads
  | [], n => List.forall_mem_nil _
  | p :: ps, n => untyped_cons (by decide) (untyped_cons (by decide)
      ((untyped_write label p (n + 1)).append
        (untyped_writeList label ps (write label (n + 1) p).next)))

end

theorem Property.readCount_of_object? {g : Graph} {node : Term} {i : Iri} {count : Option Nat}
    (h : g.object? node i = count.map countTerm) (hcount : ∀ n ∈ count, n < 2 ^ 64) :
    readCount g node i = .ok count := by
  cases count with
  | none =>
    rw [Option.map_none] at h
    simp only [readCount, h]
  | some n =>
    have htext : (countTerm n).lexical.toList = Number.toDigits n := String.toList_ofList
    have htrim : Text.trim (Number.toDigits n) = Number.toDigits n :=
      Text.trim_eq_self fun c hc =>
        Number.not_isBlank_of_isDigit (Number.isDigit_of_mem_toDigits hc)
    rw [Option.map_some] at h
    simp only [readCount, h, htext, htrim, Number.count?_toDigits (hcount n rfl)]

namespace PropertyDeclaration

variable {label : Nat → String} {g : Graph} {p : PropertyDeclaration} {b : String} {path : Term}

def own (p : PropertyDeclaration) (node : Resource) (path : Term) : Graph :=
  [⟨node, Sh.path, path, none⟩, ⟨node, Sh.name, .literal (.simple p.name), none⟩,
    p.type.quad node] ++
  p.minCount.toList.map (fun m => ⟨node, Sh.minCount, countTerm m, none⟩) ++
  p.maxCount.toList.map (fun m => ⟨node, Sh.maxCount, countTerm m, none⟩)

theorem quads_write (label : Nat → String) (n : Nat) (p : PropertyDeclaration) :
    (p.write label n).quads = p.own (.blank (label n)) (p.path.write label (n + 1)).node ++
      (p.path.write label (n + 1)).quads := rfl

theorem subject_own {node : Resource} {q : Quad} (h : q ∈ p.own node path) : q.subject = node := by
  simp only [own, List.mem_append, List.mem_cons, List.not_mem_nil, or_false, List.mem_map] at h
  rcases h with ((rfl | rfl | rfl) | ⟨_, _, rfl⟩) | ⟨_, _, rfl⟩
  · rfl
  · rfl
  · cases p.type <;> rfl
  · rfl
  · rfl

theorem outgoing_own (p : PropertyDeclaration) (b : String) (path : Term) :
    Graph.outgoing (p.own (.blank b) path) (.blank b) = p.own (.blank b) path :=
  List.filter_eq_self.2 fun q hq => by
    rw [subject_own hq]
    exact decide_eq_true rfl

theorem numbered_own (label : Nat → String) (n : Nat) (p : PropertyDeclaration) (path : Term) :
    Numbered label n (n + 1) (p.own (.blank (label n)) path) := by
  refine ⟨Nat.le_succ n, fun q hq b hb => ⟨n, le_rfl, Nat.lt_succ_self n, ?_⟩⟩
  exact Resource.blank.inj (hb.symm.trans (subject_own hq))

theorem numbered_write (label : Nat → String) (n : Nat) (p : PropertyDeclaration) :
    Numbered label n (p.write label n).next (p.write label n).quads :=
  (numbered_own label n p _).append (p.path.numbered_write label (n + 1))

/-- What is found at a node that has the quads of the property. -/
theorem object?_of_own (h : (g.outgoing (.blank b)).Perm (p.own (.blank b) path)) :
    g.object? (.blank b) Sh.path = some path ∧
    g.object? (.blank b) Sh.name = some (.literal (.simple p.name)) ∧
    g.object? (.blank b) Sh.minCount = p.minCount.map countTerm ∧
    g.object? (.blank b) Sh.maxCount = p.maxCount.map countTerm := by
  obtain ⟨name, _, minCount, maxCount, type⟩ := p
  refine ⟨object?_of_outgoing h ?_, object?_of_outgoing h ?_, object?_of_outgoing h ?_,
    object?_of_outgoing h ?_⟩
  all_goals cases minCount <;> cases maxCount <;> cases type <;> rfl

theorem readType_of_own (h : (g.outgoing (.blank b)).Perm (p.own (.blank b) path))
    (name : String) : Property.readType g (.blank b) name = .ok p.type := by
  obtain ⟨_, _, minCount, maxCount, type⟩ := p
  cases type with
  | ofClass c =>
    have hclass : g.object? (.blank b) Sh.classOf = some (.iri c) :=
      object?_of_outgoing h (by cases minCount <;> cases maxCount <;> rfl)
    have hdatatype : g.object? (.blank b) Sh.datatype = none :=
      object?_of_outgoing h (by cases minCount <;> cases maxCount <;> rfl)
    simp only [Property.readType, Property.readIri, hclass, hdatatype]
  | datatype d =>
    have hclass : g.object? (.blank b) Sh.classOf = none :=
      object?_of_outgoing h (by cases minCount <;> cases maxCount <;> rfl)
    have hdatatype : g.object? (.blank b) Sh.datatype = some (.iri d) :=
      object?_of_outgoing h (by cases minCount <;> cases maxCount <;> rfl)
    simp only [Property.readType, Property.readIri, hclass, hdatatype]

/-- What can be declared: a path with inverses around predicates only, where no predicate is the
empty list, and counts of 64 bits. -/
structure Regular (p : PropertyDeclaration) : Prop where
  normal : p.path.Normal
  nil : Rdf.nil ∉ p.path.iris
  minCount : ∀ n ∈ p.minCount, n < 2 ^ 64
  maxCount : ∀ n ∈ p.maxCount, n < 2 ^ 64

/-- A property whose quads the graph carries is read as it was declared. -/
theorem read_of_carried {n : Nat} (hinj : Function.Injective label) (hp : p.Regular)
    (hplain : ∀ i ∈ p.path.iris, g.outgoing (.iri i) = [])
    (h : g.Carried label n (p.write label n).next (p.write label n).quads) :
    Property.read g (.blank (label n)) = some (.ok p.property) := by
  obtain ⟨hown, hpath⟩ :=
    h.of_append hinj (numbered_own label n p _) (p.path.numbered_write label (n + 1))
  have houtgoing := hown n le_rfl (Nat.lt_succ_self n)
  rw [outgoing_own] at houtgoing
  obtain ⟨hpathAt, hname, hmin, hmax⟩ := object?_of_own houtgoing
  have htype := readType_of_own houtgoing
  have hread : Path.read g (p.path.write label (n + 1)).node = some (.ok p.path) := by
    have hread := Path.read_of_carries (g := g) p.path (n + 1) hinj.injOn
      (fun i hi => ⟨fun heq => hp.nil (heq ▸ hi), hplain i hi⟩) hpath
    rwa [hp.normal.normal_eq] at hread
  simp only [Property.read, hpathAt, hread, Property.readRest, hname,
    Property.readCount_of_object? hmin hp.minCount, Property.readCount_of_object? hmax hp.maxCount,
    htype]
  rfl

/-! ## the properties of a subject -/

variable {s : Iri} {n : Nat} {ps : List PropertyDeclaration}

theorem writeProperties_cons (label : Nat → String) (s : Iri) (n : Nat) (p : PropertyDeclaration)
    (ps : List PropertyDeclaration) :
    (writeProperties label (.iri s) n (p :: ps)).1 =
      [⟨.iri s, Sh.property, .blank (label n), none⟩] ++ ((p.write label n).quads ++
        (writeProperties label (.iri s) (p.write label n).next ps).1) := rfl

theorem numbered_writeProperties (label : Nat → String) (s : Iri)
    (ps : List PropertyDeclaration) : ∀ n, Numbered label n (writeProperties label (.iri s) n ps).2
      (writeProperties label (.iri s) n ps).1 := by
  induction ps with
  | nil => exact numbered_nil label
  | cons p ps ih =>
    intro n
    rw [writeProperties_cons]
    refine ((p.numbered_write label n).append (ih _)).append_iris fun q hq => ⟨s, ?_⟩
    rw [List.mem_singleton.1 hq]

theorem subject_write {q : Quad} (h : q ∈ (p.write label n).quads) :
    ∃ b, q.subject = .blank b := by
  rw [quads_write, List.mem_append] at h
  rcases h with h | h
  · exact ⟨_, subject_own h⟩
  · obtain ⟨k, _, _, hs⟩ := (Path.labelled_write label p.path (n + 1)).2 q h
    exact ⟨_, hs⟩

theorem subject_writeProperties {q : Quad} (h : q ∈ (writeProperties label (.iri s) n ps).1) :
    q.subject = .iri s ∨ ∃ b, q.subject = .blank b := by
  induction ps generalizing n with
  | nil => cases h
  | cons p ps ih =>
    rw [writeProperties_cons, List.mem_append, List.mem_append, List.mem_singleton] at h
    rcases h with rfl | h | h
    · exact .inl rfl
    · exact .inr (subject_write h)
    · exact ih h

theorem untyped_own (p : PropertyDeclaration) (node : Resource) (path : Term) :
    Untyped (p.own node path) := by
  intro q hq
  simp only [own, List.mem_append, List.mem_cons, List.not_mem_nil, or_false, List.mem_map] at hq
  rcases hq with ((rfl | rfl | rfl) | ⟨_, _, rfl⟩) | ⟨_, _, rfl⟩
  · exact (by decide : Sh.path ≠ Rdf.type)
  · exact (by decide : Sh.name ≠ Rdf.type)
  · cases p.type with
    | ofClass _ => exact (by decide : Sh.classOf ≠ Rdf.type)
    | datatype _ => exact (by decide : Sh.datatype ≠ Rdf.type)
  · exact (by decide : Sh.minCount ≠ Rdf.type)
  · exact (by decide : Sh.maxCount ≠ Rdf.type)

theorem untyped_writeProperties (label : Nat → String) (s : Iri) (ps : List PropertyDeclaration) :
    ∀ n, Untyped (writeProperties label (.iri s) n ps).1 := by
  induction ps with
  | nil => exact fun _ => List.forall_mem_nil _
  | cons p ps ih =>
    intro n
    rw [writeProperties_cons, quads_write]
    exact untyped_cons (by decide)
      (((untyped_own p _ _).append (p.path.untyped_write label _)).append (ih _))

theorem objects_write (label : Nat → String) (n : Nat) (p : PropertyDeclaration) (s i : Iri) :
    Graph.objects (p.write label n).quads (.iri s) i = [] := by
  refine objects_eq_nil (r := .iri _) (fun q hq heq => ?_) _
  obtain ⟨b, hb⟩ := subject_write hq
  cases hb.symm.trans heq

theorem objects_writeProperties_cons (label : Nat → String) (s : Iri) (n : Nat)
    (p : PropertyDeclaration) (ps : List PropertyDeclaration) :
    Graph.objects (writeProperties label (.iri s) n (p :: ps)).1 (.iri s) Sh.property =
      .blank (label n) ::
        Graph.objects (writeProperties label (.iri s) (p.write label n).next ps).1 (.iri s)
          Sh.property := by
  rw [writeProperties_cons, objects_append, objects_append, objects_write, List.nil_append]
  simp [Graph.objects, Graph.outgoing, Resource.toTerm]

theorem objects_writeProperties_of_ne {i : Iri} (hi : i ≠ Sh.property) (label : Nat → String)
    (s s' : Iri) (ps : List PropertyDeclaration) : ∀ n,
      Graph.objects (writeProperties label (.iri s) n ps).1 (.iri s') i = [] := by
  induction ps with
  | nil => exact fun n => rfl
  | cons p ps ih =>
    intro n
    rw [writeProperties_cons, objects_append, objects_append, objects_write, ih]
    simp [Graph.objects, Graph.outgoing, hi.symm]

theorem readEach_of_carried (hinj : Function.Injective label) (hps : ∀ p ∈ ps, p.Regular)
    (hplain : ∀ p ∈ ps, ∀ i ∈ p.path.iris, g.outgoing (.iri i) = [])
    (h : g.Carried label n (writeProperties label (.iri s) n ps).2
      (writeProperties label (.iri s) n ps).1) :
    Property.readEach g (Graph.objects (writeProperties label (.iri s) n ps).1 (.iri s)
      Sh.property) = some (.ok (ps.map property)) := by
  induction ps generalizing n with
  | nil => rfl
  | cons p ps ih =>
    rw [writeProperties_cons] at h
    have hwritten := h.of_append_iris fun q hq => ⟨s, by rw [List.mem_singleton.1 hq]⟩
    obtain ⟨hp, hrest⟩ := hwritten.of_append hinj (p.numbered_write label n)
      (numbered_writeProperties label s ps _)
    have hread := read_of_carried hinj (hps p List.mem_cons_self)
      (hplain p List.mem_cons_self) hp
    have hreadEach := ih (fun p hp => hps p (.tail _ hp)) (fun p hp => hplain p (.tail _ hp)) hrest
    rw [objects_writeProperties_cons]
    simp only [Property.readEach, hread, hreadEach, List.map_cons]

end PropertyDeclaration

end ShaclExtract
