import Mathlib.Data.List.Perm.Basic
import ShaclExtract.Proofs.Schema.Compiled
import ShaclExtract.Proofs.Shape.Declaration

/-!
# ShaclExtract.Proofs.Schema.Declared

Compiling the quads of declared shapes gives the declared shapes back (`Schema.compile_declared`).
The quads of all declarations may be mixed in any order, as long as the target classes and the
properties of each subject keep theirs, and there may be other quads (`Graph.Declares`).

Declarations take their blank nodes from intervals that do not meet, and their subjects are
distinct, so each is read as if it stood alone (`Graph.Declares.readSubject`).
-/

namespace ShaclExtract

open ShaclExtract.Graph

theorem List.eraseDups_of_nodup {α : Type} [BEq α] [LawfulBEq α] {l : List α} (h : l.Nodup) :
    l.eraseDups = l := by
  induction l with
  | nil => rfl
  | cons x l ih =>
    rw [List.nodup_cons] at h
    have hrest : l.filter (fun y => !y == x) = l :=
      List.filter_eq_self.2 fun y hy => by
        simpa using fun heq : y = x => h.1 (heq ▸ hy)
    rw [List.eraseDups_cons, hrest, ih h.2]

/-! ## shapes -/

namespace ShapeDeclaration

variable {label : Nat → String} {g others : Graph} {d : ShapeDeclaration}
  {ds : List ShapeDeclaration} {n : Nat}

/-- The quads about the subject itself, without its properties. -/
def own (d : ShapeDeclaration) : Graph :=
  ⟨.iri d.subject, Rdf.type, .iri Sh.nodeShape, none⟩ ::
    d.targets.map (fun t => ⟨.iri d.subject, Sh.targetClass, .iri t, none⟩) ++
    d.description.toList.map fun text =>
      ⟨.iri d.subject, Sh.description, .literal (.simple text), none⟩

theorem write_fst (label : Nat → String) (n : Nat) (d : ShapeDeclaration) :
    (d.write label n).1 = d.own ++ (writeProperties label (.iri d.subject) n d.properties).1 := rfl

theorem subject_own {q : Quad} (h : q ∈ d.own) : q.subject = .iri d.subject := by
  simp only [own, List.mem_append, List.mem_cons, List.mem_map] at h
  rcases h with (rfl | ⟨_, _, rfl⟩) | ⟨_, _, rfl⟩ <;> rfl

theorem numbered_write (label : Nat → String) (n : Nat) (d : ShapeDeclaration) :
    Numbered label n (d.write label n).2 (d.write label n).1 := by
  rw [write_fst]
  exact (PropertyDeclaration.numbered_writeProperties label d.subject d.properties n).append_iris
    fun q hq => ⟨d.subject, subject_own hq⟩

theorem writeAll_cons (label : Nat → String) (n : Nat) (d : ShapeDeclaration)
    (ds : List ShapeDeclaration) :
    writeAll label n (d :: ds) = (d.write label n).1 ++ writeAll label (d.write label n).2 ds := rfl

def lastOfAll (label : Nat → String) (n : Nat) : List ShapeDeclaration → Nat
  | [] => n
  | d :: ds => lastOfAll label (d.write label n).2 ds

theorem numbered_writeAll (label : Nat → String) (ds : List ShapeDeclaration) :
    ∀ n, Numbered label n (lastOfAll label n ds) (writeAll label n ds) := by
  induction ds with
  | nil => exact numbered_nil label
  | cons d ds ih => exact fun n => (numbered_write label n d).append (ih _)

theorem objects_statements (s p i : Iri) (objects : List Term) :
    Graph.objects (objects.map fun o => ⟨.iri s, p, o, none⟩) (.iri s) i =
      if p = i then objects else [] := by
  induction objects with
  | nil => simp [Graph.objects, Graph.outgoing]
  | cons o objects ih =>
    rw [List.map_cons, ← List.singleton_append, objects_append, ih]
    by_cases h : p = i <;> simp [Graph.objects, Graph.outgoing, Resource.toTerm, h]

theorem objects_own (d : ShapeDeclaration) (i : Iri) :
    Graph.objects d.own (.iri d.subject) i =
      (if Rdf.type = i then [.iri Sh.nodeShape] else []) ++
      (if Sh.targetClass = i then d.targets.map .iri else []) ++
      (if Sh.description = i then d.description.toList.map fun text => .literal (.simple text)
        else []) := by
  have hown : d.own = [Term.iri Sh.nodeShape].map (fun o => ⟨.iri d.subject, Rdf.type, o, none⟩) ++
      (d.targets.map Term.iri).map (fun o => ⟨.iri d.subject, Sh.targetClass, o, none⟩) ++
      (d.description.toList.map fun text => Term.literal (.simple text)).map
        (fun o => ⟨.iri d.subject, Sh.description, o, none⟩) := by
    simp only [own, List.map_map, List.map_cons, List.map_nil, List.cons_append, List.nil_append]
    rfl
  rw [hown, objects_append, objects_append, objects_statements, objects_statements,
    objects_statements]

theorem objects_write (label : Nat → String) (n : Nat) (d : ShapeDeclaration) (i : Iri) :
    Graph.objects (d.write label n).1 (.iri d.subject) i =
      Graph.objects d.own (.iri d.subject) i ++
        Graph.objects (writeProperties label (.iri d.subject) n d.properties).1 (.iri d.subject)
          i := by
  rw [write_fst, objects_append]

/-- The quads of a declaration are about its subject and about blank nodes. -/
theorem subject_write {q : Quad} (h : q ∈ (d.write label n).1) :
    q.subject = .iri d.subject ∨ ∃ b, q.subject = .blank b := by
  rw [write_fst, List.mem_append] at h
  rcases h with h | h
  · exact .inl (subject_own h)
  · exact PropertyDeclaration.subject_writeProperties h

theorem objects_write_of_ne {s : Iri} (hs : s ≠ d.subject) (label : Nat → String) (n : Nat)
    (i : Iri) : Graph.objects (d.write label n).1 (.iri s) i = [] := by
  refine objects_eq_nil (r := .iri _) (fun q hq heq => ?_) _
  obtain hq | ⟨b, hb⟩ := subject_write hq
  · exact hs (Resource.iri.inj (heq.symm.trans hq))
  · cases hb.symm.trans heq

theorem objects_writeAll_of_not_mem {s : Iri} (hs : s ∉ ds.map subject) (label : Nat → String)
    (n : Nat) (i : Iri) : Graph.objects (writeAll label n ds) (.iri s) i = [] := by
  induction ds generalizing n with
  | nil => rfl
  | cons d ds ih =>
    rw [List.map_cons, List.mem_cons, not_or] at hs
    rw [writeAll_cons, objects_append, objects_write_of_ne hs.1, ih hs.2, List.nil_append]

theorem exists_part (hinj : Function.Injective label) (hsubjects : (ds.map subject).Nodup)
    (h : g.Carried label n (lastOfAll label n ds) (writeAll label n ds)) (hd : d ∈ ds) :
    ∃ j, g.Carried label j (d.write label j).2 (d.write label j).1 ∧
      ∀ i, Graph.objects (writeAll label n ds) (.iri d.subject) i =
        Graph.objects (d.write label j).1 (.iri d.subject) i := by
  induction ds generalizing n with
  | nil => cases hd
  | cons e ds ih =>
    rw [List.map_cons, List.nodup_cons] at hsubjects
    obtain ⟨hfirst, hrest⟩ :=
      h.of_append hinj (numbered_write label n e) (numbered_writeAll label ds _)
    rcases List.mem_cons.1 hd with rfl | hd
    · refine ⟨n, hfirst, fun i => ?_⟩
      rw [writeAll_cons, objects_append, objects_writeAll_of_not_mem hsubjects.1, List.append_nil]
    · obtain ⟨j, hpart, hobjects⟩ := ih hsubjects.2 hrest hd
      have hne : d.subject ≠ e.subject := fun heq =>
        hsubjects.1 (heq ▸ List.mem_map_of_mem hd)
      refine ⟨j, hpart, fun i => ?_⟩
      rw [writeAll_cons, objects_append, objects_write_of_ne hne, List.nil_append, hobjects i]

theorem subjects_writeAll (label : Nat → String) (ds : List ShapeDeclaration) : ∀ n,
    Graph.subjects (writeAll label n ds) (.iri Sh.nodeShape) Rdf.type =
      ds.map fun d => .iri d.subject := by
  induction ds with
  | nil => exact fun n => rfl
  | cons d ds ih =>
    intro n
    have hrest : Untyped (d.own.tail ++
        (writeProperties label (.iri d.subject) n d.properties).1) := by
      refine Untyped.append ?_ (PropertyDeclaration.untyped_writeProperties label _ _ n)
      intro q hq
      simp only [own, List.cons_append, List.tail_cons, List.mem_append, List.mem_map] at hq
      rcases hq with ⟨_, _, rfl⟩ | ⟨_, _, rfl⟩
      · exact (by decide : Sh.targetClass ≠ Rdf.type)
      · exact (by decide : Sh.description ≠ Rdf.type)
    have hnone : Graph.subjects (d.own.tail ++
        (writeProperties label (.iri d.subject) n d.properties).1) (.iri Sh.nodeShape) Rdf.type =
          [] :=
      List.eq_nil_iff_forall_not_mem.2 fun s hs => by
        obtain ⟨q, hq, _, hpredicate, _⟩ := Graph.mem_subjects.1 hs
        exact hrest q hq hpredicate
    have hsplit : writeAll label n (d :: ds) =
        [⟨.iri d.subject, Rdf.type, .iri Sh.nodeShape, none⟩] ++ ((d.own.tail ++
          (writeProperties label (.iri d.subject) n d.properties).1) ++
            writeAll label (d.write label n).2 ds) := rfl
    rw [hsplit, subjects_append, subjects_append, hnone, ih]
    rfl

/-- What can be declared: properties with distinct names. -/
structure Regular (d : ShapeDeclaration) : Prop where
  names : (d.properties.map PropertyDeclaration.name).Nodup
  properties : ∀ p ∈ d.properties, p.Regular

end ShapeDeclaration

/-- The graph has the quads of the declarations, mixed with others in any order, except that the
target classes and the properties of each subject keep theirs. No path leads to a described IRI, and
no other quad declares a shape or says more of a declared one. -/
structure Graph.Declares (g : Graph) (label : Nat → String) (n : Nat)
    (ds : List ShapeDeclaration) (others : Graph) : Prop where
  quads : g.Perm (ShapeDeclaration.writeAll label n ds ++ others)
  targets : ∀ d ∈ ds, g.objects (.iri d.subject) Sh.targetClass = d.targets.map .iri
  properties : ∀ d ∈ ds, g.objects (.iri d.subject) Sh.property =
    Graph.objects (ShapeDeclaration.writeAll label n ds) (.iri d.subject) Sh.property
  plain : ∀ d ∈ ds, ∀ p ∈ d.properties, ∀ i ∈ p.path.iris, ∀ q ∈ g, q.subject ≠ .iri i
  others : ∀ q ∈ others, (∀ k, q.subject ≠ .blank (label k)) ∧ q.predicate ≠ Sh.description ∧
    (q.predicate = Rdf.type → q.object ≠ .iri Sh.nodeShape)

namespace Shape

theorem duplicate?_eq_none {seen names : List String} (hseen : ∀ name ∈ names, name ∉ seen)
    (h : names.Nodup) : duplicate? seen names = none := by
  induction names generalizing seen with
  | nil => rfl
  | cons name names ih =>
    rw [List.nodup_cons] at h
    rw [duplicate?, if_neg (hseen name List.mem_cons_self)]
    refine ih (fun other hother hmem => ?_) h.2
    rcases List.mem_cons.1 hmem with rfl | hmem
    · exact h.1 hother
    · exact hseen other (.tail _ hother) hmem

end Shape

namespace Graph.Declares

variable {label : Nat → String} {g others : Graph} {n : Nat} {ds : List ShapeDeclaration}
  {d : ShapeDeclaration}

theorem carried (h : g.Declares label n ds others) :
    g.Carried label n (ShapeDeclaration.lastOfAll label n ds)
      (ShapeDeclaration.writeAll label n ds) := by
  intro k _ _
  have hnone : others.outgoing (.blank (label k)) = [] :=
    Graph.outgoing_eq_nil (r := .blank (label k)) fun q hq => (h.others q hq).1 k
  have hperm : (g.outgoing (.blank (label k))).Perm
      (Graph.outgoing (ShapeDeclaration.writeAll label n ds ++ others) (.blank (label k))) :=
    h.quads.filter _
  rwa [Graph.outgoing_append, hnone, List.append_nil] at hperm

theorem targets_subject (h : g.Declares label n ds others) (hd : d ∈ ds) :
    Shape.targets g (.iri d.subject) = if d.targets = [] then [d.subject] else d.targets := by
  have hiris : (d.targets.map Term.iri).filterMap Term.iri? = d.targets := by
    rw [List.filterMap_map]
    exact List.filterMap_some
  rw [Shape.targets, h.targets d hd, hiris]
  cases d.targets <;> rfl

section subject

variable (hinj : Function.Injective label) (hsubjects : (ds.map ShapeDeclaration.subject).Nodup)
  (h : g.Declares label n ds others) (hd : d ∈ ds)
include hinj hsubjects h hd

/-- What a declared subject has is what was declared of it, with what the other quads add. -/
theorem objects_perm (i : Iri) :
    ∃ j, (g.objects (.iri d.subject) i).Perm (Graph.objects d.own (.iri d.subject) i ++
      Graph.objects (writeProperties label (.iri d.subject) j d.properties).1 (.iri d.subject) i ++
        others.objects (.iri d.subject) i) := by
  obtain ⟨j, -, hpart⟩ := ShapeDeclaration.exists_part hinj hsubjects h.carried hd
  refine ⟨j, ?_⟩
  rw [← ShapeDeclaration.objects_write, ← hpart i, ← objects_append]
  exact objects_of_perm h.quads _ i

theorem hasType_subject : g.hasType (.iri d.subject) Sh.nodeShape = true := by
  obtain ⟨j, hperm⟩ := objects_perm hinj hsubjects h hd Rdf.type
  refine List.contains_iff_mem.2 (hperm.mem_iff.2 ?_)
  rw [ShapeDeclaration.objects_own, if_pos rfl]
  simp

theorem object?_description :
    g.object? (.iri d.subject) Sh.description =
      d.description.map fun text => .literal (.simple text) := by
  obtain ⟨j, hperm⟩ := objects_perm hinj hsubjects h hd Sh.description
  have hothers : others.objects (.iri d.subject) Sh.description = [] :=
    List.eq_nil_iff_forall_not_mem.2 fun o ho => by
      obtain ⟨q, hq, _, hpredicate, _⟩ := Graph.mem_objects.1 ho
      exact (h.others q hq).2.1 hpredicate
  rw [ShapeDeclaration.objects_own, if_neg (by decide), if_neg (by decide), if_pos rfl,
    PropertyDeclaration.objects_writeProperties_of_ne (by decide), hothers] at hperm
  rw [object?]
  cases hdescription : d.description with
  | none =>
    rw [hdescription] at hperm
    rw [List.perm_nil.1 hperm]
    rfl
  | some text =>
    rw [hdescription] at hperm
    rw [List.perm_singleton.1 hperm]
    rfl

theorem readEach_subject (hregular : d.Regular) :
    Property.readEach g (g.objects (.iri d.subject) Sh.property) =
      some (.ok (d.properties.map PropertyDeclaration.property)) := by
  obtain ⟨j, hcarried, hpart⟩ := ShapeDeclaration.exists_part hinj hsubjects h.carried hd
  rw [h.properties d hd, hpart, ShapeDeclaration.objects_write, ShapeDeclaration.objects_own,
    if_neg (by decide), if_neg (by decide), if_neg (by decide)]
  exact PropertyDeclaration.readEach_of_carried hinj hregular.properties
    (fun p hp i hi => Graph.outgoing_eq_nil (r := .iri i) (h.plain d hd p hp i hi))
    (hcarried.of_append_iris fun q hq => ⟨d.subject, ShapeDeclaration.subject_own hq⟩)

theorem readSubject (hregular : d.Regular) :
    Shape.readSubject g (.iri d.subject) = some (.ok d.shapes) := by
  have hnames : Shape.duplicate? []
      ((d.properties.map PropertyDeclaration.property).map Property.name) = none := by
    rw [List.map_map]
    exact Shape.duplicate?_eq_none (by simp) hregular.names
  simp only [Shape.readSubject, hasType_subject hinj hsubjects h hd,
    readEach_subject hinj hsubjects h hd hregular, hnames,
    object?_description hinj hsubjects h hd, h.targets_subject hd]
  simp only [Bool.not_true, Bool.false_eq_true, if_false, ShapeDeclaration.shapes, Option.map_map]
  cases d.description <;> rfl

end subject

theorem readSubjects (hinj : Function.Injective label)
    (hsubjects : (ds.map ShapeDeclaration.subject).Nodup) (h : g.Declares label n ds others)
    (hregular : ∀ d ∈ ds, d.Regular) {ordered : List ShapeDeclaration} (hsub : ordered ⊆ ds) :
    Shape.readSubjects g (ordered.map fun d => .iri d.subject) =
      some (.ok (ordered.flatMap ShapeDeclaration.shapes)) := by
  induction ordered with
  | nil => rfl
  | cons d ordered ih =>
    have hd : d ∈ ds := hsub List.mem_cons_self
    have hfirst := readSubject hinj hsubjects h hd (hregular d hd)
    have hrest := ih fun e he => hsub (.tail _ he)
    simp only [List.map_cons, Shape.readSubjects, hfirst, hrest, List.flatMap_cons]

theorem exists_ordered (h : g.Declares label n ds others) : ∃ ordered : List ShapeDeclaration,
    ordered.Perm ds ∧
      g.subjects (.iri Sh.nodeShape) Rdf.type = ordered.map fun d => .iri d.subject := by
  have hothers : others.subjects (.iri Sh.nodeShape) Rdf.type = [] :=
    List.eq_nil_iff_forall_not_mem.2 fun s hs => by
      obtain ⟨q, hq, _, hpredicate, hobject⟩ := Graph.mem_subjects.1 hs
      exact (h.others q hq).2.2 hpredicate hobject
  have hperm : (g.subjects (.iri Sh.nodeShape) Rdf.type).Perm
      (ds.map fun d => .iri d.subject) := by
    refine ((h.quads.filter _).map _).trans ?_
    rw [List.filter_append, List.map_append]
    change List.Perm (Graph.subjects (ShapeDeclaration.writeAll label n ds) _ _ ++
      others.subjects _ _) _
    rw [hothers, ShapeDeclaration.subjects_writeAll, List.append_nil]
  -- reorder the declarations the way their subjects are ordered
  have hcomp : Relation.Comp List.Perm (List.Forall₂ fun (d : ShapeDeclaration) s =>
      s = Term.iri d.subject) ds (g.subjects (.iri Sh.nodeShape) Rdf.type) := by
    rw [← List.forall₂_comp_perm_eq_perm_comp_forall₂]
    exact ⟨_, List.forall₂_map_right_iff.2 (List.forall₂_same.2 fun _ _ => rfl), hperm.symm⟩
  obtain ⟨ordered, hordered, hsame⟩ := hcomp
  refine ⟨ordered, hordered.symm, ?_⟩
  rw [← List.forall₂_eq_eq_eq, List.forall₂_map_right_iff]
  exact hsame.flip

end Graph.Declares

namespace Schema

/-- Declared shapes are read back from their quads, in the order in which the graph declares their
subjects. -/
theorem compile_declared {label : Nat → String} {g others : Graph} {n : Nat}
    {ds : List ShapeDeclaration} (hinj : Function.Injective label)
    (hsubjects : (ds.map ShapeDeclaration.subject).Nodup) (hregular : ∀ d ∈ ds, d.Regular)
    (h : g.Declares label n ds others) (options : Options) :
    ∃ (ordered : List ShapeDeclaration) (schema : Schema), ordered.Perm ds ∧
      g.subjects (.iri Sh.nodeShape) Rdf.type = ordered.map (fun d => .iri d.subject) ∧
      compile options g = some (.ok schema) ∧
      schema.shapes = ordered.flatMap ShapeDeclaration.shapes := by
  obtain ⟨ordered, hperm, hordered⟩ := h.exists_ordered
  have hnodup : (ordered.map fun d => Term.iri d.subject).Nodup := by
    have hiris := ((hperm.map ShapeDeclaration.subject).nodup_iff.2 hsubjects).map
      (f := Term.iri) fun i j hij => Term.iri.inj hij
    rwa [List.map_map] at hiris
  have hread : Shape.readAll g = some (.ok (ordered.flatMap ShapeDeclaration.shapes)) := by
    rw [Shape.readAll, Shape.subjects, hordered, List.eraseDups_of_nodup hnodup]
    exact h.readSubjects hinj hsubjects hregular hperm.subset
  exact ⟨ordered, _, hperm, hordered, compile_of_readAll hread options, rfl⟩

/-! ## two declarations in one graph -/

def personDeclaration : ShapeDeclaration :=
  { subject := ⟨"Person"⟩, targets := [], description := some "people"
    properties :=
      [{ name := "name", path := .predicate ⟨"name"⟩, minCount := some 1, maxCount := some 1
         type := .datatype Xsd.string },
        { name := "circle"
          path := .sequence [.inverse (.predicate ⟨"knows"⟩), .zeroOrMore (.predicate ⟨"knows"⟩)]
          minCount := none, maxCount := some 18446744073709551615
          type := .ofClass ⟨"Person"⟩ }] }

def agentDeclaration : ShapeDeclaration :=
  { subject := ⟨"S"⟩, targets := [⟨"Agent"⟩, ⟨"Robot"⟩], description := none, properties := [] }

def agentLink : Quad := ⟨.iri ⟨"Robot"⟩, Rdfs.subClassOf, .iri ⟨"Agent"⟩, none⟩

/-- The second declaration comes first, and the quads about blank nodes before those that refer to
them, the last of them first. -/
def mixedGraph : Graph :=
  let quads := ShapeDeclaration.writeAll Path.tally 0 [personDeclaration, agentDeclaration]
  quads.filter (fun q => q.subject = .iri ⟨"S"⟩) ++
    (quads.filter fun q => q.subject.toTerm.isBlank).reverse ++
    agentLink :: quads.filter fun q => q.subject = .iri ⟨"Person"⟩

theorem declares_mixedGraph :
    mixedGraph.Declares Path.tally 0 [personDeclaration, agentDeclaration] [agentLink] where
  quads := by decide
  targets := by decide
  properties := by decide
  plain := by decide
  others q hq := by
    rw [List.mem_singleton.1 hq]
    exact ⟨fun k => nofun, by decide, by decide⟩

theorem regular_personDeclaration : personDeclaration.Regular where
  names := by decide
  properties := by
    refine List.forall_mem_cons.2 ⟨⟨.predicate _, by decide, by decide, by decide⟩,
      List.forall_mem_singleton.2 ⟨.sequence ?_, by decide, by decide, by decide⟩⟩
    exact List.forall_mem_cons.2
      ⟨.inverse _, List.forall_mem_singleton.2 (.zeroOrMore (.predicate _))⟩

theorem compile_declared_mixedGraph :
    ∃ (ordered : List ShapeDeclaration) (schema : Schema),
      ordered.Perm [personDeclaration, agentDeclaration] ∧
      mixedGraph.subjects (.iri Sh.nodeShape) Rdf.type = ordered.map (fun d => .iri d.subject) ∧
      compile .default mixedGraph = some (.ok schema) ∧
      schema.shapes = ordered.flatMap ShapeDeclaration.shapes :=
  compile_declared Path.tally_injective (by decide)
    (List.forall_mem_cons.2 ⟨regular_personDeclaration,
      List.forall_mem_singleton.2 ⟨by decide, by simp [agentDeclaration]⟩⟩)
    declares_mixedGraph .default

end Schema
end ShaclExtract
