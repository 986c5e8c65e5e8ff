import ShaclExtract.Proofs.Path.Forms
import ShaclExtract.Schema

/-!
# ShaclExtract.Proofs.Shape.Malformed

Which malformed shape a shapes graph is rejected for, and the node that the failure names.

The faults of a property do not depend on each other, and the first one in a fixed order is reported
(`Property.fault?`). Subjects are read in order of first appearance, and so are the properties of
each; the first that cannot be read decides (`Schema.compile_eq_malformedShape_iff`). Only for a
field name that occurs twice is the failure named after the subject. All others are found while a
property is read, and name the property node, which is often blank (`Schema.compile_pathless`).
-/

namespace ShaclExtract

variable {g : Graph} {node subject : Term} {e : Failure} {n r r' : String}

/-! ## lists and paths -/

/-- What is wrong with a path is not said to be wrong with a shape. -/
theorem Path.read_ne_malformedShape : Path.read g node ≠ some (.error (.malformedShape n r)) := by
  intro h
  obtain ⟨x, -, hx⟩ := Path.exists_failsAt h
  generalize he : Failure.malformedShape n r = e at hx
  cases hx with
  | list hlist =>
    obtain ⟨_, _, _, _, _, _, _, _, rfl⟩ := Collection.read_eq_error_iff.1 hlist
    cases he
  | form => cases he

namespace Property

/-! ## the faults of a property -/

/-- A reader that fails with the fault at a node, and succeeds if there is none. -/
def Reports {α : Type} (x : Except Failure α) (node : Term) : Option String → Prop
  | none => ∃ a, x = .ok a
  | some r => x = .error (malformedShape node r)

theorem Reports.eq_error_iff {α : Type} {x : Except Failure α} {fault : Option String}
    (h : Reports x node fault) :
    x = .error e ↔ ∃ r, fault = some r ∧ e = malformedShape node r := by
  cases fault with
  | none =>
    obtain ⟨a, rfl⟩ := h
    simp
  | some r =>
    obtain rfl : x = _ := h
    simp [eq_comm]

/-- A reader that reads with another one first: the fault of that one is reported if it has one. -/
theorem Reports.first {α β : Type} {x : Except Failure α} {y : Except Failure β}
    {fault fault' : Option String} (hx : Reports x node fault)
    (herror : ∀ e, x = .error e → y = .error e)
    (hok : ∀ a, x = .ok a → Reports y node fault') : Reports y node (fault.or fault') := by
  cases x with
  | error e =>
    obtain ⟨r, rfl, rfl⟩ := hx.eq_error_iff.1 rfl
    exact herror _ rfl
  | ok a =>
    cases fault with
    | none => exact hok a rfl
    | some r => cases hx

theorem Reports.only {α β : Type} {x : Except Failure α} {y : Except Failure β}
    {fault : Option String} (hx : Reports x node fault)
    (herror : ∀ e, x = .error e → y = .error e) (hok : ∀ a, x = .ok a → ∃ b, y = .ok b) :
    Reports y node fault := by
  have h : Reports y node (fault.or none) := hx.first herror hok
  rwa [Option.or_none] at h

def countFault? (g : Graph) (node : Term) (predicate : Iri) : Option String :=
  ((g.object? node predicate).filter
    fun t => (Number.count? (Text.trim t.lexical.toList)).isNone).map
      fun t => predicate.toText ++ " is not a count: " ++ t.toText

def iriFault? (g : Graph) (node : Term) (predicate : Iri) : Option String :=
  ((g.object? node predicate).filter fun t => t.iri?.isNone).map
    fun t => predicate.toText ++ " must be an IRI, found " ++ t.toText

def typeFault? (g : Graph) (node : Term) (name : String) : Option String :=
  match g.object? node Sh.classOf, g.object? node Sh.datatype with
  | some _, some _ => some (name ++ ": both sh:class and sh:datatype")
  | none, none => some (name ++ ": needs sh:class or sh:datatype")
  | _, _ => none

/-- The first fault of a property with a path. -/
def fault? (g : Graph) (node : Term) (path : Path) : Option String :=
  match g.object? node Sh.name with
  | none => some ("missing sh:name for path " ++ path.toSparql)
  | some t =>
    (countFault? g node Sh.minCount).or <| (countFault? g node Sh.maxCount).or <|
      (iriFault? g node Sh.classOf).or <| (iriFault? g node Sh.datatype).or <|
        typeFault? g node t.lexical

theorem reports_readCount (g : Graph) (node : Term) (predicate : Iri) :
    Reports (readCount g node predicate) node (countFault? g node predicate) := by
  unfold readCount countFault?
  cases g.object? node predicate with
  | none => exact ⟨none, rfl⟩
  | some t =>
    cases hcount : Number.count? (Text.trim t.lexical.toList) <;>
      simp [Reports, Option.filter, hcount]

theorem reports_readIri (g : Graph) (node : Term) (predicate : Iri) :
    Reports (readIri g node predicate) node (iriFault? g node predicate) := by
  unfold readIri iriFault?
  cases g.object? node predicate with
  | none => exact ⟨none, rfl⟩
  | some t => cases t <;> simp [Reports, Option.filter, Term.iri?]

theorem isSome_of_readIri {predicate : Iri} {o : Option Iri}
    (h : readIri g node predicate = .ok o) : o.isSome = (g.object? node predicate).isSome := by
  unfold readIri at h
  split at h <;> cases h <;> simp [*]

theorem reports_readType (g : Graph) (node : Term) (name : String) :
    Reports (readType g node name) node ((iriFault? g node Sh.classOf).or <|
      (iriFault? g node Sh.datatype).or <| typeFault? g node name) := by
  unfold readType
  refine (reports_readIri g node Sh.classOf).first (fun e he => by rw [he]) fun cls hcls => ?_
  refine (reports_readIri g node Sh.datatype).first (fun e he => by rw [hcls, he])
    fun datatype hdatatype => ?_
  have hc := isSome_of_readIri hcls
  have hd := isSome_of_readIri hdatatype
  rw [typeFault?, hcls, hdatatype]
  cases hco : g.object? node Sh.classOf <;> cases hdo : g.object? node Sh.datatype <;>
    cases cls <;> cases datatype <;> simp_all [Reports]

theorem reports_readRest (g : Graph) (node : Term) (path : Path) :
    Reports (readRest g node path) node (fault? g node path) := by
  unfold readRest fault?
  cases g.object? node Sh.name with
  | none => exact rfl
  | some t =>
    refine (reports_readCount g node Sh.minCount).first (fun e he => by simp only [he])
      fun minCount hmin => ?_
    refine (reports_readCount g node Sh.maxCount).first (fun e he => by simp only [hmin, he])
      fun maxCount hmax => ?_
    refine (reports_readType g node t.lexical).only (fun e he => by simp only [hmin, hmax, he])
      fun type htype => ?_
    simp only [hmin, hmax, htype]
    exact ⟨_, rfl⟩

/-- The node is no property, for the reason that is reported. -/
inductive Malformed (g : Graph) (node : Term) : String → Prop where
  | pathless : g.object? node Sh.path = none → Malformed g node "missing sh:path"
  | faulty {p : Term} {path : Path} {r : String} : g.object? node Sh.path = some p →
      Path.read g p = some (.ok path) → fault? g node path = some r → Malformed g node r

theorem malformedShape_inj {node : Term} :
    Failure.malformedShape n r = malformedShape node r' ↔ n = node.toText ∧ r = r' := by
  simp [malformedShape]

theorem read_eq_malformedShape_iff :
    read g node = some (.error (.malformedShape n r)) ↔ n = node.toText ∧ Malformed g node r := by
  constructor
  · intro h
    unfold read at h
    split at h
    · rename_i hpath
      obtain ⟨rfl, rfl⟩ := malformedShape_inj.1 (Except.error.inj (Option.some.inj h)).symm
      exact ⟨rfl, .pathless hpath⟩
    · rename_i p hpath
      split at h
      · cases h
      · rename_i e he
        cases h
        exact absurd he Path.read_ne_malformedShape
      · rename_i path hread
        obtain ⟨r', hfault, heq⟩ :=
          (reports_readRest g node path).eq_error_iff.1 (Option.some.inj h)
        obtain ⟨rfl, rfl⟩ := malformedShape_inj.1 heq
        exact ⟨rfl, .faulty hpath hread hfault⟩
  · rintro ⟨rfl, h⟩
    cases h with
    | pathless hpath => simp only [read, hpath, malformedShape]
    | faulty hpath hread hfault =>
      simp only [read, hpath, hread]
      exact congrArg some ((reports_readRest g node _).eq_error_iff.2 ⟨r, hfault, rfl⟩)

theorem readEach_eq_error_iff {nodes : List Term} :
    readEach g nodes = some (.error e) ↔
      ∃ node, ReadUpTo (read g) nodes node ∧ read g node = some (.error e) := by
  refine eq_error_iff_readUpTo nofun fun y nodes => ?_
  rw [readEach]
  rcases read g y with _ | e' | f
  · simp
  · simp
  · rcases readEach g nodes with _ | e' | fs <;> simp

end Property

/-! ## subjects -/

namespace Shape

/-- The first name that stands in the list before. -/
def Repeats (names : List String) (name : String) : Prop :=
  ∃ before after, names = before ++ name :: after ∧ before.Nodup ∧ name ∈ before

theorem duplicate?_eq_some_iff {seen names : List String} {name : String} (hseen : seen.Nodup) :
    duplicate? seen names = some name ↔ ∃ before after, names = before ++ name :: after ∧
      (seen.reverse ++ before).Nodup ∧ name ∈ seen.reverse ++ before := by
  induction names generalizing seen with
  | nil => simp [duplicate?]
  | cons y names ih =>
    have hmove : ∀ before, (y :: seen).reverse ++ before = seen.reverse ++ y :: before := by simp
    rw [duplicate?]
    split
    · rename_i hy
      constructor
      · rintro ⟨⟩
        exact ⟨[], names, rfl, by simpa using hseen, by simpa using hy⟩
      · rintro ⟨before, after, heq, hnodup, -⟩
        cases before with
        | nil => rw [(List.cons.inj heq).1]
        | cons z before =>
          obtain ⟨rfl, -⟩ := List.cons.inj heq
          have hdisjoint := (List.nodup_append'.1 hnodup).2.2
          exact absurd List.mem_cons_self (hdisjoint (List.mem_reverse.2 hy))
    · rename_i hy
      rw [ih (List.nodup_cons.2 ⟨hy, hseen⟩)]
      simp only [hmove]
      constructor
      · rintro ⟨before, after, rfl, hnodup, hname⟩
        exact ⟨y :: before, after, rfl, hnodup, hname⟩
      · rintro ⟨before, after, heq, hnodup, hname⟩
        cases before with
        | nil =>
          rw [List.append_nil, List.mem_reverse, ← (List.cons.inj heq).1] at hname
          exact absurd hname hy
        | cons z before =>
          obtain ⟨rfl, rfl⟩ := List.cons.inj heq
          exact ⟨before, after, rfl, hnodup, hname⟩

theorem hasType_of_mem_subjects (h : subject ∈ subjects g) :
    g.hasType subject Sh.nodeShape = true := by
  obtain ⟨q, hq, hsubject, hpredicate, hobject⟩ :=
    Graph.mem_subjects.1 (List.mem_eraseDups.1 h)
  exact List.contains_iff_mem.2 (Graph.mem_objects.2 ⟨q, hq, hsubject, hpredicate, hobject⟩)

/-- The subject is no shape, for the reason that is reported, and the failure names the node. -/
inductive Malformed (g : Graph) (subject : Term) : (node : Term) → (reason : String) → Prop where
  | property {node : Term} {r : String} :
      ReadUpTo (Property.read g) (g.objects subject Sh.property) node →
      Property.Malformed g node r → Malformed g subject node r
  | duplicate {properties : List Property} {name : String} :
      Property.readEach g (g.objects subject Sh.property) = some (.ok properties) →
      Repeats (properties.map Property.name) name →
      Malformed g subject subject ("duplicate field name " ++ Text.quoted name)

theorem readSubject_eq_malformedShape_iff (h : subject ∈ subjects g) :
    readSubject g subject = some (.error (.malformedShape n r)) ↔
      ∃ node, n = node.toText ∧ Malformed g subject node r := by
  have htype := hasType_of_mem_subjects h
  constructor
  · intro h
    simp only [readSubject, htype, Bool.not_true, Bool.false_eq_true, if_false] at h
    split at h
    · cases h
    · rename_i e he
      cases h
      obtain ⟨node, hnode, hread⟩ := Property.readEach_eq_error_iff.1 he
      obtain ⟨rfl, hmalformed⟩ := Property.read_eq_malformedShape_iff.1 hread
      exact ⟨node, rfl, .property hnode hmalformed⟩
    · rename_i properties hproperties
      split at h
      · rename_i name hname
        obtain ⟨rfl, rfl⟩ :=
          Property.malformedShape_inj.1 (Except.error.inj (Option.some.inj h)).symm
        have hrepeats := (duplicate?_eq_some_iff .nil).1 hname
        exact ⟨subject, rfl, .duplicate hproperties hrepeats⟩
      · cases h
  · rintro ⟨node, rfl, hmalformed⟩
    simp only [readSubject, htype, Bool.not_true, Bool.false_eq_true, if_false]
    cases hmalformed with
    | property hnode hmalformed =>
      have hread := Property.read_eq_malformedShape_iff.2 ⟨rfl, hmalformed⟩
      simp only [Property.readEach_eq_error_iff.2 ⟨node, hnode, hread⟩]
    | duplicate hproperties hrepeats =>
      simp only [hproperties, (duplicate?_eq_some_iff .nil).2 hrepeats, malformedShape]

theorem readSubjects_eq_error_iff {subjects : List Term} :
    readSubjects g subjects = some (.error e) ↔
      ∃ subject, ReadUpTo (readSubject g) subjects subject ∧
        readSubject g subject = some (.error e) := by
  refine eq_error_iff_readUpTo nofun fun y subjects => ?_
  rw [readSubjects]
  rcases readSubject g y with _ | e' | shapes
  · simp
  · simp
  · rcases readSubjects g subjects with _ | e' | more <;> simp

end Shape

namespace Schema

variable {options : Options}

theorem compile_eq_error_iff :
    compile options g = some (.error e) ↔ Shape.readAll g = some (.error e) := by
  unfold compile
  rcases Shape.readAll g with _ | e' | shapes <;> simp

/--
A shapes graph is rejected for a malformed shape exactly if the first subject that cannot be read is
malformed. The failure names the subject for a repeated field name, and else the property node.
-/
theorem compile_eq_malformedShape_iff :
    compile options g = some (.error (.malformedShape n r)) ↔
      ∃ subject, ReadUpTo (Shape.readSubject g) (Shape.subjects g) subject ∧
        ∃ node, n = node.toText ∧ Shape.Malformed g subject node r := by
  rw [compile_eq_error_iff, Shape.readAll, Shape.readSubjects_eq_error_iff]
  refine exists_congr fun subject => and_congr_right fun hsubject => ?_
  exact Shape.readSubject_eq_malformedShape_iff hsubject.mem

def pathlessShapes : Graph :=
  [⟨.iri ⟨"S"⟩, Rdf.type, .iri Sh.nodeShape, none⟩,
    ⟨.iri ⟨"S"⟩, Sh.property, .blank "p", none⟩]

/-- The failure names the property node, and not the shape. -/
theorem compile_pathless :
    Shape.subjects pathlessShapes = [.iri ⟨"S"⟩] ∧
    compile .default pathlessShapes =
      some (.error (.malformedShape (Term.blank "p").toText "missing sh:path")) ∧
    (Term.blank "p").toText ≠ (Term.iri ⟨"S"⟩).toText :=
  ⟨by decide, rfl, by decide⟩

end Schema
end ShaclExtract
