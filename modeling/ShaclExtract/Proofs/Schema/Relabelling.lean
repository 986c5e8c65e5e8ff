import ShaclExtract.Proofs.Memo.Relabelling
import ShaclExtract.Proofs.Path.Relabelling
import ShaclExtract.Proofs.Schema.Correspondence
import ShaclExtract.Proofs.Schema.Tandem
import ShaclExtract.Rendering

/-!
# ShaclExtract.Proofs.Schema.Relabelling

What the labels of blank nodes mean to extraction: nothing, as long as none of them is read as text
(`Schema.extract_relabelled`). On a relabelled graph, from the relabelled focus, extraction succeeds
if and only if it does on the graph itself, with the relabelled memo and value.

A property that is read by datatype takes its text from a node, or from the key and the default of
a variable (`Datatype.sources`). The lexical form of a blank node is its label, so where the text is
taken from a blank node the label is data.
-/

namespace ShaclExtract

open Relation

variable {f : String ↪ String}

/-! ## datatypes -/

namespace Datatype

/-- The datatypes that make something of the text of a node. -/
def known : List Iri := integers ++ floats ++ [Xsd.string, Xsd.dateTime, Xsd.boolean]

/-- The terms whose text decides about the value. -/
def sources (env : Environment) (d : Iri) (view : View) : List Term :=
  if !view.focus.isLiteral && view.graph.hasType view.focus Rdfl.envVariable then
    match view.graph.object? view.focus Rdfl.envKey with
    | none => []
    | some key =>
      if env key.lexical = none then key :: (view.graph.object? view.focus Rdfl.envDefault).toList
      else [key]
  else if d ∈ known then [view.focus] else []

theorem read_of_not_known {d : Iri} (h : d ∉ known) (lexical : String) (t : Term) :
    read lexical d t = .ok (.term t) := by
  simp only [known, List.mem_append, List.mem_cons, List.not_mem_nil, or_false, not_or] at h
  obtain ⟨⟨hinteger, hfloat⟩, hstring, hdateTime, hboolean⟩ := h
  simp only [read, hinteger, hfloat, hstring, hdateTime, hboolean, if_false]

theorem orInvalid_relabelled {α : Type} (lexical : String) (d : Iri) {build : α → Value}
    (hbuild : ∀ x, (build x).relabelled f = build x) (x : Option α) :
    Outcomes (Value.Relabels f) (orInvalid lexical d build x)
      (orInvalid lexical d build x) := by
  cases x with
  | none => trivial
  | some x => exact (hbuild x).symm

theorem read_relabelled (lexical : String) (d : Iri) (t : Term) :
    Outcomes (Value.Relabels f) (read lexical d t)
      (read lexical d (t.relabelled f)) := by
  unfold read
  split_ifs
  · exact orInvalid_relabelled lexical d (fun _ => rfl) _
  · exact orInvalid_relabelled lexical d (fun _ => rfl) _
  · exact rfl
  · exact orInvalid_relabelled lexical d (fun _ => rfl) _
  · exact rfl
  · exact rfl

/-- A variable has the same value if its key and the default that is needed are no labels. -/
theorem resolve_relabelled {env : Environment} {key : Term} {default : Option Term}
    (h : ∀ t ∈ if env key.lexical = none then key :: default.toList else [key],
      t.isBlank = false) :
    LexicalSource.resolve env (.environment (key.relabelled f).lexical
      ((default.map (Term.relabelled f)).map Term.lexical)) =
        LexicalSource.resolve env (.environment key.lexical (default.map Term.lexical)) := by
  have hkey : key.relabelled f = key := by
    refine Term.relabelled_of_not_blank f (h key ?_)
    split <;> exact List.mem_cons_self
  rw [hkey]
  cases henv : env key.lexical with
  | some value => simp only [LexicalSource.resolve, henv]
  | none =>
    cases default with
    | none => rfl
    | some t =>
      rw [if_pos henv] at h
      rw [Option.map_some, Term.relabelled_of_not_blank f (h t (by simp))]

/-- Where no label is read as text, what is read has nothing but its own labels changed. -/
theorem extract_of_sources {env : Environment} {d : Iri} {view : View}
    (h : ∀ t ∈ sources env d view, t.isBlank = false) :
    Outcomes (Value.Relabels f) (extract env d view)
      (extract env d (view.relabelled f)) := by
  have htype : (view.relabelled f).graph.hasType (view.relabelled f).focus Rdfl.envVariable =
      view.graph.hasType view.focus Rdfl.envVariable := view.graph.hasType_relabelled f _ _
  have hobject : ∀ i, (view.relabelled f).graph.object? (view.relabelled f).focus i =
      (view.graph.object? view.focus i).map (Term.relabelled f) :=
    view.graph.object?_relabelled f _
  have hliteral : (view.relabelled f).focus.isLiteral = view.focus.isLiteral :=
    view.focus.isLiteral_relabelled f
  unfold extract LexicalSource.of
  unfold sources at h
  rw [htype, hobject, hobject, hliteral]
  split at h
  · rename_i hvariable
    rw [if_pos hvariable, if_pos hvariable]
    cases hkey : view.graph.object? view.focus Rdfl.envKey with
    | none => trivial
    | some key =>
      simp only [hkey] at h
      have hresolve := resolve_relabelled (f := f) h
      simp only [Option.map_some, hresolve]
      -- whichever text it is, an unknown datatype leaves it as a literal
      cases LexicalSource.resolve env _ with
      | error e => trivial
      | ok text => exact read_relabelled text d (.literal (.simple text))
  · rename_i hvariable
    rw [if_neg hvariable, if_neg hvariable]
    simp only [LexicalSource.resolve, LexicalSource.term]
    split at h
    · have hfocus : view.focus.relabelled f = view.focus :=
        Term.relabelled_of_not_blank f (h _ (List.mem_singleton_self _))
      have hread := read_relabelled (f := f) view.focus.lexical d view.focus
      simpa only [View.relabelled, hfocus] using hread
    · rename_i hknown
      rw [read_of_not_known hknown, read_of_not_known hknown]
      exact rfl

end Datatype

/-! ## runs -/

theorem Value.congruent_relabelled : Congruent (Relabels f) where
  list h := congrArg Value.list (relabelledItems_eq h)
  record h := congrArg Value.record (relabelledFields_eq h)

def RunState.relabelling (f : String ↪ String) : Tandem RunState RunState where
  states s t := t = s.relabelled f
  grows _ _ := True
  refl _ := trivial
  trans _ _ := trivial

namespace Tandem

theorem together_relabelled_shared {id : ExtractorId} {x y : Extractor RunState View Value}
    {view : View} (h : (RunState.relabelling f).Together (Value.Relabels f) (x view)
      (y (view.relabelled f))) :
    (RunState.relabelling f).Together (Value.Relabels f) (Memo.shared id x view)
      (Memo.shared id y (view.relabelled f)) := by
  rintro s _ rfl
  have hkey := MemoKey.of_relabelled (f := f) id view.focus
  have hlookup := s.memo.lookup_relabelled (f := f) (.of id view.focus)
  rw [← hkey] at hlookup
  unfold Memo.shared
  have hfocus : (view.relabelled f).focus = view.focus.relabelled f := rfl
  simp only [RunState.relabelled, hfocus, hlookup, Memo.next_relabelled]
  cases s.memo.lookup (.of id view.focus) with
  | some slot => exact .some ⟨rfl, rfl, trivial⟩
  | none =>
    have hxy := h { s with memo := s.memo.reserve (.of id view.focus) } _ rfl
    simp only [RunState.relabelled, ← Memo.reserve_relabelled, ← hkey] at hxy
    generalize x view { s with memo := s.memo.reserve (.of id view.focus) } = o at hxy ⊢
    generalize y (view.relabelled f) _ = o' at hxy ⊢
    cases hxy with
    | none => exact .none
    | @some p q hpq =>
      obtain ⟨r, s'⟩ := p
      obtain ⟨r', t'⟩ := q
      obtain ⟨hr, rfl, -⟩ := hpq
      obtain ⟨e, e', rfl, rfl⟩ | ⟨v, _, rfl, rfl, rfl⟩ := hr.cases
      · exact .some ⟨trivial, congrArg (RunState.mk · s'.counters)
          (s'.memo.failFrom_relabelled s.memo.next), trivial⟩
      · exact .some ⟨rfl, congrArg (RunState.mk · s'.counters)
          (s'.memo.settle_relabelled s.memo.next v), trivial⟩

theorem merges_relabelled :
    (RunState.relabelling f).Merges (Value.Relabels f) .memoized .memoized := by
  rintro s _ vs ws rfl h
  refine Value.congruent_relabelled.record (Setting.related_mergedRecord_of_fields ?_)
  refine h.imp fun v w hvw r r' hr => ?_
  have hresolve : Strategy.memoized.resolve (s.relabelled f) w =
      (s.memo.resolve v).relabelled f := hvw ▸ s.memo.resolve_relabelled v
  rw [hresolve]
  change Record.Related _ (Setting.Represented.mergeFields r (s.memo.resolve v)) _
  cases s.memo.resolve v with
  | record fields => exact hr.merge (Value.related_relabelledFields fields)
  | _ => exact hr

end Tandem

/-! ## extraction -/

namespace Schema

/-- Wherever extraction may come, no label of a blank node is read as text. -/
def ReadsNoLabel (schema : Schema) (r : Routine) (view : View) : Prop :=
  ∀ sh ∈ schema.shapes, ∀ view', ReflTransGen schema.Invokes (r, view) (.ofClass sh.target, view') →
    ∀ p ∈ sh.properties, ∀ d, p.type = .datatype d → ∀ node, p.Reaches view' node →
      ∀ t ∈ Datatype.sources schema.setting.environment d (view'.refocus node), t.isBlank = false

theorem ReadsNoLabel.of_invokes {schema : Schema} {r r' : Routine} {view view' : View}
    (h : schema.ReadsNoLabel r view) (hinvokes : schema.Invokes (r, view) (r', view')) :
    schema.ReadsNoLabel r' view' :=
  fun sh hsh view'' h' => h sh hsh view'' (.head hinvokes h')

variable {options : Options} {g : Graph} {schema : Schema} {view : View}

theorem Invokes.not_procedure {c : Routine × View} {r : Routine} {view : View}
    (h : schema.Invokes c (r, view)) : ∀ name, r ≠ .procedure name := by
  rintro name rfl
  cases h

section programs

variable {invoke : Routine → Extractor RunState View Value}

theorem together_registered (ht : schema.setting.transforms = .empty) {cls : Iri} {p : Program}
    (hp : Registered schema.shapes cls p) (hview : schema.ReadsNoLabel (.ofClass cls) view)
    (h : ∀ r view', schema.Invokes (.ofClass cls, view) (r, view') →
      (RunState.relabelling f).Together (Value.Relabels f) (invoke r view')
        (invoke r (view'.relabelled f))) :
    (RunState.relabelling f).Together (Value.Relabels f)
      (p.extractor schema.setting .memoized invoke view)
      (p.extractor schema.setting .memoized invoke (view.relabelled f)) := by
  cases hp with
  | cbd => exact .answer (congrArg Value.quads (view.graph.description_relabelled f view.focus))
  | pathLens =>
    simp only [Program.extractor]
    unfold Program.pathExtractor
    obtain ⟨h, h'⟩ | ⟨e, e', h, h'⟩ | ⟨via, h, h'⟩ :=
      (Path.read_relabelled f view.graph view.focus).cases
    · rw [h, View.relabelled, h']
      exact .endless
    · rw [h, View.relabelled, h']
      exact .answer trivial
    · rw [h, View.relabelled, h']
      exact .answer rfl
  | context => exact .answer rfl
  | typedExtract =>
    have htypes : (view.relabelled f).types = [] ↔ view.types = [] := by
      rw [View.types_relabelled, List.map_eq_nil_iff]
    refine (Tandem.together_typed htypes (h _ _ .typed)).map ?_
    rintro _ _ (⟨hv⟩ | _)
    · exact hv
    · exact rfl
  | shape hsh =>
    refine .shape Value.congruent_relabelled fun p hp => ?_
    have hwalk := p.path.walk_relabelled f view.graph view.focus
    cases hw : p.path.walk view.graph view.focus with
    | error e =>
      rw [hw] at hwalk
      rw [View.relabelled, hwalk]
      trivial
    | ok hops =>
      rw [hw] at hwalk
      rw [View.relabelled, hwalk]
      refine List.forall₂_map_right_iff.2 (List.forall₂_same.2 fun n hn => ?_)
      have hreaches : p.Reaches view n := ⟨hops, hw, hn⟩
      refine Tandem.together_element (Tandem.transforms_of_empty ht _ _) (fun cls hcls => ?_)
        fun d hd => ?_
      · exact h _ _ (.property hsh hp hcls hreaches)
      · exact Datatype.extract_of_sources (hview _ hsh view .refl p hp d hd n hreaches)

end programs

theorem together_invoke (ho : options.custom = []) (ht : options.transforms = .empty)
    (hc : compile options g = some (.ok schema)) (depth : Nat) {r : Routine} {view : View}
    (hr : ∀ name, r ≠ .procedure name) (hview : schema.ReadsNoLabel r view) :
    (RunState.relabelling f).Together (Value.Relabels f)
      (schema.setting.invoke .memoized depth r view)
      (schema.setting.invoke .memoized depth r (view.relabelled f)) := by
  have hS : schema.setting.transforms = .empty := (transforms_eq_of_compile hc).trans ht
  induction depth generalizing r view with
  | zero => exact .endless
  | succ depth ih =>
    have hinvoke : ∀ r' view', schema.Invokes (r, view) (r', view') →
        (RunState.relabelling f).Together (Value.Relabels f)
          (schema.setting.invoke .memoized depth r' view')
          (schema.setting.invoke .memoized depth r' (view'.relabelled f)) :=
      fun r' view' h => ih h.not_procedure (hview.of_invokes h)
    cases hp : schema.setting.program? r with
    | none =>
      simp only [Setting.invoke, hp]
      exact .answer trivial
    | some p =>
      simp only [Setting.invoke, hp]
      refine Tandem.together_relabelled_shared ?_
      cases r with
      | ofClass cls =>
        obtain ⟨ps, rfl, hps⟩ := (registered_of_compile ho hc).program hp
        simp only [Program.extractor, Program.extractors_eq_map]
        refine .firstOf ?_
        refine List.forall₂_map_left_iff.2 (List.forall₂_map_right_iff.2 (List.forall₂_same.2 ?_))
        exact fun p hp => together_registered hS (hps p hp) hview hinvoke
      | procedure name => exact absurd rfl (hr name)
      | dispatch =>
        cases hp
        have hasserted : Setting.assertedTypes (view.relabelled f) =
            Setting.assertedTypes view := by
          simp [Setting.assertedTypes, View.types_relabelled, List.filterMap_map]
        exact Tandem.together_dispatched (Tandem.transforms_of_empty hS _ _)
          Tandem.merges_relabelled hasserted fun cls hcls => hinvoke _ _ (.dispatch hcls)

end Schema

def Extraction.relabelled (f : String ↪ String) (x : Extraction) : Extraction :=
  ⟨x.raw.relabelled f, x.memo.relabelled f⟩

namespace Schema

variable {options : Options} {g : Graph} {schema : Schema}

theorem together_classExtractor (ho : options.custom = []) (ht : options.transforms = .empty)
    (hc : compile options g = some (.ok schema)) {cls : Iri} {view : View}
    (hview : schema.ReadsNoLabel (.ofClass cls) view) :
    (RunState.relabelling f).Together (Value.Relabels f) (schema.classExtractor cls view)
      (schema.classExtractor cls (view.relabelled f)) := by
  have hS : schema.setting.transforms = .empty := (transforms_eq_of_compile hc).trans ht
  have hdepth : schema.setting.depth (view.relabelled f).graph =
      schema.setting.depth view.graph := by
    rw [Setting.depth, View.relabelled, Graph.length_relabelled, Setting.depth]
  have hinvoke := together_invoke (f := f) ho ht hc (schema.setting.depth view.graph)
    (fun name h => by cases h) hview
  have hinstance := hinvoke.andThen (Tandem.transforms_of_empty (V := Value.Relabels f) hS
    .memoized .memoized cls)
  intro s t hst
  simp only [classExtractor, Setting.run, hdepth]
  exact hinstance s t hst

theorem extract_together (ho : options.custom = []) (ht : options.transforms = .empty)
    (hc : compile options g = some (.ok schema)) {cls : Iri} {view : View}
    (hview : schema.ReadsNoLabel (.ofClass cls) view) :
    Option.Rel (Outcomes fun x y => y = x.relabelled f) (schema.extract cls view)
      (schema.extract cls (view.relabelled f)) := by
  have h := together_classExtractor (f := f) ho ht hc hview (.start .empty) (.start .empty) rfl
  rw [extract_eq_map, extract_eq_map]
  generalize schema.classExtractor cls view (.start .empty) = o at h ⊢
  generalize schema.classExtractor cls (view.relabelled f) (.start .empty) = o' at h ⊢
  cases h with
  | none => exact .none
  | @some p q hpq =>
    obtain ⟨r, s⟩ := p
    obtain ⟨r', t⟩ := q
    obtain ⟨hr, rfl, -⟩ := hpq
    obtain ⟨e, e', rfl, rfl⟩ | ⟨v, _, rfl, rfl, rfl⟩ := hr.cases
    · exact .some trivial
    · exact .some rfl

/-- If no label is read as text, then extraction from a relabelled focus and graph succeeds if and
only if it does on the labels as they are, and has the value and the memo relabelled. -/
theorem extract_relabelled (ho : options.custom = []) (ht : options.transforms = .empty)
    (hc : compile options g = some (.ok schema)) (f : String ↪ String) (cls : Iri) (view : View)
    (hview : schema.ReadsNoLabel (.ofClass cls) view) :
    ((∃ y, schema.extract cls (view.relabelled f) = some (.ok y)) ↔
      ∃ x, schema.extract cls view = some (.ok x)) ∧
    ∀ x y, schema.extract cls view = some (.ok x) →
      schema.extract cls (view.relabelled f) = some (.ok y) →
        y = x.relabelled f ∧ y.toJson = (x.relabelled f).toJson := by
  have h := extract_together (f := f) ho ht hc hview
  refine ⟨⟨?_, ?_⟩, ?_⟩
  · rintro ⟨y, hy⟩
    rw [hy] at h
    generalize schema.extract cls view = o at h ⊢
    cases h with
    | some hr =>
      obtain ⟨_, _, _, hy⟩ | ⟨x, _, rfl, _⟩ := hr.cases
      · cases hy
      · exact ⟨x, rfl⟩
  · rintro ⟨x, hx⟩
    rw [hx] at h
    generalize schema.extract cls (view.relabelled f) = o at h ⊢
    cases h with
    | some hr =>
      obtain ⟨_, _, hx, _⟩ | ⟨_, y, _, rfl, _⟩ := hr.cases
      · cases hx
      · exact ⟨y, rfl⟩
  · intro x y hx hy
    rw [hx, hy] at h
    cases h with
    | some hxy => exact ⟨hxy, congrArg Extraction.toJson hxy⟩

/-! ## a number read from the node itself -/

def atMostNext : Path := .zeroOrOne (.predicate ⟨"next"⟩)

/-- An instance of the class is a number, with all that is visible. -/
def numeral : Shape :=
  ⟨"S", ⟨"C"⟩, none, [⟨"self", atMostNext, 1, some 1, .datatype Xsd.integer⟩,
    ⟨"seen", atMostNext, 1, some 1, .ofClass Rdfl.context⟩]⟩

def numeralShapes : Graph :=
  [⟨.iri ⟨"S"⟩, Rdf.type, .iri Sh.nodeShape, none⟩,
    ⟨.iri ⟨"S"⟩, Sh.targetClass, .iri ⟨"C"⟩, none⟩,
    ⟨.iri ⟨"S"⟩, Sh.property, .blank "p", none⟩,
    ⟨.iri ⟨"S"⟩, Sh.property, .blank "q", none⟩,
    ⟨.blank "p", Sh.path, .blank "o", none⟩,
    ⟨.blank "p", Sh.name, .literal (.simple "self"), none⟩,
    ⟨.blank "p", Sh.datatype, .iri Xsd.integer, none⟩,
    ⟨.blank "p", Sh.minCount, .literal (.simple "1"), none⟩,
    ⟨.blank "p", Sh.maxCount, .literal (.simple "1"), none⟩,
    ⟨.blank "q", Sh.path, .blank "o", none⟩,
    ⟨.blank "q", Sh.name, .literal (.simple "seen"), none⟩,
    ⟨.blank "q", Sh.classOf, .iri Rdfl.context, none⟩,
    ⟨.blank "q", Sh.minCount, .literal (.simple "1"), none⟩,
    ⟨.blank "q", Sh.maxCount, .literal (.simple "1"), none⟩,
    ⟨.blank "o", Sh.zeroOrOnePath, .iri ⟨"next"⟩, none⟩]

def numeralSchema : Schema :=
  ⟨[numeral], registry [] [numeral], .ofGraph numeralShapes, .empty, fun _ => none, .empty⟩

theorem compile_numeralShapes : compile .default numeralShapes = some (.ok numeralSchema) :=
  compile_of_readAll (by rfl) .default

/-- The node stands for a variable that is five unless it is given. -/
def variableView (label : String) : View :=
  ⟨.blank label,
    [⟨.blank label, Rdf.type, .iri Rdfl.envVariable, none⟩,
      ⟨.blank label, Rdfl.envKey, .literal (.simple "N"), none⟩,
      ⟨.blank label, Rdfl.envDefault, .literal (.simple "5"), none⟩]⟩

def numeralExtraction (view : View) : Extraction :=
  ⟨.ref ⟨0⟩,
    ⟨[.ready (.record [("seen", .ref ⟨1⟩), ("self", .integer 5)]), .ready (.record view.record)],
      [(.of (.routine (.ofClass Rdfl.context)) view.focus, ⟨1⟩),
        (.of (.routine (.ofClass ⟨"C"⟩)) view.focus, ⟨0⟩)]⟩⟩

theorem extract_variableView :
    numeralSchema.extract ⟨"C"⟩ (variableView "n") =
      some (.ok (numeralExtraction (variableView "n"))) := by rfl

theorem invokes_numeral {view : View} {c : Routine × View}
    (h : ReflTransGen numeralSchema.Invokes (.ofClass ⟨"C"⟩, view) c) :
    c = (.ofClass ⟨"C"⟩, view) ∨ c.1 = .ofClass Rdfl.context := by
  induction h with
  | refl => exact .inl rfl
  | @tail b c _ hnext ih =>
    obtain ⟨r, view'⟩ := b
    cases hnext with
    | typed =>
      have hne : Rdfl.typedExtract ≠ ⟨"C"⟩ ∧ Rdfl.typedExtract ≠ Rdfl.context := by decide
      rcases ih with heq | heq
      · exact absurd (Routine.ofClass.inj (Prod.mk.inj heq).1) hne.1
      · exact absurd (Routine.ofClass.inj heq) hne.2
    | dispatch _ =>
      rcases ih with heq | heq <;> cases heq
    | property hsh hp hcls _ =>
      rw [List.mem_singleton.1 hsh] at hp
      simp only [numeral, List.mem_cons, List.not_mem_nil, or_false] at hp
      rcases hp with rfl | rfl
      · cases hcls
      · cases hcls
        exact .inr rfl

theorem readsNoLabel_variableView :
    numeralSchema.ReadsNoLabel (.ofClass ⟨"C"⟩) (variableView "n") := by
  intro sh hsh view hinvokes p hp d hd node hnode t ht
  rw [List.mem_singleton.1 hsh] at hinvokes hp
  obtain rfl : view = variableView "n" := by
    rcases invokes_numeral hinvokes with heq | heq
    · exact (Prod.mk.inj heq).2
    · exact absurd (Routine.ofClass.inj heq) (by decide)
  simp only [numeral, List.mem_cons, List.not_mem_nil, or_false] at hp
  rcases hp with rfl | rfl
  · have hwalk : atMostNext.walk (variableView "n").graph (variableView "n").focus =
        .ok [.blank "n"] := by rfl
    have hsources : Datatype.sources numeralSchema.setting.environment Xsd.integer
        (variableView "n") = [.literal (.simple "N"), .literal (.simple "5")] := by rfl
    obtain ⟨hops, hok, hmem⟩ := hnode
    cases hwalk.symm.trans hok
    cases hd
    obtain rfl := List.mem_singleton.1 hmem
    have ht : t ∈ [Term.literal (.simple "N"), .literal (.simple "5")] := hsources ▸ ht
    simp only [List.mem_cons, List.not_mem_nil, or_false] at ht
    rcases ht with rfl | rfl <;> rfl
  · cases hd

/-- With another label for the node, the same number is read, and the other label is seen. -/
theorem extract_relabelled_variable :
    Options.default.custom = [] ∧ Options.default.transforms = .empty ∧
    compile .default numeralShapes = some (.ok numeralSchema) ∧
    numeralSchema.ReadsNoLabel (.ofClass ⟨"C"⟩) (variableView "n") ∧
    numeralSchema.extract ⟨"C"⟩ (variableView "n") =
      some (.ok (numeralExtraction (variableView "n"))) ∧
    numeralSchema.extract ⟨"C"⟩ ((variableView "n").relabelled (Equiv.swap "n" "m").toEmbedding) =
      some (.ok (numeralExtraction (variableView "m"))) ∧
    numeralExtraction (variableView "m") =
      (numeralExtraction (variableView "n")).relabelled (Equiv.swap "n" "m").toEmbedding := by
  have hrelabelled : numeralSchema.extract ⟨"C"⟩
      ((variableView "n").relabelled (Equiv.swap "n" "m").toEmbedding) =
        some (.ok (numeralExtraction (variableView "m"))) := by rfl
  have hlabels := readsNoLabel_variableView
  obtain ⟨-, hequal⟩ := extract_relabelled rfl rfl compile_numeralShapes
    (Equiv.swap "n" "m").toEmbedding ⟨"C"⟩ (variableView "n") hlabels
  exact ⟨rfl, rfl, compile_numeralShapes, hlabels, extract_variableView, hrelabelled,
    (hequal _ _ extract_variableView hrelabelled).1⟩

/-- A node that stands for no variable is read as its label: as a number, or not at all. -/
theorem label_read_as_text :
    Options.default.custom = [] ∧ Options.default.transforms = .empty ∧
    compile .default numeralShapes = some (.ok numeralSchema) ∧
    numeralSchema.extract ⟨"C"⟩ ⟨.blank "5", []⟩ =
      some (.ok (numeralExtraction ⟨.blank "5", []⟩)) ∧
    ∃ e, numeralSchema.extract ⟨"C"⟩
      (View.relabelled (Equiv.swap "5" "x").toEmbedding ⟨.blank "5", []⟩) = some (.error e) :=
  ⟨rfl, rfl, compile_numeralShapes, rfl, _, rfl⟩

end Schema
end ShaclExtract
