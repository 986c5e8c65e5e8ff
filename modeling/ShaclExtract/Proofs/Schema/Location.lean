import ShaclExtract.Proofs.Path.Failing
import ShaclExtract.Proofs.Schema.Fixpoint
import ShaclExtract.Proofs.Schema.Registration
import ShaclExtract.Proofs.Shape.Extraction

/-!
# ShaclExtract.Proofs.Schema.Location

Where an extraction failed. A failure names a place for each instance around what is wrong: the
focus, the class and the property that leads further in. All of these places are real, and what is
wrong at the innermost one is a failure of its property there, with the counts as they are
(`Schema.error_located`).

Failures of alternatives and of optional properties are dropped on the way, so only the last shape
of a class and its mandatory properties can be named. A shared result is never a failure: a node
that failed is run again when it is asked for again, so nothing has to be known about the memo.
-/

namespace ShaclExtract

/-! ## what is wrong at a place -/

theorem Datatype.isField_of_extract {env : Environment} {d : Iri} {view : View} {e : Failure}
    (h : extract env d view = .error e) : e.isField = false := by
  have horInvalid : ∀ {α : Type} {lexical : String} {build : α → Value} {r : Option α},
      orInvalid lexical d build r = .error e → e.isField = false := by
    intro α lexical build r h
    cases r with
    | none => cases h; rfl
    | some a => cases h
  simp only [extract] at h
  split at h
  · rename_i he
    cases h
    simp only [LexicalSource.of] at he
    split at he
    · split at he
      · cases he
        rfl
      · cases he
    · cases he
  · rename_i source _
    split at h
    · rename_i he
      cases h
      cases source with
      | lexical text => cases he
      | environment key default =>
        simp only [LexicalSource.resolve] at he
        split at he
        · cases he
        · split at he
          · cases he
          · cases he
            rfl
    · simp only [read] at h
      split at h
      · exact horInvalid h
      · split at h
        · exact horInvalid h
        · split at h
          · cases h
          · split at h
            · exact horInvalid h
            · split at h <;> cases h

/-- What is wrong with a property at a node, apart from what is wrong with instances further in. -/
inductive Property.Fails (f : Property) (S : Setting) (g : Graph) (target : Iri) (node : Term) :
    Failure → Prop
  | unwalked {e : Failure} : f.path.walk g node = .error e → Fails f S g target node e
  | missing {hops : List Term} : f.isList = false → f.path.walk g node = .ok hops →
    hops.length ≠ 1 → Fails f S g target node (.requiredValueMissing hops.length)
  | miscounted {hops : List Term} : f.isList = true → f.path.walk g node = .ok hops →
    ¬ (f.minCount ≤ hops.length ∧ ∀ m, f.maxCount = some m → hops.length ≤ m) →
      Fails f S g target node (.cardinalityViolation target.text f.name f.minCount f.maxCount
        hops.length)
  | unknown {hops : List Term} {hop : Term} {cls : Iri} : f.path.walk g node = .ok hops →
    hop ∈ hops → f.type = .ofClass cls → S.registry.contains cls = false →
      Fails f S g target node (.unknownShapeReference cls.text)
  | unreadable {hops : List Term} {hop : Term} {d : Iri} {e : Failure} :
    f.path.walk g node = .ok hops → hop ∈ hops → f.type = .datatype d →
    Datatype.extract S.environment d ⟨hop, g⟩ = .error e → Fails f S g target node e

theorem Property.Fails.isField {f : Property} {S : Setting} {g : Graph} {target : Iri}
    {node : Term} {e : Failure} (h : f.Fails S g target node e) : e.isField = false := by
  cases h with
  | unwalked hwalk =>
    rw [Path.error_of_walk hwalk]
    rfl
  | missing => rfl
  | miscounted => rfl
  | unknown => rfl
  | unreadable _ _ _ hextract => exact Datatype.isField_of_extract hextract

namespace Schema

/-- The shape of a class that is tried last. -/
def lastShape? (schema : Schema) (cls : Iri) : Option Shape :=
  (schema.shapes.filter fun sh => sh.target = cls).getLast?

/-- The failure leads from the node, taken as an instance of the class, to what is wrong: each field
is that of a mandatory property of the last shape of the class, and leads to one of its hops, taken
as an instance of the class of the property; the last one names what is wrong with its property. -/
inductive Locates (schema : Schema) (g : Graph) : Iri → Term → Failure → Prop
  | here {cls : Iri} {node : Term} {sh : Shape} {f : Property} {e : Failure} :
    schema.lastShape? cls = some sh → f ∈ sh.properties → 1 ≤ f.minCount →
    f.Fails schema.setting g cls node e → e.isField = false →
      Locates schema g cls node (.field sh.id cls.text f.name node.toText e)
  | further {cls cls' : Iri} {node hop : Term} {hops : List Term} {sh : Shape} {f : Property}
    {e : Failure} :
    schema.lastShape? cls = some sh → f ∈ sh.properties → 1 ≤ f.minCount →
    f.type = .ofClass cls' → f.path.walk g node = .ok hops → hop ∈ hops →
    Locates schema g cls' hop e →
      Locates schema g cls node (.field sh.id cls.text f.name node.toText e)

variable {options : Options} {g : Graph} {schema : Schema} {view : View}

theorem exists_lastShape {cls : Iri} (h : ∃ sh ∈ schema.shapes, sh.target = cls) :
    ∃ sh, schema.lastShape? cls = some sh := by
  obtain ⟨sh, hsh, htarget⟩ := h
  refine Option.isSome_iff_exists.1 (List.getLast?_isSome.2 fun hnil => ?_)
  have hmem : sh ∈ schema.shapes.filter fun sh => sh.target = cls :=
    List.mem_filter.2 ⟨hsh, decide_eq_true htarget⟩
  rw [hnil] at hmem
  cases hmem

theorem lastShape_mem {cls : Iri} {sh : Shape} (h : schema.lastShape? cls = some sh) :
    sh ∈ schema.shapes ∧ sh.target = cls := by
  obtain ⟨hmem, htarget⟩ := List.mem_filter.1 (List.mem_of_getLast? h)
  exact ⟨hmem, of_decide_eq_true htarget⟩

theorem program?_of_lastShape (hc : compile options g = some (.ok schema))
    {cls : Iri} {sh : Shape} (h : schema.lastShape? cls = some sh) :
    ∃ ps, schema.setting.program? (.ofClass cls) = some (.firstOf (ps ++ [.shape sh])) := by
  obtain ⟨shapes, _, rfl⟩ := compile_cases hc
  obtain ⟨before, hshapes⟩ : ∃ before, (shapes.filter fun sh => sh.target = cls) = before ++ [sh] :=
    List.getLast?_eq_some_iff.1 h
  obtain ⟨ps, hps⟩ : ∃ ps, alternatives options.custom shapes cls = ps ++ [.shape sh] := by
    rw [alternatives, hshapes, List.map_append, ← List.append_assoc]
    exact ⟨_, rfl⟩
  refine ⟨ps, ?_⟩
  rw [Setting.program?, Registry.program?, get?_registry, hps,
    if_neg (List.append_ne_nil_of_right_ne_nil _ (List.cons_ne_nil _ _)), Option.map_some]

theorem error_of_element (ht : schema.setting.transforms = .empty) {invoke : Invoke}
    {t : ValueType} {s s' : RunState} {e : Failure}
    (h : schema.setting.element .memoized invoke t view s = some (.error e, s')) :
    (∃ d, t = .datatype d ∧ Datatype.extract schema.setting.environment d view = .error e) ∨
      ∃ cls, t = .ofClass cls ∧ invoke (.ofClass cls) view s = some (.error e, s') := by
  cases t with
  | datatype d =>
    refine .inl ⟨d, rfl, ?_⟩
    simp only [Setting.element, Extractor.ofExcept, Option.some.injEq, Prod.mk.injEq] at h
    exact h.1
  | ofClass cls =>
    refine .inr ⟨cls, rfl, ?_⟩
    rw [Setting.element, Setting.instanceOf, Extractor.andThen_apply] at h
    obtain ⟨_, ⟨⟩, h⟩ | ⟨v, s₁, _, h⟩ := Action.bindOk_eq_some_iff.1 h
    · exact h
    · rw [Setting.transformed, ht, Table.get?_empty] at h
      cases h

theorem locates_of_evaluates (ht : schema.setting.transforms = .empty) {invoke : Invoke}
    {cls : Iri} {sh : Shape} {f : Property} (hsh : schema.lastShape? cls = some sh)
    (hf : f ∈ sh.properties) (hmin : 1 ≤ f.minCount)
    (hinvoke : ∀ cls', f.type = .ofClass cls' → ∀ hop s s' e,
      invoke (.ofClass cls') (view.refocus hop) s = some (.error e, s') →
        schema.Locates view.graph cls' hop e ∨
          schema.setting.registry.contains cls' = false ∧ e = .unknownShapeReference cls'.text)
    {s s' : RunState} {e : Failure}
    (h : f.Evaluates cls (schema.setting.element .memoized invoke f.type) view s (.error e) s') :
    schema.Locates view.graph cls view.focus
      (.field sh.id cls.text f.name view.focus.toText e) := by
  have hhere : f.Fails schema.setting view.graph cls view.focus e →
      schema.Locates view.graph cls view.focus
        (.field sh.id cls.text f.name view.focus.toText e) :=
    fun hfails => .here hsh hf hmin hfails hfails.isField
  have hhop : ∀ {hops hop t t'}, f.path.walk view.graph view.focus = .ok hops → hop ∈ hops →
      schema.setting.element .memoized invoke f.type (view.refocus hop) t = some (.error e, t') →
      schema.Locates view.graph cls view.focus
        (.field sh.id cls.text f.name view.focus.toText e) := by
    intro hops hop t t' hwalk hmem hrun
    obtain ⟨d, htype, hextract⟩ | ⟨cls', htype, hrun⟩ := error_of_element ht hrun
    · exact hhere (.unreadable hwalk hmem htype hextract)
    · obtain hlocates | ⟨hunknown, rfl⟩ := hinvoke cls' htype hop t t' e hrun
      · exact .further hsh hf hmin htype hwalk hmem hlocates
      · exact hhere (.unknown hwalk hmem htype hunknown)
  cases h with
  | unwalked hwalk => exact hhere (.unwalked hwalk)
  | miscounted hl hwalk hruns hbounds =>
    refine hhere ?_
    rw [hruns.length_eq] at hbounds ⊢
    exact .miscounted hl hwalk hbounds
  | unread _ hwalk _ hrun =>
    exact hhop hwalk (List.mem_append_right _ List.mem_cons_self) hrun
  | single _ hwalk hrun => exact hhop hwalk List.mem_cons_self hrun
  | missing hl hwalk hone => exact hhere (.missing hl hwalk hone)

theorem error_of_invoke_unknown {cls : Iri} (hcls : schema.setting.registry.contains cls = false)
    {depth : Nat} {s s' : RunState} {e : Failure}
    (h : schema.setting.invoke .memoized depth (.ofClass cls) view s = some (.error e, s')) :
    e = .unknownShapeReference cls.text := by
  have hnone : schema.setting.program? (.ofClass cls) = none := by
    rw [Registry.contains, Table.contains, Option.isSome_eq_false_iff, Option.isNone_iff_eq_none]
      at hcls
    rw [Setting.program?, Registry.program?, hcls, Option.map_none]
  cases depth with
  | zero => cases h
  | succ depth =>
    rw [Setting.invoke, hnone] at h
    cases h
    rfl

theorem locates_of_invoke (ho : options.Plain) (hc : compile options g = some (.ok schema))
    (hfields : ∀ sh ∈ schema.shapes, ∀ f ∈ sh.properties, ∀ cls, f.type = .ofClass cls →
      (∃ sh' ∈ schema.shapes, sh'.target = cls) ∨ schema.setting.registry.contains cls = false)
    (depth : Nat) : ∀ {cls : Iri} {view : View} {s s' : RunState} {e : Failure},
      (∃ sh ∈ schema.shapes, sh.target = cls) →
      schema.setting.invoke .memoized depth (.ofClass cls) view s = some (.error e, s') →
        schema.Locates view.graph cls view.focus e := by
  induction depth with
  | zero =>
    intro cls view s s' e _ h
    cases h
  | succ depth ih =>
    intro cls view s s' e hcls h
    obtain ⟨sh, hsh⟩ := exists_lastShape hcls
    obtain ⟨hmem, rfl⟩ := lastShape_mem hsh
    obtain ⟨ps, hps⟩ := program?_of_lastShape hc hsh
    rw [Setting.invoke, hps] at h
    obtain ⟨_, _, ⟨⟩, _⟩ | ⟨_, r, s₁, hrun, hend⟩ := Memo.shared_cases h
    obtain ⟨v, _, ⟨⟩, _⟩ | ⟨e', rfl, ⟨⟩, _⟩ := hend
    rw [Program.extractor, Program.extractors_eq_map, List.map_append] at hrun
    obtain ⟨s₂, hshape⟩ := Extractor.error_of_firstOf_append hrun
    obtain ⟨before, f, after, entries, s₃, e', hfs, _, hmin, hevaluates, rfl⟩ :=
      Shape.extractor_eq_error_iff.1 hshape
    have hf : f ∈ sh.properties := by
      rw [hfs]
      exact List.mem_append_right _ List.mem_cons_self
    refine locates_of_evaluates (transforms_of_compile ho hc) hsh hf hmin ?_ hevaluates
    intro cls' htype hop t t' e hinvoke
    obtain hcls' | hunknown := hfields sh hmem f hf cls' htype
    · exact .inl (ih hcls' hinvoke)
    · exact .inr ⟨hunknown, error_of_invoke_unknown hunknown hinvoke⟩

/-- A failure locates what is wrong. If the properties of all shapes name only classes that have
shapes or that nothing is known of, and a node fails as an instance of a class that has shapes, then
the failure leads from the node along mandatory properties to one with something wrong. -/
theorem error_located (ho : options.Plain) (hc : compile options g = some (.ok schema))
    (hfields : ∀ sh ∈ schema.shapes, ∀ f ∈ sh.properties, ∀ cls, f.type = .ofClass cls →
      (∃ sh' ∈ schema.shapes, sh'.target = cls) ∨ schema.setting.registry.contains cls = false)
    {cls : Iri} (hcls : ∃ sh ∈ schema.shapes, sh.target = cls) {e : Failure}
    (h : schema.extract cls view = some (.error e)) :
    schema.Locates view.graph cls view.focus e := by
  obtain ⟨s, hrun⟩ := extract_error_cases h
  obtain ⟨_, ⟨⟩, _⟩ | ⟨_, ⟨⟩, hinvoke⟩ :=
    error_of_element (transforms_of_compile ho hc) (t := .ofClass cls) hrun
  exact locates_of_invoke ho hc hfields _ hcls hinvoke

theorem link_properties_known : ∀ sh ∈ linkSchema.shapes, ∀ f ∈ sh.properties, ∀ cls,
    f.type = .ofClass cls → (∃ sh' ∈ linkSchema.shapes, sh'.target = cls) ∨
      linkSchema.setting.registry.contains cls = false := by
  intro sh hsh f hf cls hcls
  rw [link_properties sh hsh f hf] at hcls
  cases hcls
  exact .inl ⟨link, List.mem_singleton_self link, rfl⟩

/-- A chain that ends at its second node. -/
def brokenView : View := ⟨.iri ⟨"a"⟩, [⟨.iri ⟨"a"⟩, ⟨"next"⟩, .iri ⟨"b"⟩, none⟩]⟩

/-- The second node is named by way of the first. -/
theorem error_located_broken :
    Options.default.Plain ∧ compile .default linkShapes = some (.ok linkSchema) ∧
    (∀ sh ∈ linkSchema.shapes, ∀ f ∈ sh.properties, ∀ cls, f.type = .ofClass cls →
      (∃ sh' ∈ linkSchema.shapes, sh'.target = cls) ∨
        linkSchema.setting.registry.contains cls = false) ∧
    (∃ sh ∈ linkSchema.shapes, sh.target = ⟨"C"⟩) ∧
    linkSchema.extract ⟨"C"⟩ brokenView = some (.error (.field "S" "C" "next" "<a>"
      (.field "S" "C" "next" "<b>" (.requiredValueMissing 0)))) ∧
    linkSchema.Locates brokenView.graph ⟨"C"⟩ (.iri ⟨"a"⟩) (.field "S" "C" "next" "<a>"
      (.field "S" "C" "next" "<b>" (.requiredValueMissing 0))) := by
  have hplain : Options.default.Plain := ⟨rfl, rfl, rfl⟩
  have hcls : ∃ sh ∈ linkSchema.shapes, sh.target = ⟨"C"⟩ :=
    ⟨link, List.mem_singleton_self link, rfl⟩
  have hfails : linkSchema.extract ⟨"C"⟩ brokenView = some (.error (.field "S" "C" "next" "<a>"
      (.field "S" "C" "next" "<b>" (.requiredValueMissing 0)))) := by rfl
  exact ⟨hplain, compile_linkShapes, link_properties_known, hcls, hfails,
    error_located hplain compile_linkShapes link_properties_known hcls hfails⟩

def pathlessView : View := ⟨.blank "b", [⟨.blank "b", ⟨"next"⟩, .iri ⟨"c"⟩, none⟩]⟩

theorem lexicallyDistinct_pathlessView : pathlessView.LexicallyDistinct := by decide

/-- A built-in class is known without a shape, so its failures name no place. -/
theorem extract_pathLens_not_located :
    Options.default.Plain ∧ compile .default linkShapes = some (.ok linkSchema) ∧
    (∀ sh ∈ linkSchema.shapes, ∀ f ∈ sh.properties, ∀ cls, f.type = .ofClass cls →
      (∃ sh' ∈ linkSchema.shapes, sh'.target = cls) ∨
        linkSchema.setting.registry.contains cls = false) ∧
    pathlessView.LexicallyDistinct ∧ pathlessView.focus ∈ pathlessView.graph.terms ∧
    linkSchema.setting.registry.contains Rdfl.pathLens = true ∧
    linkSchema.extract Rdfl.pathLens pathlessView = some (.error (.invalidPath "_:b")) ∧
    ¬ linkSchema.Locates pathlessView.graph Rdfl.pathLens pathlessView.focus
      (.invalidPath "_:b") := by
  exact ⟨⟨rfl, rfl, rfl⟩, compile_linkShapes, link_properties_known,
    lexicallyDistinct_pathlessView, List.mem_cons_self, by rfl, by rfl, nofun⟩

end Schema
end ShaclExtract
