import ShaclExtract.Proofs.Schema.Decision
import ShaclExtract.Proofs.Schema.Termination

/-!
# ShaclExtract.Proofs.Schema.Fixpoint

Memoized extraction decides conformance, on data with cycles too: a node is extracted as an instance
of a class exactly if the pair is in the greatest fixpoint of `Schema.conformance`. The built-in
classes are extracted without a shape, and so they are left out.
-/

namespace ShaclExtract

/-- The classes that are known without any shape. -/
def builtinClasses : List Iri := [Rdfl.cbd, Rdfl.pathLens, Rdfl.context, Rdfl.typedExtract]

theorem Registry.get?_builtins {cls : Iri} (h : cls ∉ builtinClasses) :
    builtins.alternatives.get? cls = none := by
  simp only [builtinClasses, List.mem_cons, List.not_mem_nil, or_false, not_or] at h
  obtain ⟨hcbd, hpath, hcontext, htyped⟩ := h
  unfold builtins Registry.insert
  rw [Table.get?_insert_of_ne _ _ (Ne.symm htyped), Table.get?_insert_of_ne _ _ (Ne.symm hcontext),
    Table.get?_insert_of_ne _ _ (Ne.symm hpath), Table.get?_insert_of_ne _ _ (Ne.symm hcbd)]
  rfl

/-- Nodes with one key are equal, except for literals with one lexical form. -/
theorem MemoKey.node_eq {id id' : ExtractorId} {node node' : Term}
    (hkey : MemoKey.of id node = .of id' node')
    (hlit : ∀ l l', node = .literal l → node' = .literal l' → l.lexical = l'.lexical → l = l') :
    node = node' := by
  injection hkey with _ hkind hlexical
  cases node with
  | iri i =>
    cases node' with
    | iri i' =>
      cases i
      cases i'
      cases hlexical
      rfl
    | blank b => cases hkind
    | literal l => cases hkind
  | blank b =>
    cases node' with
    | iri i => cases hkind
    | blank b' =>
      cases hlexical
      rfl
    | literal l => cases hkind
  | literal l =>
    cases node' with
    | iri i => cases hkind
    | blank b => cases hkind
    | literal l' => rw [hlit l l' rfl rfl hlexical]

/-- No two literals that can be met from the view have one lexical form. -/
def View.LexicallyDistinct (view : View) : Prop :=
  ∀ l l' : Literal, Path.Within view.graph view.focus (.literal l) →
    Path.Within view.graph view.focus (.literal l') → l.lexical = l'.lexical → l = l'

theorem View.lexicallyDistinct_iff {view : View} : view.LexicallyDistinct ↔
    ∀ x ∈ view.focus :: view.graph.terms, ∀ y ∈ view.focus :: view.graph.terms,
      x.kind = .literal → y.kind = .literal → x.lexical = y.lexical → x = y := by
  constructor
  · intro h x hx y hy hkind hkind' hlexical
    cases x <;> cases hkind
    cases y <;> cases hkind'
    exact congrArg Term.literal
      (h _ _ (Path.within_of_mem_cons hx) (Path.within_of_mem_cons hy) hlexical)
  · intro h l l' hl hl' hlexical
    exact Term.literal.inj (h _ (List.mem_cons.2 hl) _ (List.mem_cons.2 hl') rfl rfl hlexical)

instance : DecidablePred View.LexicallyDistinct := fun _ =>
  decidable_of_iff' _ View.lexicallyDistinct_iff

theorem View.LexicallyDistinct.eq_of_key {view : View} (h : view.LexicallyDistinct)
    {id id' : ExtractorId} {node node' : Term} (hn : Path.Within view.graph view.focus node)
    (hn' : Path.Within view.graph view.focus node')
    (hkey : MemoKey.of id node = .of id' node') : node = node' := by
  refine MemoKey.node_eq hkey ?_
  rintro l l' rfl rfl
  exact h l l' hn hn'

namespace Schema

variable {options : Options} {g : Graph} {schema : Schema} {view : View}

theorem program?_of_compile (ho : options.Plain) (hc : compile options g = some (.ok schema))
    {cls : Iri} (hcls : cls ∉ builtinClasses) :
    schema.setting.program? (.ofClass cls) =
      if schema.shapes.filter (fun s => s.target = cls) = [] then none
      else some (.firstOf ((schema.shapes.filter fun s => s.target = cls).map .shape)) := by
  obtain ⟨shapes, _, rfl⟩ := compile_cases hc
  have hget := Registry.get?_builtins hcls
  have halt : Registry.builtins.alternativesOf cls = [] := by
    rw [Registry.alternativesOf, hget, Option.getD_none]
  simp only [Setting.program?, Registry.program?, registry, ho.custom, List.foldl_nil,
    Registry.get?_foldl_register, hget, halt, List.nil_append]
  split <;> rfl

theorem transforms_of_compile (ho : options.Plain) (hc : compile options g = some (.ok schema)) :
    schema.setting.transforms = .empty := (transforms_eq_of_compile hc).trans ho.transforms

/-! ## what is decided -/

section decided

variable {F : Pairs →o Pairs} {invoke : Invoke} {cls : Iri} {view' : View}

theorem decides_instanceOf (ht : schema.setting.transforms = .empty)
    (h : Decides view F (fun S => (cls, view'.focus) ∈ S) (invoke (.ofClass cls) view')) :
    Decides view F (fun S => (cls, view'.focus) ∈ S)
      (schema.setting.instanceOf .memoized invoke cls view') := by
  have htransformed : ∀ v, schema.setting.transformed .memoized cls v = Action.answer (.ok v) := by
    intro v
    funext s
    simp only [Setting.transformed, ht, Table.get?_empty]
    rfl
  rw [Setting.instanceOf, Extractor.andThen_apply]
  have hmono : Monotone fun S : Pairs => (cls, view'.focus) ∈ S := fun S T hST hmem => hST hmem
  refine (h.bindOk (B := fun _ => True) hmono fun _ v _ _ => ?_).congr fun S => by simp
  rw [htransformed]
  exact .ok v fun _ => trivial

theorem decides_element (ht : schema.setting.transforms = .empty) (hv : view'.graph = view.graph)
    {t : ValueType}
    (h : ∀ cls, t = .ofClass cls →
      Decides view F (fun S => (cls, view'.focus) ∈ S) (invoke (.ofClass cls) view')) :
    Decides view F
      (fun S => t.Accepts schema.setting.environment view.graph S view'.focus)
      (schema.setting.element .memoized invoke t view') := by
  cases t with
  | ofClass cls => exact decides_instanceOf ht (h cls rfl)
  | datatype d =>
    refine (Decides.answer (Datatype.extract schema.setting.environment d view')).congr fun S => ?_
    rw [← hv]
    rfl

end decided

theorem decides_invoke (ho : options.Plain) (hc : compile options g = some (.ok schema))
    (hfields : ∀ sh ∈ schema.shapes, ∀ f ∈ sh.properties, ∀ cls, f.type = .ofClass cls →
      cls ∉ builtinClasses)
    (hlit : view.LexicallyDistinct) (depth : Nat) :
    ∀ cls ∉ builtinClasses, ∀ view', view.Near view' →
      Decides view (schema.conformance view.graph) (fun S => (cls, view'.focus) ∈ S)
        (schema.setting.invoke .memoized depth (.ofClass cls) view') := by
  induction depth with
  | zero =>
    intro cls _ view' _ s r s' _ _ hrun
    cases hrun
  | succ depth ih =>
    intro cls hcls view' hv
    have hgraph : view'.graph = view.graph := hv.1
    unfold Setting.invoke
    rw [program?_of_compile ho hc hcls]
    by_cases hnil : schema.shapes.filter (fun s => s.target = cls) = []
    · simp only [hnil, if_true]
      refine Decides.error _ fun hmem => ?_
      rw [← OrderHom.map_gfp, mem_conformance] at hmem
      obtain ⟨sh, hsh, htarget, _⟩ := hmem
      have : sh ∈ schema.shapes.filter fun s => s.target = cls :=
        List.mem_filter.2 ⟨hsh, decide_eq_true htarget⟩
      rw [hnil] at this
      cases this
    · simp only [hnil, if_false]
      refine Decides.shared hv.2 (fun node hn hkey => hlit.eq_of_key hn hv.2 hkey) ?_
      simp only [Program.extractor, Program.extractors_eq_map, List.map_map, Extractor.firstOf]
      refine (Decides.firstOfAfter (A := fun sh S => sh.Conforms schema.setting.environment
        view'.graph S view'.focus) (fun sh hsh => ?_) .noAlternative).congr fun S => ?_
      · have hmem := (List.mem_filter.1 hsh).1
        refine Decides.shape hv fun f hf v hnear => ?_
        rw [hgraph]
        exact decides_element (transforms_of_compile ho hc) hnear.1 fun D hD =>
          ih D (hfields sh hmem f hf D hD) v hnear
      · rw [mem_conformance, hgraph]
        simp only [List.mem_filter, decide_eq_true_eq, and_assoc]

/-- Extraction as an instance of a class without built-in meaning asks only for such classes. -/
theorem confined_of_not_builtin
    (hfields : ∀ sh ∈ schema.shapes, ∀ f ∈ sh.properties, ∀ cls, f.type = .ofClass cls →
      cls ∉ builtinClasses) :
    schema.Confined view fun r => ∃ cls ∉ builtinClasses, r = .ofClass cls where
  pathLens := by
    rintro ⟨cls, hcls, heq⟩
    rw [← Routine.ofClass.inj heq] at hcls
    exact hcls (by simp [builtinClasses])
  typed := by
    rintro ⟨cls, hcls, heq⟩
    rw [← Routine.ofClass.inj heq] at hcls
    exact (hcls (by simp [builtinClasses])).elim
  shape sh hsh f hf cls hcls := ⟨cls, hfields sh hsh f hf cls hcls, rfl⟩
  dispatch := by
    rintro ⟨cls, _, heq⟩
    cases heq

/-- A node is extracted as an instance of a class if and only if it conforms to it. -/
theorem extract_iff_mem_gfp (ho : options.Plain) (hc : compile options g = some (.ok schema))
    (hfields : ∀ sh ∈ schema.shapes, ∀ f ∈ sh.properties, ∀ cls, f.type = .ofClass cls →
      cls ∉ builtinClasses)
    (hlit : view.LexicallyDistinct) {cls : Iri} (hcls : cls ∉ builtinClasses) :
    (∃ x, schema.extract cls view = some (.ok x)) ↔
      (cls, view.focus) ∈ OrderHom.gfp (schema.conformance view.graph) := by
  have hS := honest_of_compile ho.honest hc
  have hconfined : schema.Confined view fun r => ∃ cls ∉ builtinClasses, r = .ofClass cls :=
    confined_of_not_builtin hfields
  have hC := hconfined.closed ho hc
  have hx : schema.setting.Represented False (OfRoutine (Nearby view fun r =>
      ∃ cls ∉ builtinClasses, r = .ofClass cls)) [] Value.refs
      fun i => schema.setting.instanceOf .memoized i cls view :=
    Setting.Represented.instanceOf hS ⟨_, rfl, .refl _, cls, hcls, rfl⟩
  obtain ⟨r, s, hrun⟩ := Setting.run_ends hS hC hx (schema.setting.card_keys_lt view) .empty
  have hdecided := decides_instanceOf (transforms_of_compile ho hc)
    (decides_invoke ho hc hfields hlit (schema.setting.depth view.graph) cls hcls view (.refl _))
    (.start .empty) r s Memo.bounded_empty Memo.supported_empty hrun
  -- when the run has ended, every slot with a key is ready
  have hintact := Setting.intact_of_run hS hx hrun
  have hready : ∀ k slot, s.memo.lookup k = some slot → ∃ v, s.memo.slot? slot = some (.ready v) :=
    fun k slot hk => hintact.ready_of_live rfl (hintact.sound.live_of_lookup hk)
  have hrun' : schema.classExtractor cls view (.start .empty) = some (r, s) := hrun
  cases r with
  | ok v =>
    have hmem := hdecided.supported.known_subset_gfp hready (hdecided.accepted v rfl)
    exact ⟨fun _ => hmem, fun _ => ⟨⟨v, s.memo⟩, extract_of_run hrun'⟩⟩
  | error e =>
    refine ⟨?_, fun hmem => (hdecided.rejected e rfl hmem).elim⟩
    rintro ⟨x, hx⟩
    rw [extract_of_run hrun'] at hx
    cases hx

theorem link_properties_not_builtin : ∀ sh ∈ linkSchema.shapes, ∀ f ∈ sh.properties, ∀ cls,
    f.type = .ofClass cls → cls ∉ builtinClasses := by
  intro sh hsh f hf cls hcls
  rw [link_properties sh hsh f hf] at hcls
  rw [← ValueType.ofClass.inj hcls]
  decide

theorem lexicallyDistinct_linkView : linkView.LexicallyDistinct := by decide

/-- The two nodes that refer to each other conform. -/
theorem extract_iff_mem_gfp_link :
    compile .default linkShapes = some (.ok linkSchema) ∧ linkView.LexicallyDistinct ∧
    (⟨"C"⟩ : Iri) ∉ builtinClasses ∧ linkSchema.extract ⟨"C"⟩ linkView = some (.ok linkExtraction) ∧
    (⟨"C"⟩, linkView.focus) ∈ OrderHom.gfp (linkSchema.conformance linkView.graph) := by
  have hC : (⟨"C"⟩ : Iri) ∉ builtinClasses := by decide
  have hiff := extract_iff_mem_gfp ⟨rfl, rfl, rfl⟩ compile_linkShapes link_properties_not_builtin
    lexicallyDistinct_linkView hC
  exact ⟨compile_linkShapes, lexicallyDistinct_linkView, hC, extract_linkView,
    hiff.1 ⟨_, extract_linkView⟩⟩

/-- A built-in class is extracted, but no shape makes a node conform to it. -/
theorem extract_cbd_not_mem_gfp :
    Options.default.Plain ∧ compile .default linkShapes = some (.ok linkSchema) ∧
    (∀ sh ∈ linkSchema.shapes, ∀ f ∈ sh.properties, ∀ cls, f.type = .ofClass cls →
      cls ∉ builtinClasses) ∧
    linkView.LexicallyDistinct ∧
    (∃ x, linkSchema.extract Rdfl.cbd linkView = some (.ok x)) ∧
    (Rdfl.cbd, linkView.focus) ∉ OrderHom.gfp (linkSchema.conformance linkView.graph) := by
  refine ⟨⟨rfl, rfl, rfl⟩, compile_linkShapes, link_properties_not_builtin,
    lexicallyDistinct_linkView, ⟨_, rfl⟩, fun hmem => ?_⟩
  rw [← OrderHom.map_gfp, mem_conformance] at hmem
  obtain ⟨sh, hsh, htarget, _⟩ := hmem
  rw [List.mem_singleton.1 hsh] at htarget
  exact absurd htarget (by decide)

end Schema
end ShaclExtract
