import ShaclExtract.Proofs.Extractor.Correspondence
import ShaclExtract.Proofs.Schema.Contents

/-!
# ShaclExtract.Proofs.Schema.Correspondence

Programs of schemas in two evaluations. If the routines of one correspond to those of the other, and
values that correspond are merged and transformed into values that correspond, then so do shapes,
dispatch and the built-in programs (`Schema.corresponds_program`).

The two evaluations may have different graphs, as long as what is read of them is the same
(`Schema.Matches`), and only what a routine invokes need correspond (`Schema.Invokes`).
-/

namespace ShaclExtract

def Property.Reaches (f : Property) (view : View) (node : Term) : Prop :=
  ∃ hops, f.path.walk view.graph view.focus = .ok hops ∧ node ∈ hops

theorem Setting.related_mergedRecord_of_fields {A : Value → Value → Prop}
    {resolve resolve' : Value → Value} {vs ws : List Value}
    (h : List.Forall₂ (fun v w => ∀ r r', Record.Related A r r' →
      Record.Related A (Represented.mergeFields r (resolve v))
        (Represented.mergeFields r' (resolve' w))) vs ws) :
    Record.Related A (mergedRecord resolve vs) (mergedRecord resolve' ws) := by
  have hfold : ∀ {r r' : Record}, Record.Related A r r' → Record.Related A
      (vs.foldl (fun r v => Represented.mergeFields r (resolve v)) r)
      (ws.foldl (fun r w => Represented.mergeFields r (resolve' w)) r') := by
    induction h with
    | nil => exact id
    | cons hv _ ih => exact fun hr => ih (hv _ _ hr)
  exact hfold .nil

namespace Correspondence

variable {σ τ : Type} (C : Correspondence σ τ)

/-- Records merged from values that correspond do so, each merged the way of its evaluation. -/
def Merges (E : Strategy σ) (E' : Strategy τ) : Prop :=
  ∀ s t vs ws, C.states s t → List.Forall₂ (C.values t) vs ws →
    C.values t (.record (Setting.mergedRecord (E.resolve s) vs))
      (.record (Setting.mergedRecord (E'.resolve t) ws))

def Transforms (S : Setting) (E : Strategy σ) (E' : Strategy τ) : Prop :=
  ∀ cls v w, C.Corresponds (fun t => C.values t v w) C.values (S.transformed E cls v)
    (S.transformed E' cls w)

variable {C} in
theorem transforms_of_empty {S : Setting} (ht : S.transforms = .empty) (E : Strategy σ)
    (E' : Strategy τ) : C.Transforms S E E' := by
  intro cls v w
  rw [Setting.transformed_of_empty ht, Setting.transformed_of_empty ht]
  exact .answer fun t hvw => hvw

namespace Corresponds

variable {C} {P : τ → Prop} {view view' : View}

theorem value {f : Property} {element : Extractor σ View Value} {element' : Extractor τ View Value}
    (hP : C.Lasting P)
    (hwalk : f.path.walk view'.graph view'.focus = f.path.walk view.graph view.focus)
    (h : ∀ node, f.Reaches view node →
      C.Corresponds P C.values (element (view.refocus node)) (element' (view'.refocus node)))
    (target : Iri) :
    C.Corresponds P C.values (f.value target element view) (f.value target element' view') := by
  cases hw : f.path.walk view.graph view.focus with
  | error e =>
    rw [Property.value_of_error hw, Property.value_of_error (hwalk.trans hw)]
    exact answer fun _ _ => rfl
  | ok hops =>
    have hhops : ∀ node ∈ hops, f.Reaches view node := fun node hnode => ⟨hops, hw, hnode⟩
    cases hl : f.isList with
    | true =>
      rw [Property.value_of_isList hl hw, Property.value_of_isList hl (hwalk.trans hw)]
      refine (each hP C.lasting_values fun node hnode => h node (hhops node hnode)).bindOk hP
        fun vs ws => answer fun t ht => ?_
      dsimp only
      rw [← ht.2.length_eq]
      split
      · exact C.list ht.2
      · rfl
    | false =>
      by_cases hone : hops.length = 1
      · obtain ⟨node, rfl⟩ := List.length_eq_one_iff.1 hone
        rw [Property.value_of_single hl hw, Property.value_of_single hl (hwalk.trans hw)]
        exact h node (hhops node List.mem_cons_self)
      · rw [Property.value_of_missing hl hw hone,
          Property.value_of_missing hl (hwalk.trans hw) hone]
        exact answer fun _ _ => rfl

theorem entry {f : Property} {element : Extractor σ View Value} {element' : Extractor τ View Value}
    (hP : C.Lasting P) (hfocus : view'.focus = view.focus)
    (hwalk : f.path.walk view'.graph view'.focus = f.path.walk view.graph view.focus)
    (h : ∀ node, f.Reaches view node →
      C.Corresponds P C.values (element (view.refocus node)) (element' (view'.refocus node)))
    (shapeId : String) (target : Iri) :
    C.Corresponds P (fun t => Record.Related (C.values t)) (f.entry shapeId target element view)
      (f.entry shapeId target element' view') := by
  have hlocated : ∀ e, f.located shapeId target e view = f.located shapeId target e view' := by
    intro e
    rw [Property.located, Property.located, hfocus]
  have hfilled : C.Corresponds P (fun t => Record.Related (C.values t))
      ((((f.value target element).mapError (f.located shapeId target)).map
        fun v => [(f.name, v)]) view)
      ((((f.value target element').mapError (f.located shapeId target)).map
        fun v => [(f.name, v)]) view') :=
    ((value hP hwalk h target).mapError hP hlocated).map hP fun _ _ _ hv => .cons ⟨rfl, hv⟩ .nil
  by_cases hmin : f.minCount = 0
  · rw [Property.entry_of_optional hmin, Property.entry_of_optional hmin]
    refine hfilled.bindError hP fun e => answer fun t _ => ?_
    exact List.Forall₂.nil
  · rw [Property.entry_of_mandatory hmin, Property.entry_of_mandatory hmin]
    exact hfilled

theorem shape {sh : Shape} {element : ValueType → Extractor σ View Value}
    {element' : ValueType → Extractor τ View Value} (hP : C.Lasting P)
    (hfocus : view'.focus = view.focus)
    (hwalk : ∀ f ∈ sh.properties,
      f.path.walk view'.graph view'.focus = f.path.walk view.graph view.focus)
    (h : ∀ f ∈ sh.properties, ∀ node, f.Reaches view node → C.Corresponds P C.values
      (element f.type (view.refocus node)) (element' f.type (view'.refocus node))) :
    C.Corresponds P C.values (sh.extractor element view) (sh.extractor element' view') :=
  (all hP C.lasting_related fun f hf =>
    entry hP hfocus (hwalk f hf) (h f hf) sh.id sh.target).map hP
      fun _ _ _ hr => C.record (Record.related_flatten hr).ofList

end Corresponds
end Correspondence

/-! ## programs of a schema -/

namespace Schema

/-- The first routine, run at the first view, invokes the second one at the second view, if it comes
that far. -/
inductive Invokes (schema : Schema) : Routine × View → Routine × View → Prop where
  | typed {view : View} : Invokes schema (.ofClass Rdfl.typedExtract, view) (.dispatch, view)
  | dispatch {view : View} {cls : Iri} : cls ∈ schema.setting.applicable view →
      Invokes schema (.dispatch, view) (.ofClass cls, view)
  | property {view : View} {sh : Shape} {f : Property} {cls : Iri} {node : Term} :
      sh ∈ schema.shapes → f ∈ sh.properties → f.type = .ofClass cls → f.Reaches view node →
      Invokes schema (.ofClass sh.target, view) (.ofClass cls, view.refocus node)

theorem Invokes.requests {schema : Schema} {c c' : Routine × View} (h : schema.Invokes c c') :
    schema.Requests c c' := by
  cases h with
  | typed => exact .typed
  | dispatch hcls => exact .dispatch hcls
  | property hsh hf hcls hnode =>
    obtain ⟨hops, hwalk, hmem⟩ := hnode
    exact .property hsh hf hcls (View.near_refocus hwalk _ (List.mem_map_of_mem hmem))

/-- What a routine reads is the same in both views. -/
structure Matches (schema : Schema) (r : Routine) (view view' : View) : Prop where
  focus : view'.focus = view.focus
  types : view'.types = view.types
  description : r = .ofClass Rdfl.cbd →
    view'.graph.description view'.focus = view.graph.description view.focus
  context : r = .ofClass Rdfl.context → view' = view
  path : r = .ofClass Rdfl.pathLens →
    Path.read view'.graph view'.focus = Path.read view.graph view.focus
  walk : ∀ sh ∈ schema.shapes, ∀ f ∈ sh.properties,
    f.path.walk view'.graph view'.focus = f.path.walk view.graph view.focus
  datatype : ∀ sh ∈ schema.shapes, ∀ f ∈ sh.properties, ∀ d, f.type = .datatype d →
    ∀ node, f.Reaches view node →
      Datatype.extract schema.setting.environment d (view'.refocus node) =
        Datatype.extract schema.setting.environment d (view.refocus node)

theorem Matches.refl (schema : Schema) (r : Routine) (view : View) :
    schema.Matches r view view where
  focus := rfl
  types := rfl
  description _ := rfl
  context _ := rfl
  path _ := rfl
  walk _ _ _ _ := rfl
  datatype _ _ _ _ _ _ _ _ := rfl

theorem Matches.refocus {schema : Schema} {r : Routine} {view view' : View}
    (h : schema.Matches r view view') : view'.refocus view.focus = view' := by
  rw [← h.focus]
  rfl

end Schema

section programs

variable {σ τ : Type} {C : Correspondence σ τ} {P : τ → Prop} {S : Setting} {E : Strategy σ}
  {E' : Strategy τ} {invoke : Routine → Extractor σ View Value}
  {invoke' : Routine → Extractor τ View Value} {view view' : View}

namespace Setting

theorem corresponds_element (hP : C.Lasting P) (hT : C.Transforms S E E') (type : ValueType)
    (hclass : ∀ cls, type = .ofClass cls → C.Corresponds P C.values (invoke (.ofClass cls) view)
      (invoke' (.ofClass cls) view'))
    (hdatatype : ∀ d, type = .datatype d →
      Datatype.extract S.environment d view' = Datatype.extract S.environment d view) :
    C.Corresponds P C.values (S.element E invoke type view) (S.element E' invoke' type view') := by
  cases type with
  | ofClass cls =>
    rw [element, element, instanceOf, instanceOf, Extractor.andThen_apply, Extractor.andThen_apply]
    exact (hclass cls rfl).bindOk hP fun v w => (hT cls v w).weaken fun _ ht => ht.2
  | datatype d =>
    rw [element, element, Extractor.ofExcept_apply, Extractor.ofExcept_apply, hdatatype d rfl]
    refine .answer fun t _ => ?_
    cases hd : Datatype.extract S.environment d view with
    | ok v => exact C.of_refs (Datatype.refs_extract hd)
    | error e => rfl

theorem corresponds_merged (hm : C.Merges E E') (vs ws : List Value) :
    C.Corresponds (fun t => P t ∧ List.Forall₂ (C.values t) vs ws) C.values (merged E vs)
      (merged E' ws) := by
  rintro s r s' t hst ⟨_, hvs⟩ h
  have hmerged := hm s t vs ws hst hvs
  cases hvs with
  | nil =>
    cases h
    exact ⟨_, t, rfl, hst, C.refl t, hmerged⟩
  | cons hv hrest =>
    cases hrest with
    | nil =>
      cases h
      exact ⟨_, t, rfl, hst, C.refl t, hv⟩
    | cons _ _ =>
      cases h
      exact ⟨_, t, rfl, hst, C.refl t, hmerged⟩

theorem applicable_eq (S : Setting) (htypes : view'.types = view.types) :
    S.applicable view' = S.applicable view := by
  simp only [applicable, assertedTypes, htypes]

theorem corresponds_dispatched (hP : C.Lasting P) (hT : C.Transforms S E E')
    (hm : C.Merges E E') (htypes : view'.types = view.types)
    (h : ∀ cls ∈ S.applicable view, C.Corresponds P C.values (invoke (.ofClass cls) view)
      (invoke' (.ofClass cls) view')) :
    C.Corresponds P C.values (S.dispatched E invoke view) (S.dispatched E' invoke' view') := by
  have happlicable := S.applicable_eq htypes
  have hasserted : assertedTypes view' = assertedTypes view := by
    simp only [assertedTypes, htypes]
  by_cases hc : S.applicable view = []
  · rw [dispatched_of_nil _ _ hc, dispatched_of_nil _ _ (happlicable.trans hc), hasserted]
    exact .answer fun _ _ => rfl
  · obtain ⟨type, htype, heq⟩ := dispatched_eq E invoke hc
    obtain ⟨type', htype', heq'⟩ := dispatched_eq E' invoke' (happlicable ▸ hc)
    rw [hasserted] at htype'
    cases htype.symm.trans htype'
    rw [heq, heq', happlicable]
    refine (Correspondence.Corresponds.all hP C.lasting_values h).bindOk hP fun vs ws => ?_
    have hlasting : C.Lasting fun t => P t ∧ List.Forall₂ (C.values t) vs ws :=
      fun hg ht => ⟨hP hg ht.1, ht.2.imp fun _ _ hv => C.kept hg hv⟩
    exact (corresponds_merged hm vs ws).bindOk hlasting fun v w =>
      (hT type v w).weaken fun _ ht => ht.2

theorem corresponds_typed (hP : C.Lasting P) (htypes : view'.types = view.types)
    (h : C.Corresponds P C.values (invoke .dispatch view) (invoke' .dispatch view')) :
    C.Corresponds P (fun t => Option.Rel (C.values t)) (typed invoke view)
      (typed invoke' view') := by
  unfold typed
  rw [htypes]
  by_cases hnil : view.types = []
  · simp only [hnil, if_true]
    exact .answer fun _ _ => .none
  · simp only [hnil, if_false]
    exact h.map hP fun _ _ _ hv => .some hv

end Setting

namespace Schema

variable {options : Options} {g : Graph} {schema : Schema}

theorem corresponds_registered (hP : C.Lasting P) (hT : C.Transforms schema.setting E E')
    {cls : Iri} {p : Program} (hp : Registered schema.shapes cls p)
    (hv : schema.Matches (.ofClass cls) view view')
    (h : ∀ r node, schema.Invokes (.ofClass cls, view) (r, view.refocus node) →
      C.Corresponds P C.values (invoke r (view.refocus node)) (invoke' r (view'.refocus node))) :
    C.Corresponds P C.values (p.extractor schema.setting E invoke view)
      (p.extractor schema.setting E' invoke' view') := by
  cases hp with
  | cbd =>
    refine .answer fun t _ => ?_
    dsimp only
    rw [hv.description rfl]
    exact C.of_refs rfl
  | pathLens =>
    simp only [Program.extractor]
    unfold Program.pathExtractor
    rw [hv.path rfl]
    cases Path.read view.graph view.focus with
    | none =>
      intro s r s' t _ _ hnone
      cases hnone
    | some r =>
      cases r with
      | error e => exact .answer fun _ _ => rfl
      | ok via => exact .answer fun _ _ => C.of_refs rfl
  | context =>
    obtain rfl := hv.context rfl
    exact .answer fun _ _ => C.of_refs rfl
  | typedExtract =>
    have hdispatch :
        C.Corresponds P C.values (invoke .dispatch view) (invoke' .dispatch view') := by
      have h := h .dispatch view.focus .typed
      rw [hv.refocus] at h
      exact h
    refine (Setting.corresponds_typed hP hv.types hdispatch).map hP ?_
    rintro t o o' (⟨hv⟩ | _)
    · exact hv
    · exact C.of_refs rfl
  | shape hsh =>
    exact .shape hP hv.focus (hv.walk _ hsh) fun f hf node hnode =>
      Setting.corresponds_element hP hT f.type
        (fun cls hcls => h (.ofClass cls) node (.property hsh hf hcls hnode))
        fun d hd => hv.datatype _ hsh f hf d hd node hnode

/-- What a routine runs corresponds if the routines that it invokes do. -/
theorem corresponds_program (ho : options.custom = [])
    (hc : compile options g = some (.ok schema)) (hP : C.Lasting P)
    (hT : C.Transforms schema.setting E E') {r : Routine} {p : Program}
    (hp : schema.setting.program? r = some p) (hr : ∀ name, r ≠ .procedure name)
    (hm : r = .dispatch → C.Merges E E') (hv : schema.Matches r view view')
    (h : ∀ r' node, schema.Invokes (r, view) (r', view.refocus node) →
      C.Corresponds P C.values (invoke r' (view.refocus node)) (invoke' r' (view'.refocus node))) :
    C.Corresponds P C.values (p.extractor schema.setting E invoke view)
      (p.extractor schema.setting E' invoke' view') := by
  cases r with
  | ofClass cls =>
    obtain ⟨ps, rfl, hps⟩ := (registered_of_compile ho hc).program hp
    simp only [Program.extractor, Program.extractors_eq_map]
    exact .firstOfAfter hP (fun p hmem => corresponds_registered hP hT (hps p hmem) hv h) _
  | procedure name => exact absurd rfl (hr name)
  | dispatch =>
    cases hp
    refine Setting.corresponds_dispatched hP hT (hm rfl) hv.types fun cls hcls => ?_
    have h := h (.ofClass cls) view.focus (.dispatch hcls)
    rw [hv.refocus] at h
    exact h

end Schema

end programs
end ShaclExtract
