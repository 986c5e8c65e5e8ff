import ShaclExtract.Proofs.Dialogue.Termination
import ShaclExtract.Proofs.Schema.References

/-!
# ShaclExtract.Proofs.Schema.Termination

Extraction ends on every data graph, whatever cycles it has, unless a path is read from the data:
only a description of a path that refers to itself is read for ever. Classes ask for the classes of
their properties at hops of walks and for dispatch, and dispatch asks for registered classes at the
same node; so all keys are made of a registered class, or dispatch, and of the focus or a node of
the graph (`Setting.keys`), and one more than their number is the depth that runs are given.
-/

namespace ShaclExtract

/-- No programs of one's own and no transforms. -/
structure Options.Plain (o : Options) : Prop where
  custom : o.custom = []
  transforms : o.transforms = .empty
  procedures : o.procedures = .empty

theorem Options.Plain.honest {o : Options} (ho : o.Plain) : o.Honest where
  transforms cls t h := by
    rw [ho.transforms] at h
    cases h
  custom e h := by
    rw [ho.custom] at h
    cases h
  procedures name p h := by
    rw [ho.procedures] at h
    cases h

namespace Setting

def routines (S : Setting) : List Routine :=
  .dispatch :: (S.registry.alternatives.keys.map .ofClass ++ S.procedures.keys.map .procedure)

/-- The keys of routines at the focus or at a node of the graph. -/
def keys (S : Setting) (view : View) : Finset MemoKey :=
  (S.routines.flatMap fun r =>
    (view.focus :: view.graph.terms).map (.of (.routine r))).toFinset

variable {S : Setting} {view : View}

theorem mem_routines {r : Routine} {p : Program} (h : S.program? r = some p) : r ∈ S.routines := by
  cases r with
  | ofClass cls =>
    obtain ⟨ps, hps, _⟩ := Option.map_eq_some_iff.1 h
    have hcls : cls ∈ S.registry.alternatives.keys :=
      List.mem_map.2 ⟨(cls, ps), Table.mem_of_lookup hps, rfl⟩
    exact List.mem_cons_of_mem _ (List.mem_append_left _ (List.mem_map_of_mem hcls))
  | procedure name =>
    have hname : name ∈ S.procedures.keys :=
      List.mem_map.2 ⟨(name, p), Table.mem_of_lookup h, rfl⟩
    exact List.mem_cons_of_mem _ (List.mem_append_right _ (List.mem_map_of_mem hname))
  | dispatch => exact List.mem_cons_self

theorem mem_keys {r : Routine} {p : Program} {view' : View} (h : S.program? r = some p)
    (hv : view.Near view') : .of (.routine r) view'.focus ∈ S.keys view := by
  rw [keys, List.mem_toFinset]
  exact List.mem_flatMap.2 ⟨r, mem_routines h, List.mem_map_of_mem (List.mem_cons.2 hv.2)⟩

theorem mem_applicable {cls : Iri} : cls ∈ S.applicable view ↔
    S.registry.contains cls = true ∧ ∃ t ∈ assertedTypes view, cls ∈ S.subclasses.chain t := by
  rw [applicable, List.mem_eraseDups, List.mem_filter, List.mem_flatMap, and_comm]

theorem length_terms (g : Graph) : g.terms.length = 2 * g.length := by
  induction g with
  | nil => rfl
  | cons q g ih =>
    simp only [Graph.terms, List.flatMap_cons, List.length_append, List.length_cons] at ih ⊢
    simp only [List.length_nil]
    omega

theorem card_keys_lt (S : Setting) (view : View) : (S.keys view).card < S.depth view.graph := by
  have hlen : ∀ l : List Routine, (l.flatMap fun r =>
      (view.focus :: view.graph.terms).map (MemoKey.of (.routine r))).length =
        l.length * (2 * view.graph.length + 1) := by
    intro l
    induction l with
    | nil => simp
    | cons r l ih =>
      rw [List.flatMap_cons, List.length_append, ih, List.length_map, List.length_cons,
        length_terms, List.length_cons, Nat.add_mul]
      omega
  have hroutines : S.routines.length = S.registry.size + S.procedures.size + 1 := by
    simp [routines, Registry.size, Table.size, Table.keys]
  have hcard := List.toFinset_card_le (S.routines.flatMap fun r =>
    (view.focus :: view.graph.terms).map (MemoKey.of (.routine r)))
  rw [hlen, hroutines] at hcard
  exact Nat.lt_succ_of_le hcard

end Setting

namespace Schema

/-- What is registered for a class when nothing was brought along. -/
inductive Registered (shapes : List Shape) : Iri → Program → Prop where
  | cbd : Registered shapes Rdfl.cbd .description
  | pathLens : Registered shapes Rdfl.pathLens .path
  | context : Registered shapes Rdfl.context .context
  | typedExtract : Registered shapes Rdfl.typedExtract .typed
  | shape {sh : Shape} : sh ∈ shapes → Registered shapes sh.target (.shape sh)

variable {options : Options} {g : Graph} {schema : Schema} {view : View}

theorem registered_of_compile (ho : options.custom = [])
    (h : compile options g = some (.ok schema)) :
    schema.setting.registry.All (Registered schema.shapes) := by
  obtain ⟨shapes, _, rfl⟩ := compile_cases h
  refine all_registry (Registry.all_builtins .cbd .pathLens .context .typedExtract) ?_
    fun _ => .shape
  intro e he
  rw [ho] at he
  cases he

theorem program?_procedure (ho : options.Plain) (h : compile options g = some (.ok schema))
    (name : String) : schema.setting.program? (.procedure name) = none := by
  obtain ⟨shapes, _, rfl⟩ := compile_cases h
  simp only [Setting.program?, ho.procedures, Table.get?_empty]

theorem registered_of_program? (ho : options.Plain) (hc : compile options g = some (.ok schema))
    {cls : Iri} {p : Program} (hp : schema.setting.program? (.ofClass cls) = some p) :
    ∃ ps, p = .firstOf ps ∧ ∀ q ∈ ps, Registered schema.shapes cls q :=
  (registered_of_compile ho.custom hc).program hp

/-- The first routine, run at the first view, may ask for the second one at the second view. -/
inductive Requests (schema : Schema) : Routine × View → Routine × View → Prop where
  | typed {view : View} : Requests schema (.ofClass Rdfl.typedExtract, view) (.dispatch, view)
  | dispatch {view : View} {cls : Iri} : cls ∈ schema.setting.applicable view →
      Requests schema (.dispatch, view) (.ofClass cls, view)
  | property {view view' : View} {sh : Shape} {f : Property} {cls : Iri} : sh ∈ schema.shapes →
      f ∈ sh.properties → f.type = .ofClass cls → view.Near view' →
      Requests schema (.ofClass sh.target, view) (.ofClass cls, view')

theorem requests_of_asks (ho : options.Plain) (hc : compile options g = some (.ok schema))
    {r : Routine} {p : Program} (hp : schema.setting.program? r = some p) {name : Shareable}
    {view' : View} (h : p.Asks schema.setting view name view') :
    ∃ r', name = .routine r' ∧ schema.Requests (r, view) (r', view') := by
  cases r with
  | ofClass cls =>
    obtain ⟨ps, rfl, hps⟩ := registered_of_program? ho hc hp
    cases h with
    | @firstOf _ _ _ q _ hq hasks =>
      cases hps q hq with
      | cbd => cases hasks
      | pathLens => cases hasks
      | context => cases hasks
      | typedExtract =>
        cases hasks with
        | typed => exact ⟨_, rfl, .typed⟩
      | shape hsh =>
        cases hasks with
        | property hf hcls hv => exact ⟨_, rfl, .property hsh hf hcls hv⟩
  | procedure name =>
    rw [program?_procedure ho hc] at hp
    cases hp
  | dispatch =>
    cases hp
    cases h with
    | dispatch hcls => exact ⟨_, rfl, .dispatch hcls⟩

theorem Registered.of_readsPath {shapes : List Shape} {cls : Iri} {q : Program}
    (hq : Registered shapes cls q) (h : q.ReadsPath) : cls = Rdfl.pathLens ∧ q = .path := by
  cases hq with
  | pathLens => exact ⟨rfl, rfl⟩
  | _ => cases h

theorem eq_pathLens_of_readsPath (ho : options.Plain)
    (hc : compile options g = some (.ok schema)) {r : Routine} {p : Program}
    (hp : schema.setting.program? r = some p) (h : p.ReadsPath) : r = .ofClass Rdfl.pathLens := by
  cases r with
  | ofClass cls =>
    obtain ⟨ps, rfl, hps⟩ := registered_of_program? ho hc hp
    cases h with
    | firstOf hq hreads => rw [((hps _ hq).of_readsPath hreads).1]
  | procedure name =>
    rw [program?_procedure ho hc] at hp
    cases hp
  | dispatch =>
    cases hp
    cases h

theorem Requests.near {c c' : Routine × View} (h : schema.Requests c c') : c.2.Near c'.2 := by
  cases h with
  | typed => exact .refl _
  | dispatch _ => exact .refl _
  | property _ _ _ hv => exact hv

theorem represented_program (ho : options.Plain) (hc : compile options g = some (.ok schema))
    {r : Routine} {p : Program} (hp : schema.setting.program? r = some p)
    (hread : r = .ofClass Rdfl.pathLens → Path.read view.graph view.focus ≠ none)
    {P : Shareable → View → Prop}
    (hP : ∀ name view', p.Asks schema.setting view name view' → P name view') :
    schema.setting.Represented False P [] Value.refs
      fun i => p.extractor schema.setting .memoized i view := by
  have hS := honest_of_compile ho.honest hc
  by_cases hreads : p.ReadsPath
  · obtain rfl := eq_pathLens_of_readsPath ho hc hp hreads
    obtain ⟨ps, rfl, hps⟩ := registered_of_program? ho hc hp
    simp only [Program.extractor, Program.extractors_eq_map]
    refine Setting.Represented.firstOfAfter (fun q hq => ?_) .noAlternative
    by_cases hpath : q = .path
    · subst hpath
      obtain ⟨result, hresult⟩ := Option.ne_none_iff_exists'.1 (hread rfl)
      simp only [Program.extractor]
      unfold Program.pathExtractor
      rw [hresult]
      cases result with
      | error e => exact .error e
      | ok via => exact .ok (List.nil_subset _)
    · have hq' : ¬ q.ReadsPath := fun h => hpath ((hps q hq).of_readsPath h).2
      exact (q.represented hS view (Program.allHonest_iff.1 (hS.programs _ _ hp) q hq)).mono hq'
        (fun name view' h => hP name view' (.firstOf hq h)) (List.Subset.refl _)
  · exact (p.represented hS view (hS.programs r p hp)).mono hreads hP (List.Subset.refl _)

/-- The calls that come from a call end, if every path is read that they may read. -/
theorem contained_requests (ho : options.Plain) (hc : compile options g = some (.ok schema))
    {r : Routine}
    (hread : ∀ view', Relation.ReflTransGen schema.Requests (r, view)
      (.ofClass Rdfl.pathLens, view') → Path.read view'.graph view'.focus ≠ none) :
    schema.setting.Contained
      (fun r' view' => Relation.ReflTransGen schema.Requests (r, view) (r', view'))
      (schema.setting.keys view) where
  represented r' p view' hp hq := by
    refine represented_program ho hc hp (fun heq => hread view' (heq ▸ hq)) fun name view'' h => ?_
    obtain ⟨r'', rfl, hrequest⟩ := requests_of_asks ho hc hp h
    exact ⟨r'', rfl, hq.tail hrequest⟩
  keys r' p view' hp hq := by
    have hnear : ∀ c, Relation.ReflTransGen schema.Requests (r, view) c → view.Near c.2 := by
      intro c hc
      induction hc with
      | refl => exact .refl view
      | tail _ h ih => exact ih.trans h.near
    exact Setting.mem_keys hp (hnear _ hq)

/-- Routines of which no one asks for a routine outside of them. -/
structure Confined (schema : Schema) (view : View) (allowed : Routine → Prop) : Prop where
  pathLens : ¬ allowed (.ofClass Rdfl.pathLens)
  typed : allowed (.ofClass Rdfl.typedExtract) → allowed .dispatch
  shape : ∀ sh ∈ schema.shapes, ∀ f ∈ sh.properties, ∀ cls, f.type = .ofClass cls →
    allowed (.ofClass cls)
  dispatch : allowed .dispatch → ∀ view', view.Near view' →
    ∀ cls ∈ schema.setting.applicable view', allowed (.ofClass cls)

/-- Requests for allowed routines about the focus and the nodes of the graph. -/
def Nearby (view : View) (allowed : Routine → Prop) (r : Routine) (view' : View) : Prop :=
  view.Near view' ∧ allowed r

theorem Confined.nearby {allowed : Routine → Prop} (hA : schema.Confined view allowed)
    {r r' : Routine} {view₁ view₂ : View} (h : Nearby view allowed r view₁)
    (hr : schema.Requests (r, view₁) (r', view₂)) : Nearby view allowed r' view₂ := by
  obtain ⟨hv, hallowed⟩ := h
  cases hr with
  | typed => exact ⟨hv, hA.typed hallowed⟩
  | dispatch hcls => exact ⟨hv, hA.dispatch hallowed _ hv _ hcls⟩
  | property hsh hf hcls hnear => exact ⟨hv.trans hnear, hA.shape _ hsh _ hf _ hcls⟩

theorem Confined.closed {allowed : Routine → Prop} (hA : schema.Confined view allowed)
    (ho : options.Plain) (hc : compile options g = some (.ok schema)) :
    schema.setting.Closed (Nearby view allowed) (schema.setting.keys view) where
  reads r p view' hp hq hreads := by
    rw [eq_pathLens_of_readsPath ho hc hp hreads] at hq
    exact hA.pathLens hq.2
  asks r p view' hp hq name view₂ hasks := by
    obtain ⟨r', rfl, hr⟩ := requests_of_asks ho hc hp hasks
    exact ⟨r', rfl, hA.nearby hq hr⟩
  keys r p view' hp hq := Setting.mem_keys hp hq.1

theorem confined_of_ne_pathLens
    (hfields : ∀ sh ∈ schema.shapes, ∀ f ∈ sh.properties, f.type ≠ .ofClass Rdfl.pathLens)
    (htypes : ∀ node, ∀ t ∈ Setting.assertedTypes (view.refocus node),
      Rdfl.pathLens ∉ schema.setting.subclasses.chain t) :
    schema.Confined view (· ≠ .ofClass Rdfl.pathLens) where
  pathLens h := h rfl
  typed _ := by simp
  shape sh hsh f hf cls hcls heq := by
    rw [Routine.ofClass.inj heq] at hcls
    exact hfields sh hsh f hf hcls
  dispatch _ view' hv cls hcls heq := by
    rw [Routine.ofClass.inj heq] at hcls
    obtain ⟨focus, graph⟩ := view'
    obtain rfl : graph = view.graph := hv.1
    obtain ⟨-, t, ht, hchain⟩ := Setting.mem_applicable.1 hcls
    exact htypes focus t ht hchain

/-- Extraction ends. Not only is the depth that it is given enough: with no bound on the depth, the
machine comes to an answer, and never has more unfinished runs than there are keys. -/
theorem extraction_ends (ho : options.Plain) (hc : compile options g = some (.ok schema))
    (hfields : ∀ sh ∈ schema.shapes, ∀ f ∈ sh.properties, f.type ≠ .ofClass Rdfl.pathLens)
    (htypes : ∀ node, ∀ t ∈ Setting.assertedTypes (view.refocus node),
      Rdfl.pathLens ∉ schema.setting.subclasses.chain t)
    {cls : Iri} (hcls : cls ≠ Rdfl.pathLens) :
    (∃ r, schema.extract cls view = some r) ∧ (∃ r, schema.extractTyped view = some r) ∧
    (∀ r p, schema.setting.program? r = some p → ∃ d,
      schema.setting.repertoire.dialogue? (.routine r) = some d ∧
      ∀ view' invoke, (d view').run (schema.setting.asked invoke) =
        p.extractor schema.setting .memoized invoke view') ∧
    ∀ r, r = .ofClass cls ∨ r = .dispatch → ∀ counters,
      (∃ result s, schema.setting.repertoire.Steps
        (.start (.share (.routine r) view .answer) counters) ⟨.answer result, [], s⟩) ∧
      ∀ m, schema.setting.repertoire.Steps
        (.start (.share (.routine r) view .answer) counters) m →
          m.stack.length ≤ (schema.setting.keys view).card := by
  have hS := honest_of_compile ho.honest hc
  have hC := (confined_of_ne_pathLens hfields htypes).closed ho hc
  have hcard := schema.setting.card_keys_lt view
  have hclass : Nearby view (· ≠ .ofClass Rdfl.pathLens) (.ofClass cls) view :=
    ⟨.refl _, fun heq => hcls (Routine.ofClass.inj heq)⟩
  have hdispatch : Nearby view (· ≠ .ofClass Rdfl.pathLens) .dispatch view := ⟨.refl _, by simp⟩
  refine ⟨?_, ?_, ?_, ?_⟩
  · have hx : schema.setting.Represented False
        (OfRoutine (Nearby view (· ≠ .ofClass Rdfl.pathLens))) [] Value.refs
        fun i => schema.setting.instanceOf .memoized i cls view :=
      Setting.Represented.instanceOf hS ⟨_, rfl, hclass⟩
    obtain ⟨r, s, hrun⟩ := Setting.run_ends hS hC hx hcard .empty
    exact exists_extract hrun
  · have hx : schema.setting.Represented False
        (OfRoutine (Nearby view (· ≠ .ofClass Rdfl.pathLens))) []
        (fun o => (Value.ofOption o).refs) fun i => Setting.typed i view :=
      Setting.Represented.typed ⟨_, rfl, hdispatch⟩
    obtain ⟨r, s, hrun⟩ := Setting.run_ends hS hC hx hcard .empty
    exact exists_extractTyped hrun
  · intro r p hp
    refine ⟨_, Setting.repertoire_routine hp, fun view' invoke => ?_⟩
    exact (p.represents_dialogue hS (hS.programs r p hp) view').run invoke
  · rintro r (rfl | rfl) counters
    · exact hC.routine_ends hS hclass counters
    · exact hC.routine_ends hS hdispatch counters

theorem link_properties : ∀ sh ∈ linkSchema.shapes, ∀ f ∈ sh.properties,
    f.type = .ofClass ⟨"C"⟩ := by
  intro sh hsh f hf
  rw [List.mem_singleton.1 hsh] at hf
  rw [List.mem_singleton.1 hf]

theorem chain_link : linkSchema.setting.subclasses.chain ⟨"C"⟩ = [⟨"C"⟩] := by
  have hparent : linkSchema.setting.subclasses.parent? ⟨"C"⟩ = none := rfl
  simp [Subclasses.chain, Search.reach, Search.run, hparent, Search.discover]

theorem assertedTypes_linkView {node : Term} {t : Iri}
    (h : t ∈ Setting.assertedTypes (linkView.refocus node)) : t = ⟨"C"⟩ := by
  obtain ⟨term, hterm, hiri⟩ := List.mem_filterMap.1 h
  obtain ⟨q, hq, _, hpred, rfl⟩ := Graph.mem_objects.1 hterm
  simp only [linkView, View.refocus, List.mem_cons, List.not_mem_nil, or_false] at hq
  rcases hq with rfl | rfl | rfl
  · exact (Option.some.inj hiri).symm
  · exact absurd hpred (by decide)
  · exact absurd hpred (by decide)

/-- The extraction of a cycle ends. -/
theorem extraction_ends_link :
    Options.default.Plain ∧ compile .default linkShapes = some (.ok linkSchema) ∧
    (∀ sh ∈ linkSchema.shapes, ∀ f ∈ sh.properties, f.type ≠ .ofClass Rdfl.pathLens) ∧
    (∀ node, ∀ t ∈ Setting.assertedTypes (linkView.refocus node),
      Rdfl.pathLens ∉ linkSchema.setting.subclasses.chain t) ∧
    (⟨"C"⟩ : Iri) ≠ Rdfl.pathLens ∧
    (∃ r, linkSchema.extract ⟨"C"⟩ linkView = some r) ∧
    ∀ m, linkSchema.setting.repertoire.Steps
      (.start (.share (.routine (.ofClass ⟨"C"⟩)) linkView .answer) .empty) m →
        m.stack.length ≤ (linkSchema.setting.keys linkView).card := by
  have hplain : Options.default.Plain := ⟨rfl, rfl, rfl⟩
  have hne : (⟨"C"⟩ : Iri) ≠ Rdfl.pathLens := by decide
  have hfields : ∀ sh ∈ linkSchema.shapes, ∀ f ∈ sh.properties,
      f.type ≠ .ofClass Rdfl.pathLens := by
    intro sh hsh f hf heq
    rw [link_properties sh hsh f hf] at heq
    exact hne (ValueType.ofClass.inj heq)
  have htypes : ∀ node, ∀ t ∈ Setting.assertedTypes (linkView.refocus node),
      Rdfl.pathLens ∉ linkSchema.setting.subclasses.chain t := by
    intro node t ht
    rw [assertedTypes_linkView ht, chain_link, List.mem_singleton]
    exact hne.symm
  obtain ⟨h, _, _, hmachine⟩ := extraction_ends hplain compile_linkShapes hfields htypes hne
  exact ⟨hplain, compile_linkShapes, hfields, htypes, hne, h, (hmachine _ (.inl rfl) .empty).2⟩

end Schema
end ShaclExtract
