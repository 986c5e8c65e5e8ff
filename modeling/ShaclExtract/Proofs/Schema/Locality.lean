import ShaclExtract.Proofs.Path.Forward
import ShaclExtract.Proofs.Schema.Alongside

/-!
# ShaclExtract.Proofs.Schema.Locality

What extraction reads. If no path is followed backwards, and neither all visible quads nor a path is
read from the data, then extraction from a focus consults the outgoing quads of the nodes that are
reached from it, and nothing else. On two graphs that have the same quads there, in the same order
for each node, it gives the same value and leaves the same memo, or none of the two ends
(`Schema.extract_local`).

So extraction within the description of the focus gives what extraction within all quads does, if
the IRIs that the description refers to have no quads of their own.
-/

namespace ShaclExtract

open Relation

theorem Setting.transformed_state {σ : Type} {S : Setting} {E : Strategy σ} {cls : Iri} {v : Value}
    {s s' : σ} {r : Except Failure Value} (h : S.transformed E cls v s = some (r, s')) :
    s' = s := by
  unfold transformed at h
  split at h
  · cases h
    rfl
  · split at h <;>
    · cases h
      rfl

/-! ## memos that are the same -/

namespace Pairing

/-- Nothing goes together but what is equal. -/
structure Exact (K : Pairing) : Prop where
  memos : ∀ m m', K.memos m m' ↔ m = m'
  values : ∀ v w, K.values v w ↔ v = w

variable {K : Pairing}

theorem exact_same : same.Exact := ⟨fun _ _ => .rfl, fun _ _ => .rfl⟩

theorem Exact.flip (h : K.Exact) : K.flip.Exact where
  memos m m' := (h.memos m' m).trans eq_comm
  values v w := (h.values w v).trans eq_comm

theorem Exact.state_eq (h : K.Exact) {s t : RunState} (hmemos : K.memos s.memo t.memo)
    (hcounters : s.counters = t.counters) : s = t := by
  cases s
  cases t
  cases (h.memos _ _).1 hmemos
  cases hcounters
  rfl

theorem Exact.values_eq (h : K.Exact) {vs ws : List Value} (hvs : List.Forall₂ K.values vs ws) :
    vs = ws := by
  have heq : List.Forall₂ Eq vs ws := hvs.imp fun v w hv => (h.values v w).1 hv
  rwa [List.forall₂_eq_eq_eq] at heq

theorem Exact.transforms (h : K.Exact) (S : Setting) : K.Transforms S := by
  rintro room bound cls v w s r s' t hst hvw hrun
  obtain rfl := (h.values v w).1 hvw
  obtain rfl := h.state_eq hst.1 hst.2.1
  obtain rfl := Setting.transformed_state hrun
  refine ⟨r, _, hrun, hst, .refl _, ?_⟩
  cases r with
  | error e => rfl
  | ok v => exact (h.values v v).2 rfl

theorem Exact.merges (h : K.Exact) : K.Merges := by
  intro room bound s t vs ws hst hvs
  obtain rfl := h.values_eq hvs
  obtain rfl := h.state_eq hst.1 hst.2.1
  exact (h.values _ _).2 rfl

theorem Exact.eq_of_ends (h : K.Exact) {o o' : Option (Except Failure Value × RunState)}
    (hends : K.Ends K.values o o') : o' = o := by
  cases hends with
  | none => rfl
  | @some a b hab =>
    obtain ⟨r, s⟩ := a
    obtain ⟨r', t⟩ := b
    obtain ⟨hr, hmemos, hcounters⟩ := hab
    obtain rfl := h.state_eq hmemos hcounters
    obtain ⟨e, rfl, rfl⟩ | ⟨v, w, rfl, rfl, hvw⟩ := hr.cases
    · rfl
    · rw [(h.values v w).1 hvw]

end Pairing

theorem Datatype.extract_congr {env : Environment} {d : Iri} {view view' : View}
    (hfocus : view'.focus = view.focus)
    (hout : view'.graph.outgoing view.focus = view.graph.outgoing view.focus) :
    extract env d view' = extract env d view := by
  have hobjects : ∀ p, view'.graph.objects view.focus p = view.graph.objects view.focus p :=
    fun p => by rw [Graph.objects, hout, Graph.objects]
  have htype : ∀ cls, view'.graph.hasType view.focus cls = view.graph.hasType view.focus cls :=
    fun cls => by rw [Graph.hasType, Graph.types, hobjects, Graph.hasType, Graph.types]
  have hobject : ∀ p, view'.graph.object? view.focus p = view.graph.object? view.focus p :=
    fun p => by rw [Graph.object?, hobjects, Graph.object?]
  have hsource : LexicalSource.of view' = LexicalSource.of view := by
    simp only [LexicalSource.of, hfocus, htype, hobject]
  have hterm : ∀ text (source : LexicalSource), source.term view' text = source.term view text := by
    intro text source
    cases source with
    | lexical _ => exact hfocus
    | environment _ _ => rfl
  simp only [extract, hsource, hterm]

namespace Schema

/-! ## what is invoked -/

/-- The classes that read what no walk leads to: all visible quads, or the description of a path. -/
def wideClasses : List Iri := [Rdfl.context, Rdfl.pathLens]

/-- All paths are followed forwards, and no property asks for a wide class. -/
def ReadsForward (schema : Schema) : Prop :=
  ∀ sh ∈ schema.shapes, ∀ f ∈ sh.properties,
    f.path.Forward ∧ ∀ cls ∈ wideClasses, f.type ≠ .ofClass cls

/-- Wherever dispatch is invoked, no wide class applies. -/
def DispatchesLocally (schema : Schema) (r : Routine) (view : View) : Prop :=
  ∀ view', ReflTransGen schema.Invokes (r, view) (.dispatch, view') →
    ∀ cls ∈ schema.setting.applicable view', cls ∉ wideClasses

def Narrow : Routine → Prop
  | .ofClass cls => cls ∉ wideClasses
  | .procedure _ => False
  | .dispatch => True

variable {options : Options} {shapes : Graph} {schema : Schema} {focus : Term} {g g' : Graph}
  {r r' : Routine} {view view' : View}

theorem ReadsForward.reach (h : schema.ReadsForward)
    (hinvokes : ReflTransGen schema.Invokes (r, ⟨focus, g⟩) (r', view)) :
    view.graph = g ∧ g.Reach focus view.focus := by
  generalize hend : (r', view) = y at hinvokes
  induction hinvokes generalizing r' view with
  | refl =>
    cases hend
    exact ⟨rfl, .focus⟩
  | @tail b c _ hnext ih =>
    subst hend
    cases hnext with
    | typed => exact ih rfl
    | dispatch _ => exact ih rfl
    | property hsh hf _ hnode =>
      obtain ⟨rfl, hreach⟩ := ih rfl
      obtain ⟨hops, hwalk, hmem⟩ := hnode
      exact ⟨rfl, Path.reach_of_walk (h _ hsh _ hf).1 hreach hwalk _ hmem⟩

theorem ReadsForward.narrow (h : schema.ReadsForward) (hr : Narrow r)
    (hdispatch : schema.DispatchesLocally r ⟨focus, g⟩)
    (hinvokes : ReflTransGen schema.Invokes (r, ⟨focus, g⟩) (r', view)) : Narrow r' := by
  rcases hinvokes.cases_tail with heq | ⟨⟨r₁, view₁⟩, hbefore, hnext⟩
  · cases heq
    exact hr
  · cases hnext with
    | typed => trivial
    | dispatch hcls => exact hdispatch _ hbefore _ hcls
    | property hsh hf htype _ =>
      intro hcls
      exact (h _ hsh _ hf).2 _ hcls htype

/-- It is enough that no wide class applies to any node that is reached. -/
theorem ReadsForward.dispatchesLocally (h : schema.ReadsForward)
    (hnodes : ∀ n, g.Reach focus n → ∀ cls ∈ schema.setting.applicable ⟨n, g⟩, cls ∉ wideClasses)
    (r : Routine) : schema.DispatchesLocally r ⟨focus, g⟩ := by
  rintro ⟨n, g'⟩ hinvokes
  obtain ⟨rfl, hreach⟩ := h.reach hinvokes
  exact hnodes n hreach

/-! ## two graphs -/

/-- Whatever routine is invoked at whatever node reads the same in both graphs. -/
theorem ReadsForward.matches (h : schema.ReadsForward) (hsame : g.SameFrom focus g')
    (hr : Narrow r) (hreach : g.Reach focus view.focus) (hview : view.graph = g) :
    schema.Matches r view ⟨view.focus, g'⟩ where
  focus := rfl
  types := by
    rw [View.types, View.types, hview]
    exact hsame.types_eq hreach
  description _ := by
    rw [hview]
    exact hsame.description_eq hreach
  context heq := by
    subst heq
    exact absurd hr (by simp [Narrow, wideClasses])
  path heq := by
    subst heq
    exact absurd hr (by simp [Narrow, wideClasses])
  walk sh hsh f hf := by
    rw [hview]
    exact Path.walk_local hsame (h sh hsh f hf).1 hreach
  datatype sh hsh f hf d _ node hnode := by
    obtain ⟨hops, hwalk, hmem⟩ := hnode
    rw [hview] at hwalk
    refine Datatype.extract_congr rfl ?_
    rw [View.refocus, View.refocus, hview]
    exact hsame node (Path.reach_of_walk (h sh hsh f hf).1 hreach hwalk node hmem)

/-- What is invoked from the focus of the first graph, beside the same in the second graph. -/
def Beside (schema : Schema) (r₀ : Routine) (focus : Term) (g g' : Graph) (r : Routine)
    (view view' : View) : Prop :=
  ReflTransGen schema.Invokes (r₀, ⟨focus, g⟩) (r, view) ∧ view' = ⟨view.focus, g'⟩

theorem near_of_reach {n : Term} (h : g.Reach focus n) : View.Near ⟨focus, g⟩ ⟨n, g⟩ := by
  refine ⟨rfl, ?_⟩
  cases h with
  | focus => exact .inl rfl
  | object hq _ => exact .inr (Graph.object_mem_terms hq)

theorem ReadsForward.parallel (h : schema.ReadsForward) (hsame : g.SameFrom focus g')
    {r₀ : Routine} (hr₀ : Narrow r₀) (hdispatch : schema.DispatchesLocally r₀ ⟨focus, g⟩)
    {K : Pairing} (hK : K.Exact) (hkeys : ∀ key, K.keys key) :
    schema.Parallel K ⟨focus, g'⟩ (schema.Beside r₀ focus g g') where
  reads := by
    rintro r view view' ⟨hinvokes, rfl⟩
    obtain ⟨hview, hreach⟩ := h.reach hinvokes
    exact h.matches hsame (h.narrow hr₀ hdispatch hinvokes) hreach hview
  near := by
    rintro r view view' ⟨hinvokes, rfl⟩
    exact near_of_reach (hsame.reach_iff.2 (h.reach hinvokes).2)
  key _ := hkeys _
  routine := by
    rintro r view view' ⟨hinvokes, rfl⟩ name rfl
    exact h.narrow hr₀ hdispatch hinvokes
  invokes := by
    rintro r view view' r' node ⟨hinvokes, rfl⟩ hnext
    exact ⟨hinvokes.tail hnext, rfl⟩
  transforms := hK.transforms _
  merges _ := hK.merges

theorem ReadsForward.invoke_eq (ho : options.custom = [])
    (hc : compile options shapes = some (.ok schema)) (h : schema.ReadsForward)
    (hsame : g.SameFrom focus g') (hr : Narrow r)
    (hdispatch : schema.DispatchesLocally r ⟨focus, g⟩) (counters : Counters) :
    schema.setting.invoke .memoized (schema.setting.depth g') r ⟨focus, g'⟩ (.start counters) =
      schema.setting.invoke .memoized (schema.setting.depth g) r ⟨focus, g⟩ (.start counters) := by
  have hparallel := h.parallel hsame hr hdispatch Pairing.exact_same fun _ => trivial
  have hflip : schema.Parallel Pairing.same.flip ⟨focus, g⟩
      fun r₁ v v' => schema.Beside r focus g g' r₁ v' v := by
    refine hparallel.flip ?_ (Pairing.exact_same.flip.transforms _)
      fun _ => Pairing.exact_same.flip.merges
    rintro r₁ ⟨n, g₁⟩ view' ⟨hinvokes, -⟩
    obtain ⟨rfl, hreach⟩ := h.reach hinvokes
    exact near_of_reach hreach
  exact Pairing.exact_same.eq_of_ends (ends_invoke ho hc hparallel hflip ⟨.refl, rfl⟩
    (Pairing.states_empty (schema.setting.card_keys_lt ⟨focus, g'⟩) rfl Memo.bounded_empty counters)
    (Pairing.states_empty (schema.setting.card_keys_lt ⟨focus, g⟩) rfl Memo.bounded_empty counters))

theorem ReadsForward.classExtractor_eq (ho : options.custom = [])
    (hc : compile options shapes = some (.ok schema)) (h : schema.ReadsForward)
    (hsame : g.SameFrom focus g') {cls : Iri} (hcls : cls ∉ wideClasses)
    (hdispatch : schema.DispatchesLocally (.ofClass cls) ⟨focus, g⟩) (counters : Counters) :
    schema.classExtractor cls ⟨focus, g'⟩ (.start counters) =
      schema.classExtractor cls ⟨focus, g⟩ (.start counters) := by
  have hinvoke := h.invoke_eq ho hc hsame (r := .ofClass cls) hcls hdispatch counters
  simp only [classExtractor, Setting.run, Setting.instanceOf, Extractor.andThen, hinvoke]

theorem ReadsForward.typedExtractor_eq (ho : options.custom = [])
    (hc : compile options shapes = some (.ok schema)) (h : schema.ReadsForward)
    (hsame : g.SameFrom focus g') (hdispatch : schema.DispatchesLocally .dispatch ⟨focus, g⟩)
    (counters : Counters) :
    schema.typedExtractor ⟨focus, g'⟩ (.start counters) =
      schema.typedExtractor ⟨focus, g⟩ (.start counters) := by
  have hinvoke := h.invoke_eq ho hc hsame (r := .dispatch) trivial hdispatch counters
  have htypes : View.types ⟨focus, g'⟩ = View.types ⟨focus, g⟩ := hsame.types_eq .focus
  simp only [typedExtractor, Setting.run, Setting.typed, Extractor.map, htypes, hinvoke]

/-- On graphs that agree on the outgoing quads of all nodes that are reached from the focus,
extraction does the same: of a class that is not wide, and by type. So does extraction within the
description of the focus, if it refers to no other IRI that has outgoing quads. -/
theorem extract_local (ho : options.custom = []) (hc : compile options shapes = some (.ok schema))
    (h : schema.ReadsForward) (focus : Term) (g : Graph) :
    (∀ cls, cls ∉ wideClasses → schema.DispatchesLocally (.ofClass cls) ⟨focus, g⟩ →
      (∀ g', g.SameFrom focus g' →
        (∀ counters, schema.classExtractor cls ⟨focus, g'⟩ (.start counters) =
          schema.classExtractor cls ⟨focus, g⟩ (.start counters)) ∧
        schema.extract cls ⟨focus, g'⟩ = schema.extract cls ⟨focus, g⟩) ∧
      (g.Bounded focus →
        schema.extract cls (.bounded focus g) = schema.extract cls ⟨focus, g⟩)) ∧
    (schema.DispatchesLocally .dispatch ⟨focus, g⟩ →
      (∀ g', g.SameFrom focus g' →
        (∀ counters, schema.typedExtractor ⟨focus, g'⟩ (.start counters) =
          schema.typedExtractor ⟨focus, g⟩ (.start counters)) ∧
        schema.extractTyped ⟨focus, g'⟩ = schema.extractTyped ⟨focus, g⟩) ∧
      (g.Bounded focus →
        schema.extractTyped (.bounded focus g) = schema.extractTyped ⟨focus, g⟩)) := by
  refine ⟨fun cls hcls hdispatch => ?_, fun hdispatch => ?_⟩
  · have hextractor := fun g' (hsame : g.SameFrom focus g') =>
      h.classExtractor_eq ho hc hsame hcls hdispatch
    have hextract : ∀ g', g.SameFrom focus g' →
        schema.extract cls ⟨focus, g'⟩ = schema.extract cls ⟨focus, g⟩ := fun g' hsame => by
      rw [extract_eq_map, hextractor g' hsame, extract_eq_map]
    exact ⟨fun g' hsame => ⟨hextractor g' hsame, hextract g' hsame⟩,
      fun hbounded => hextract _ hbounded.sameFrom_description⟩
  · have hextractor := fun g' (hsame : g.SameFrom focus g') =>
      h.typedExtractor_eq ho hc hsame hdispatch
    have hextract : ∀ g', g.SameFrom focus g' →
        schema.extractTyped ⟨focus, g'⟩ = schema.extractTyped ⟨focus, g⟩ := fun g' hsame => by
      rw [extractTyped_eq_map, hextractor g' hsame, extractTyped_eq_map]
    exact ⟨fun g' hsame => ⟨hextractor g' hsame, hextract g' hsame⟩,
      fun hbounded => hextract _ hbounded.sameFrom_description⟩

/-! ## a blank node and back -/

/-- A node that refers to itself by way of a blank node. -/
def roundTrip : Graph :=
  [⟨.iri ⟨"a"⟩, Rdf.type, .iri ⟨"C"⟩, none⟩, ⟨.iri ⟨"a"⟩, ⟨"next"⟩, .blank "b", none⟩,
    ⟨.blank "b", ⟨"next"⟩, .iri ⟨"a"⟩, none⟩]

/-- Some other node refers to it. -/
def withReferrer : Graph := ⟨.iri ⟨"z"⟩, ⟨"next"⟩, .iri ⟨"a"⟩, none⟩ :: roundTrip

/-- Some other node refers to something else. -/
def withStranger : Graph := roundTrip ++ [⟨.iri ⟨"z"⟩, ⟨"next"⟩, .iri ⟨"z"⟩, none⟩]

def roundTripExtraction : Extraction :=
  ⟨.ref ⟨0⟩,
    ⟨[.ready (.record [("next", .ref ⟨1⟩)]), .ready (.record [("next", .ref ⟨0⟩)])],
      [(.of (.routine (.ofClass ⟨"C"⟩)) (.blank "b"), ⟨1⟩),
        (.of (.routine (.ofClass ⟨"C"⟩)) (.iri ⟨"a"⟩), ⟨0⟩)]⟩⟩

theorem readsForward_link : linkSchema.ReadsForward := by
  intro sh hsh f hf
  refine ⟨?_, fun cls hcls htype => ?_⟩
  · rw [List.mem_singleton.1 hsh] at hf
    rw [List.mem_singleton.1 hf]
    trivial
  · rw [link_properties sh hsh f hf] at htype
    cases htype
    exact absurd hcls (by decide)

theorem dispatchesLocally_withReferrer (r : Routine) :
    linkSchema.DispatchesLocally r ⟨.iri ⟨"a"⟩, withReferrer⟩ := by
  have htypes : ∀ q ∈ withReferrer, q.predicate = Rdf.type → q.object = .iri ⟨"C"⟩ := by decide
  refine readsForward_link.dispatchesLocally (fun n _ cls hcls => ?_) r
  obtain ⟨-, t, ht, hchain⟩ := Setting.mem_applicable.1 hcls
  obtain ⟨term, hterm, hiri⟩ := List.mem_filterMap.1 ht
  obtain ⟨q, hq, -, hpred, rfl⟩ := Graph.mem_objects.1 hterm
  rw [htypes q hq hpred] at hiri
  cases hiri
  rw [chain_link, List.mem_singleton] at hchain
  rw [hchain]
  decide

theorem reach_withReferrer {n : Term} (h : withReferrer.Reach (.iri ⟨"a"⟩) n) :
    n ∈ ([.iri ⟨"a"⟩, .iri ⟨"C"⟩, .blank "b"] : List Term) := by
  have hclosed : ∀ q ∈ withReferrer, q.subject.toTerm ∈
      ([.iri ⟨"a"⟩, .iri ⟨"C"⟩, .blank "b"] : List Term) →
        q.object ∈ ([.iri ⟨"a"⟩, .iri ⟨"C"⟩, .blank "b"] : List Term) := by decide
  induction h with
  | focus => exact List.mem_cons_self
  | object hq _ ih => exact hclosed _ hq ih

theorem sameFrom_withReferrer : withReferrer.SameFrom (.iri ⟨"a"⟩) withStranger := by
  have hout : ∀ n ∈ ([.iri ⟨"a"⟩, .iri ⟨"C"⟩, .blank "b"] : List Term),
      withStranger.outgoing n = withReferrer.outgoing n := by decide
  exact fun n hn => hout n (reach_withReferrer hn)

theorem bounded_withReferrer : withReferrer.Bounded (.iri ⟨"a"⟩) := by
  have hout : ∀ q ∈ withReferrer, q.object ≠ .iri ⟨"a"⟩ → q.object ≠ .blank "b" →
      withReferrer.outgoing q.object = [] := by decide
  intro q hq i hi hfocus
  obtain ⟨n, -, hn⟩ := List.mem_flatMap.1 hq
  refine hout q (Graph.mem_outgoing.1 hn).1 hfocus ?_
  rw [hi]
  exact Term.noConfusion

/-- Who else refers to the node does not matter, nor does it matter whether they are visible. -/
theorem extract_local_link :
    Options.default.custom = [] ∧ compile .default linkShapes = some (.ok linkSchema) ∧
    linkSchema.ReadsForward ∧ (⟨"C"⟩ : Iri) ∉ wideClasses ∧
    (∀ r, linkSchema.DispatchesLocally r ⟨.iri ⟨"a"⟩, withReferrer⟩) ∧
    withReferrer.SameFrom (.iri ⟨"a"⟩) withStranger ∧ withReferrer.Bounded (.iri ⟨"a"⟩) ∧
    linkSchema.extract ⟨"C"⟩ ⟨.iri ⟨"a"⟩, withReferrer⟩ = some (.ok roundTripExtraction) ∧
    linkSchema.extract ⟨"C"⟩ ⟨.iri ⟨"a"⟩, withStranger⟩ = some (.ok roundTripExtraction) ∧
    linkSchema.extract ⟨"C"⟩ (.bounded (.iri ⟨"a"⟩) withReferrer) =
      some (.ok roundTripExtraction) ∧
    linkSchema.extractTyped ⟨.iri ⟨"a"⟩, withStranger⟩ =
      linkSchema.extractTyped ⟨.iri ⟨"a"⟩, withReferrer⟩ ∧
    linkSchema.extractTyped (.bounded (.iri ⟨"a"⟩) withReferrer) =
      linkSchema.extractTyped ⟨.iri ⟨"a"⟩, withReferrer⟩ := by
  have hcustom : Options.default.custom = [] := rfl
  have hcls : (⟨"C"⟩ : Iri) ∉ wideClasses := by decide
  obtain ⟨hclass, htyped⟩ := extract_local hcustom compile_linkShapes readsForward_link
    (.iri ⟨"a"⟩) withReferrer
  obtain ⟨hsame, hdescription⟩ := hclass _ hcls (dispatchesLocally_withReferrer _)
  obtain ⟨hsameTyped, hdescriptionTyped⟩ := htyped (dispatchesLocally_withReferrer _)
  have hextract : linkSchema.extract ⟨"C"⟩ ⟨.iri ⟨"a"⟩, withReferrer⟩ =
      some (.ok roundTripExtraction) := by rfl
  exact ⟨hcustom, compile_linkShapes, readsForward_link, hcls, dispatchesLocally_withReferrer,
    sameFrom_withReferrer, bounded_withReferrer, hextract,
    (hsame _ sameFrom_withReferrer).2.trans hextract,
    (hdescription bounded_withReferrer).trans hextract, (hsameTyped _ sameFrom_withReferrer).2,
    hdescriptionTyped bounded_withReferrer⟩

end Schema
end ShaclExtract
