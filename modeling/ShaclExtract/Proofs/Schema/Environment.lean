import ShaclExtract.Proofs.Dialogue.Programs
import ShaclExtract.Proofs.Schema.References

/-!
# ShaclExtract.Proofs.Schema.Environment

What extraction takes from the environment: the variables that the data graph declares, and no
others (`Schema.extract_within`).

* `Graph.declaredKeys`: the keys of the nodes of a graph that stand for variables.
* `Extractor.AgreeOn`: two extractors do the same wherever a given graph is visible. Whatever
  programs are put together from agrees if the routines that they ask for do and the environments
  agree on the declared keys (`Program.agreeOn_extractor`).
-/

namespace ShaclExtract

def Graph.declaredKeys (g : Graph) : List String :=
  (g.filter fun q => q.predicate = Rdfl.envKey ∧
    g.hasType q.subject.toTerm Rdfl.envVariable).map fun q => q.object.lexical

theorem Graph.declaredKeys_of_none {g : Graph}
    (h : ∀ node, g.hasType node Rdfl.envVariable = false) : g.declaredKeys = [] := by
  simp [declaredKeys, h]

theorem LexicalSource.mem_declaredKeys {view : View} {key : String} {default : Option String}
    (h : of view = .ok (.environment key default)) : key ∈ view.graph.declaredKeys := by
  unfold of at h
  split at h
  · rename_i htype
    simp only [Bool.and_eq_true] at htype
    split at h
    · cases h
    · rename_i object hobject
      cases h
      obtain ⟨q, hq, hsubject, hpredicate, rfl⟩ :=
        Graph.mem_objects.1 (List.mem_of_head? hobject)
      refine List.mem_map.2 ⟨q, List.mem_filter.2 ⟨hq, ?_⟩, rfl⟩
      simp only [hpredicate, hsubject, htype.2, and_self, decide_true]
  · cases h

theorem Datatype.extract_of_declared {env env' : Environment} {view : View}
    (h : ∀ key ∈ view.graph.declaredKeys, env key = env' key) (d : Iri) :
    extract env d view = extract env' d view := by
  unfold extract
  cases hsource : LexicalSource.of view with
  | error e => rfl
  | ok source =>
    have hresolve : source.resolve env = source.resolve env' := by
      cases source with
      | lexical text => rfl
      | environment key default =>
        simp only [LexicalSource.resolve, h key (LexicalSource.mem_declaredKeys hsource)]
    simp only [hresolve]

/-! ## extractors that do the same on a graph -/

namespace Extractor

variable {σ ι ο α β : Type}

/-- Both do the same wherever the graph is what is visible. -/
def AgreeOn (g : Graph) (x y : Extractor σ View α) : Prop :=
  ∀ view, view.graph = g → x view = y view

theorem each_congr {x y : Extractor σ ι ο} {is : List ι} (h : ∀ i ∈ is, x i = y i) :
    x.each is = y.each is := by
  induction is with
  | nil => rfl
  | cons i is ih =>
    rw [each_cons, each_cons, h i List.mem_cons_self, ih fun j hj => h j (.tail _ hj)]

theorem kept_congr {x y : Extractor σ ι ο} {is : List ι} (h : ∀ i ∈ is, x i = y i) :
    x.kept is = y.kept is := by
  induction is with
  | nil => rfl
  | cons i is ih =>
    rw [kept_cons, kept_cons, h i List.mem_cons_self, ih fun j hj => h j (.tail _ hj)]

theorem only_andThen_congr {x y : Extractor σ ι ο} {is : List ι} (h : ∀ i ∈ is, x i = y i) :
    (only.andThen x) is = (only.andThen y) is := by
  rw [andThen_apply, andThen_apply]
  match is with
  | [] => rfl
  | [i] => exact h i List.mem_cons_self
  | _ :: _ :: _ => rfl

namespace AgreeOn

variable {g : Graph} {x y : Extractor σ View α}

theorem refl (x : Extractor σ View α) : AgreeOn g x x := fun _ _ => rfl

theorem map (h : AgreeOn g x y) (f : α → β) : AgreeOn g (x.map f) (y.map f) := by
  intro view hv
  rw [map_apply, map_apply, h view hv]

theorem andThen (h : AgreeOn g x y) (z : Extractor σ α β) :
    AgreeOn g (x.andThen z) (y.andThen z) := by
  intro view hv
  rw [andThen_apply, andThen_apply, h view hv]

theorem mapError (h : AgreeOn g x y) (f : Failure → View → Failure) :
    AgreeOn g (x.mapError f) (y.mapError f) := by
  intro view hv
  rw [mapError_apply, mapError_apply, h view hv]

theorem all {l : List β} {x y : β → Extractor σ View α} (h : ∀ b ∈ l, AgreeOn g (x b) (y b)) :
    AgreeOn g (Extractor.all (l.map x)) (Extractor.all (l.map y)) := by
  intro view hv
  rw [all_map, all_map]
  exact each_congr fun b hb => h b hb view hv

theorem firstOfAfter {l : List β} {x y : β → Extractor σ View α}
    (h : ∀ b ∈ l, AgreeOn g (x b) (y b)) (last : Failure) :
    AgreeOn g (Extractor.firstOfAfter last (l.map x)) (Extractor.firstOfAfter last (l.map y)) := by
  intro view hv
  induction l generalizing last with
  | nil => rfl
  | cons b l ih =>
    rw [List.map_cons, List.map_cons, firstOfAfter_cons, firstOfAfter_cons,
      h b List.mem_cons_self view hv, funext fun e => ih (fun b hb => h b (.tail _ hb)) e]

theorem shared {x y : Extractor RunState View Value} (h : AgreeOn g x y) (id : ExtractorId) :
    AgreeOn g (Memo.shared id x) (Memo.shared id y) := by
  intro view hv
  funext s
  simp only [Memo.shared, h view hv]

/-- The hops of a path are nodes of the same graph. -/
theorem hops (via : Path) {x y : Extractor σ (List View) α}
    (h : ∀ views : List View, (∀ view ∈ views, view.graph = g) → x views = y views) :
    AgreeOn g (via.hops.andThen x) (via.hops.andThen y) := by
  rintro view rfl
  rw [andThen_apply, andThen_apply, Path.hops, ofExcept_apply]
  cases via.walk view.graph view.focus with
  | error e => rfl
  | ok nodes =>
    refine h (nodes.map view.refocus) fun v hv => ?_
    obtain ⟨node, _, rfl⟩ := List.mem_map.1 hv
    rfl

end AgreeOn
end Extractor

open Extractor

namespace Property

variable {σ : Type} {g : Graph} {x y : Extractor σ View Value}

theorem agreeOn_value (h : AgreeOn g x y) (f : Property) (target : Iri) :
    AgreeOn g (f.value target x) (f.value target y) := by
  unfold value
  split
  · exact (AgreeOn.hops f.path fun views hviews =>
      each_congr fun view hv => h view (hviews view hv)).andThen _
  · rw [andThen_assoc, andThen_assoc]
    exact AgreeOn.hops f.path fun views hviews =>
      only_andThen_congr fun view hv => h view (hviews view hv)

theorem agreeOn_entry (h : AgreeOn g x y) (f : Property) (shapeId : String) (target : Iri) :
    AgreeOn g (f.entry shapeId target x) (f.entry shapeId target y) := by
  have hfilled := ((f.agreeOn_value h target).mapError (f.located shapeId target)).map
    fun v => [(f.name, v)]
  intro view hv
  by_cases hmin : f.minCount = 0
  · rw [entry_of_optional hmin, entry_of_optional hmin, hfilled view hv]
  · rw [entry_of_mandatory hmin, entry_of_mandatory hmin, hfilled view hv]

end Property

/-! ## programs in two environments -/

def Setting.within (S : Setting) (env : Environment) : Setting := { S with environment := env }

section programs

variable {S : Setting} {env env' : Environment} {g : Graph}
  {invoke invoke' : Routine → Extractor RunState View Value}

theorem Setting.agreeOn_element (henv : ∀ key ∈ g.declaredKeys, env key = env' key)
    (h : ∀ r, AgreeOn g (invoke r) (invoke' r)) (t : ValueType) :
    AgreeOn g ((S.within env).element .memoized invoke t)
      ((S.within env').element .memoized invoke' t) := by
  cases t with
  | ofClass cls => exact (h (.ofClass cls)).andThen _
  | datatype d =>
    rintro view rfl
    exact congrArg Action.answer (Datatype.extract_of_declared henv d)

theorem Setting.agreeOn_dispatched (h : ∀ r, AgreeOn g (invoke r) (invoke' r)) :
    AgreeOn g ((S.within env).dispatched .memoized invoke)
      ((S.within env').dispatched .memoized invoke') := by
  intro view hv
  have hall : ∀ classes : List Iri, AgreeOn g (Extractor.all (classes.map fun cls =>
      invoke (.ofClass cls))) (Extractor.all (classes.map fun cls => invoke' (.ofClass cls))) :=
    fun classes => .all fun cls _ => h (.ofClass cls)
  funext s
  unfold dispatched
  dsimp only
  have happlicable : (S.within env).applicable view = (S.within env').applicable view := rfl
  rw [happlicable]
  split
  · rfl
  · rfl
  · exact congrFun ((((hall _).andThen _).andThen _) view hv) s

namespace Program

theorem agreeOn_onHops {x y : Extractor RunState View Value} (h : AgreeOn g x y) (via : Path)
    (hops : Hops) : AgreeOn g (onHops via x hops) (onHops via y hops) := by
  cases hops with
  | one =>
    simp only [onHops, andThen_assoc]
    exact AgreeOn.hops via fun views hviews =>
      only_andThen_congr fun view hv => h view (hviews view hv)
  | all =>
    exact (AgreeOn.hops via fun views hviews =>
      each_congr fun view hv => h view (hviews view hv)).map _
  | some =>
    exact (AgreeOn.hops via fun views hviews =>
      kept_congr fun view hv => h view (hviews view hv)).map _

mutual

theorem agreeOn_extractor (henv : ∀ key ∈ g.declaredKeys, env key = env' key)
    (h : ∀ r, AgreeOn g (invoke r) (invoke' r)) : ∀ p : Program,
      AgreeOn g (p.extractor (S.within env) .memoized invoke)
        (p.extractor (S.within env') .memoized invoke')
  | .focus | .const _ | .fail _ | .tick _ | .description | .context | .path => .refl _
  | .typed => by
    refine AgreeOn.map (fun view hv => ?_) _
    funext s
    simp only [Setting.typed, (h .dispatch).map some view hv]
  | .dispatch => Setting.agreeOn_dispatched h
  | .shape sh =>
    (AgreeOn.all fun f _ =>
      f.agreeOn_entry (Setting.agreeOn_element henv h f.type) sh.id sh.target).map _
  | .all parts => by
    simp only [extractor, extractors_eq_map]
    exact (AgreeOn.all (agreeOn_extractors henv h parts)).map _
  | .firstOf parts => by
    simp only [extractor, extractors_eq_map]
    exact .firstOfAfter (agreeOn_extractors henv h parts) _
  | .along via hops part => agreeOn_onHops (agreeOn_extractor henv h part) via hops
  | .shared _ part => (agreeOn_extractor henv h part).shared _
  | .call procedure => h (.procedure procedure)
  | .resolved part => by
    intro view hv
    funext s
    simp only [extractor, agreeOn_extractor henv h part view hv]

theorem agreeOn_extractors (henv : ∀ key ∈ g.declaredKeys, env key = env' key)
    (h : ∀ r, AgreeOn g (invoke r) (invoke' r)) : ∀ ps : List Program, ∀ p ∈ ps,
      AgreeOn g (p.extractor (S.within env) .memoized invoke)
        (p.extractor (S.within env') .memoized invoke')
  | [], _, hp => absurd hp List.not_mem_nil
  | p :: ps, q, hq => by
    rcases List.mem_cons.1 hq with heq | hq
    · rw [heq]
      exact agreeOn_extractor henv h p
    · exact agreeOn_extractors henv h ps q hq

end

end Program

theorem Setting.agreeOn_invoke (henv : ∀ key ∈ g.declaredKeys, env key = env' key) (depth : Nat) :
    ∀ r, AgreeOn g ((S.within env).invoke .memoized depth r)
      ((S.within env').invoke .memoized depth r) := by
  induction depth with
  | zero => exact fun r => .refl _
  | succ depth ih =>
    intro r
    have hprogram : (S.within env).program? r = (S.within env').program? r := rfl
    cases hp : (S.within env').program? r with
    | none =>
      simp only [invoke, hprogram, hp]
      exact .refl _
    | some p =>
      simp only [invoke, hprogram, hp]
      exact (p.agreeOn_extractor henv ih).shared _

end programs

/-! ## extraction -/

namespace Schema

def within (schema : Schema) (env : Environment) : Schema :=
  { schema with setting := schema.setting.within env }

variable {options : Options} {shapes g : Graph} {schema : Schema} {env env' : Environment}

theorem agreeOn_classExtractor (henv : ∀ key ∈ g.declaredKeys, env key = env' key) (cls : Iri) :
    AgreeOn g ((schema.within env).classExtractor cls)
      ((schema.within env').classExtractor cls) := by
  intro view hv
  exact ((Setting.agreeOn_invoke henv _ (.ofClass cls)).andThen _) view hv

theorem agreeOn_typedExtractor (henv : ∀ key ∈ g.declaredKeys, env key = env' key) :
    AgreeOn g (schema.within env).typedExtractor (schema.within env').typedExtractor := by
  intro view hv
  have h := (Setting.agreeOn_invoke (S := schema.setting) henv (schema.setting.depth view.graph)
    .dispatch).map some view hv
  funext s
  exact congrArg (fun o => if view.types = [] then some (.ok none, s) else o) (congrFun h s)

/-- Of two environments that agree on the keys that a data graph declares, one gives the same
results as the other; on a graph without variables, all environments do. -/
theorem extract_within (hc : compile options shapes = some (.ok schema)) (env env' : Environment)
    (g : Graph) :
    compile { options with environment := env } shapes = some (.ok (schema.within env)) ∧
    compile { options with environment := env' } shapes = some (.ok (schema.within env')) ∧
    ((∀ key ∈ g.declaredKeys, env key = env' key) ∨
        (∀ node, g.hasType node Rdfl.envVariable = false) →
      ∀ focus,
        (∀ cls, (schema.within env).extract cls ⟨focus, g⟩ =
          (schema.within env').extract cls ⟨focus, g⟩) ∧
        (schema.within env).extractTyped ⟨focus, g⟩ =
          (schema.within env').extractTyped ⟨focus, g⟩) := by
  obtain ⟨read, hread, rfl⟩ := compile_cases hc
  refine ⟨compile_of_readAll hread _, compile_of_readAll hread _, fun h focus => ?_⟩
  have henv : ∀ key ∈ g.declaredKeys, env key = env' key := by
    rcases h with h | h
    · exact h
    · simp [Graph.declaredKeys_of_none h]
  refine ⟨fun cls => ?_, ?_⟩
  · rw [extract_eq_map, agreeOn_classExtractor henv cls ⟨focus, g⟩ rfl, extract_eq_map]
  · rw [extractTyped_eq_map, agreeOn_typedExtractor henv ⟨focus, g⟩ rfl, extractTyped_eq_map]

/-! ## a port that is taken from the environment -/

def listener : Shape :=
  ⟨"S", ⟨"C"⟩, none, [⟨"port", .predicate ⟨"port"⟩, 1, some 1, .datatype Xsd.integer⟩]⟩

def listenerShapes : Graph :=
  [⟨.iri ⟨"S"⟩, Rdf.type, .iri Sh.nodeShape, none⟩,
    ⟨.iri ⟨"S"⟩, Sh.targetClass, .iri ⟨"C"⟩, none⟩,
    ⟨.iri ⟨"S"⟩, Sh.property, .blank "p", none⟩,
    ⟨.blank "p", Sh.path, .iri ⟨"port"⟩, none⟩,
    ⟨.blank "p", Sh.name, .literal (.simple "port"), none⟩,
    ⟨.blank "p", Sh.datatype, .iri Xsd.integer, none⟩,
    ⟨.blank "p", Sh.minCount, .literal (.simple "1"), none⟩,
    ⟨.blank "p", Sh.maxCount, .literal (.simple "1"), none⟩]

def listenerSchema : Schema :=
  ⟨[listener], registry [] [listener], .ofGraph listenerShapes, .empty, fun _ => none, .empty⟩

theorem compile_listenerShapes : compile .default listenerShapes = some (.ok listenerSchema) :=
  compile_of_readAll (by rfl) .default

def listenerGraph : Graph :=
  [⟨.iri ⟨"a"⟩, ⟨"port"⟩, .blank "v", none⟩,
    ⟨.blank "v", Rdf.type, .iri Rdfl.envVariable, none⟩,
    ⟨.blank "v", Rdfl.envKey, .literal (.simple "PORT"), none⟩]

def portOnly : Environment := fun key => if key = "PORT" then some "9000" else none

def portAndHome : Environment := fun key => if key = "HOME" then some "/" else portOnly key

def listenerExtraction : Extraction :=
  ⟨.ref ⟨0⟩, ⟨[.ready (.record [("port", .integer 9000)])],
    [(.of (.routine (.ofClass ⟨"C"⟩)) (.iri ⟨"a"⟩), ⟨0⟩)]⟩⟩

/-- A variable that is not declared makes no difference, and one that is declared does. -/
theorem extract_within_listener :
    compile .default listenerShapes = some (.ok listenerSchema) ∧
    portOnly "HOME" ≠ portAndHome "HOME" ∧
    (∀ key ∈ listenerGraph.declaredKeys, portOnly key = portAndHome key) ∧
    (listenerSchema.within portOnly).extract ⟨"C"⟩ ⟨.iri ⟨"a"⟩, listenerGraph⟩ =
      some (.ok listenerExtraction) ∧
    (listenerSchema.within portAndHome).extract ⟨"C"⟩ ⟨.iri ⟨"a"⟩, listenerGraph⟩ =
      some (.ok listenerExtraction) ∧
    (listenerSchema.extract ⟨"C"⟩ ⟨.iri ⟨"a"⟩, listenerGraph⟩).isSome ∧
    listenerSchema.extract ⟨"C"⟩ ⟨.iri ⟨"a"⟩, listenerGraph⟩ ≠ some (.ok listenerExtraction) := by
  have hkeys : ∀ key ∈ listenerGraph.declaredKeys, portOnly key = portAndHome key := by decide
  obtain ⟨-, -, hsame⟩ :=
    extract_within compile_listenerShapes portOnly portAndHome listenerGraph
  obtain ⟨hclass, -⟩ := hsame (.inl hkeys) (.iri ⟨"a"⟩)
  have hextract : (listenerSchema.within portOnly).extract ⟨"C"⟩ ⟨.iri ⟨"a"⟩, listenerGraph⟩ =
      some (.ok listenerExtraction) := by rfl
  exact ⟨compile_listenerShapes, by decide, hkeys, hextract, (hclass ⟨"C"⟩).symm.trans hextract,
    by rfl, nofun⟩

end Schema
end ShaclExtract
