import ShaclExtract.Schema

/-!
# ShaclExtract.Proofs.Schema.Compiled

What is registered when shapes have been compiled: the built-in classes, the custom programs, and
the shapes in order, each behind what its target class had before.
-/

namespace ShaclExtract

namespace Registry

def All (P : Iri → Program → Prop) (r : Registry) : Prop :=
  ∀ cls ps, r.alternatives.get? cls = some ps → ∀ p ∈ ps, P cls p

variable {P : Iri → Program → Prop} {r : Registry}

theorem all_empty : empty.All P := by
  intro cls ps h
  cases h

theorem All.insert (hr : r.All P) {cls : Iri} {p : Program} (hp : P cls p) :
    (r.insert cls p).All P := by
  intro c ps h q hq
  by_cases hc : cls = c
  · subst hc
    rw [Registry.insert, Table.get?_insert_self] at h
    cases h
    rw [List.mem_singleton.1 hq]
    exact hp
  · rw [Registry.insert, Table.get?_insert_of_ne _ _ hc] at h
    exact hr c ps h q hq

theorem All.alternativesOf (hr : r.All P) (cls : Iri) : ∀ p ∈ r.alternativesOf cls, P cls p := by
  intro p hp
  cases h : r.alternatives.get? cls with
  | none =>
    simp only [Registry.alternativesOf, h, Option.getD_none] at hp
    cases hp
  | some ps =>
    simp only [Registry.alternativesOf, h, Option.getD_some] at hp
    exact hr cls ps h p hp

theorem All.register (hr : r.All P) {cls : Iri} {p : Program} (hp : P cls p) :
    (r.register cls p).All P := by
  intro c ps h q hq
  by_cases hc : cls = c
  · subst hc
    rw [Registry.register, Table.get?_insert_self] at h
    cases h
    rcases List.mem_append.1 hq with hq | hq
    · exact hr.alternativesOf cls q hq
    · rw [List.mem_singleton.1 hq]
      exact hp
  · rw [Registry.register, Table.get?_insert_of_ne _ _ hc] at h
    exact hr c ps h q hq

theorem all_builtins (hcbd : P Rdfl.cbd .description) (hpath : P Rdfl.pathLens .path)
    (hcontext : P Rdfl.context .context) (htyped : P Rdfl.typedExtract .typed) :
    builtins.All P :=
  (((all_empty.insert hcbd).insert hpath).insert hcontext).insert htyped

theorem All.program (hr : r.All P) {cls : Iri} {p : Program} (h : r.program? cls = some p) :
    ∃ ps, p = .firstOf ps ∧ ∀ q ∈ ps, P cls q := by
  obtain ⟨ps, hps, rfl⟩ := Option.map_eq_some_iff.1 h
  exact ⟨ps, rfl, hr cls ps hps⟩

/-! ## shapes after what was registered before -/

theorem all_foldl_insert {custom : List (Iri × Program)} (hc : ∀ e ∈ custom, P e.1 e.2)
    (hr : r.All P) : (custom.foldl (fun r e => r.insert e.1 e.2) r).All P := by
  induction custom generalizing r with
  | nil => exact hr
  | cons e custom ih =>
    exact ih (fun e he => hc e (.tail _ he)) (hr.insert (hc e List.mem_cons_self))

theorem all_foldl_register {shapes : List Shape} (hs : ∀ sh ∈ shapes, P sh.target (.shape sh))
    (hr : r.All P) : (shapes.foldl (fun r s => r.register s.target (.shape s)) r).All P := by
  induction shapes generalizing r with
  | nil => exact hr
  | cons sh shapes ih =>
    exact ih (fun sh hsh => hs sh (.tail _ hsh)) (hr.register (hs sh List.mem_cons_self))

/-- The shapes of a class come behind what is registered for it, in their order. -/
theorem get?_foldl_register (shapes : List Shape) (r : Registry) (cls : Iri) :
    (shapes.foldl (fun r s => r.register s.target (.shape s)) r).alternatives.get? cls =
      if shapes.filter (fun s => s.target = cls) = [] then r.alternatives.get? cls
      else some (r.alternativesOf cls ++
        (shapes.filter fun s => s.target = cls).map Program.shape) := by
  induction shapes generalizing r with
  | nil => rfl
  | cons sh shapes ih =>
    rw [List.foldl_cons, ih]
    by_cases hc : sh.target = cls
    · subst hc
      have hget : (r.register sh.target (.shape sh)).alternatives.get? sh.target =
          some (r.alternativesOf sh.target ++ [.shape sh]) := Table.get?_insert_self _ _ _
      have halt : (r.register sh.target (.shape sh)).alternativesOf sh.target =
          r.alternativesOf sh.target ++ [.shape sh] := by
        rw [Registry.alternativesOf, hget, Option.getD_some]
      simp only [decide_true, List.filter_cons_of_pos, reduceCtorEq, if_false]
      split
      · rename_i hnil
        rw [hget, hnil, List.map_singleton]
      · rw [halt, List.append_assoc, List.map_cons, List.singleton_append]
    · have hget : (r.register sh.target (.shape sh)).alternatives.get? cls =
          r.alternatives.get? cls := Table.get?_insert_of_ne _ _ hc
      have halt : (r.register sh.target (.shape sh)).alternativesOf cls =
          r.alternativesOf cls := by
        rw [Registry.alternativesOf, hget, Registry.alternativesOf]
      rw [List.filter_cons_of_neg (by simp [hc]), hget, halt]

end Registry

namespace Schema

theorem all_registry {P : Iri → Program → Prop} {custom : List (Iri × Program)}
    {shapes : List Shape} (hb : Registry.builtins.All P) (hc : ∀ e ∈ custom, P e.1 e.2)
    (hs : ∀ sh ∈ shapes, P sh.target (.shape sh)) : (registry custom shapes).All P :=
  Registry.all_foldl_register hs (Registry.all_foldl_insert hc hb)

theorem compile_cases {options : Options} {g : Graph} {schema : Schema}
    (h : compile options g = some (.ok schema)) :
    ∃ shapes, Shape.readAll g = some (.ok shapes) ∧ schema =
      ⟨shapes, registry options.custom shapes, .ofGraph g, options.transforms,
        options.environment, options.procedures⟩ := by
  simp only [compile] at h
  split at h
  · cases h
  · cases h
  · rename_i shapes hs
    cases h
    exact ⟨shapes, hs, rfl⟩

theorem transforms_eq_of_compile {options : Options} {g : Graph} {schema : Schema}
    (h : compile options g = some (.ok schema)) :
    schema.setting.transforms = options.transforms := by
  obtain ⟨shapes, _, rfl⟩ := compile_cases h
  rfl

theorem compile_of_readAll {g : Graph} {shapes : List Shape}
    (h : Shape.readAll g = some (.ok shapes)) (options : Options) :
    compile options g = some (.ok
      ⟨shapes, registry options.custom shapes, .ofGraph g, options.transforms,
        options.environment, options.procedures⟩) := by
  simp only [compile, h]

/-! ## two nodes that refer to each other -/

/-- An instance of the class refers to one other instance of it. -/
def link : Shape :=
  ⟨"S", ⟨"C"⟩, none, [⟨"next", .predicate ⟨"next"⟩, 1, some 1, .ofClass ⟨"C"⟩⟩]⟩

def linkShapes : Graph :=
  [⟨.iri ⟨"S"⟩, Rdf.type, .iri Sh.nodeShape, none⟩,
    ⟨.iri ⟨"S"⟩, Sh.targetClass, .iri ⟨"C"⟩, none⟩,
    ⟨.iri ⟨"S"⟩, Sh.property, .blank "p", none⟩,
    ⟨.blank "p", Sh.path, .iri ⟨"next"⟩, none⟩,
    ⟨.blank "p", Sh.name, .literal (.simple "next"), none⟩,
    ⟨.blank "p", Sh.classOf, .iri ⟨"C"⟩, none⟩,
    ⟨.blank "p", Sh.minCount, .literal (.simple "1"), none⟩,
    ⟨.blank "p", Sh.maxCount, .literal (.simple "1"), none⟩]

def linkSchema : Schema :=
  ⟨[link], registry [] [link], .ofGraph linkShapes, .empty, fun _ => none, .empty⟩

theorem compile_linkShapes : compile .default linkShapes = some (.ok linkSchema) :=
  compile_of_readAll (by rfl) .default

def linkView : View :=
  ⟨.iri ⟨"a"⟩,
    [⟨.iri ⟨"a"⟩, Rdf.type, .iri ⟨"C"⟩, none⟩, ⟨.iri ⟨"a"⟩, ⟨"next"⟩, .iri ⟨"b"⟩, none⟩,
      ⟨.iri ⟨"b"⟩, ⟨"next"⟩, .iri ⟨"a"⟩, none⟩]⟩

/-- The two slots refer to each other. -/
def linkExtraction : Extraction :=
  ⟨.ref ⟨0⟩,
    ⟨[.ready (.record [("next", .ref ⟨1⟩)]), .ready (.record [("next", .ref ⟨0⟩)])],
      [(.of (.routine (.ofClass ⟨"C"⟩)) (.iri ⟨"b"⟩), ⟨1⟩),
        (.of (.routine (.ofClass ⟨"C"⟩)) (.iri ⟨"a"⟩), ⟨0⟩)]⟩⟩

theorem extract_linkView :
    linkSchema.extract ⟨"C"⟩ linkView = some (.ok linkExtraction) := by rfl

end Schema
end ShaclExtract
