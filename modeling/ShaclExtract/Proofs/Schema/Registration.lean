import ShaclExtract.Proofs.Dialogue.Programs
import ShaclExtract.Proofs.Extractor.Alternation
import ShaclExtract.Proofs.Schema.Compiled

/-!
# ShaclExtract.Proofs.Schema.Registration

What is registered for a class when a shapes graph has been compiled. Programs of one's own replace
what the class had, the built-in programs among them, and shapes come behind it
(`Schema.alternatives`).

An extractor that comes behind another one can be entered as the alternative of both, so that each
class has one extractor, with alternatives nested as deep as there are shapes (`accumulated`). That
is the same as to try all of them in a row: with the same result, the same failure if none succeeds,
and the same state left behind (`Schema.registered_alternatives`).
-/

namespace ShaclExtract

namespace Table

variable {κ α β : Type} [DecidableEq κ]

/-- The value that is written last for a key. -/
def lastWritten (key : κ) (writes : List (κ × α)) : Option α :=
  (writes.filter fun e => e.1 = key).getLast?.map Prod.snd

theorem lastWritten_cons (key : κ) (e : κ × α) (writes : List (κ × α)) :
    lastWritten key (e :: writes) =
      (lastWritten key writes).or (if e.1 = key then some e.2 else none) := by
  by_cases h : e.1 = key
  · simp only [lastWritten, h, decide_true, List.filter_cons_of_pos, List.getLast?_cons, if_true]
    cases (writes.filter fun e => e.1 = key).getLast? <;> rfl
  · simp [lastWritten, h]

theorem lastWritten_map (f : α → β) (key : κ) (writes : List (κ × α)) :
    lastWritten key (writes.map (Prod.map id f)) = (lastWritten key writes).map f := by
  induction writes with
  | nil => rfl
  | cons e writes ih =>
    rw [List.map_cons, lastWritten_cons, lastWritten_cons, ih]
    by_cases h : e.1 = key <;> cases lastWritten key writes <;> simp [h]

theorem get?_foldl_insert (writes : List (κ × α)) (t : Table κ α) (key : κ) :
    (writes.foldl (fun t e => t.insert e.1 e.2) t).get? key =
      (lastWritten key writes).or (t.get? key) := by
  induction writes generalizing t with
  | nil => rfl
  | cons e writes ih =>
    rw [List.foldl_cons, ih, lastWritten_cons, Option.or_assoc]
    by_cases h : e.1 = key
    · rw [← h, get?_insert_self, if_pos rfl, Option.some_or]
    · rw [get?_insert_of_ne _ _ h, if_neg h, Option.none_or]

end Table

/-! ## one extractor for each class -/

section extractors

variable {σ ι ο : Type}

/-- Puts an extractor behind what its class has. -/
def enter (t : Table Iri (Extractor σ ι ο)) (e : Iri × Extractor σ ι ο) :
    Table Iri (Extractor σ ι ο) :=
  match t.get? e.1 with
  | some x => t.insert e.1 (x.orElse e.2)
  | none => t.insert e.1 e.2

/-- Extractors by class: what is there at first, what replaces it, and what comes behind that. -/
def accumulated (first replacing behind : List (Iri × Extractor σ ι ο)) :
    Table Iri (Extractor σ ι ο) :=
  behind.foldl enter (replacing.foldl (fun t e => t.insert e.1 e.2) (.ofList first))

def alternation : List (Extractor σ ι ο) → Option (Extractor σ ι ο)
  | [] => none
  | xs => some (.firstOf xs)

theorem alternation_toList (o : Option (Extractor σ ι ο)) : alternation o.toList = o := by
  cases o with
  | none => rfl
  | some x => exact congrArg some (Extractor.firstOf_singleton x)

theorem get?_enter (t : Table Iri (Extractor σ ι ο)) (e : Iri × Extractor σ ι ο) (cls : Iri)
    (xs : List (Extractor σ ι ο)) :
    alternation (((enter t e).get? cls).toList ++ xs) =
      alternation ((t.get? cls).toList ++ if e.1 = cls then e.2 :: xs else xs) := by
  by_cases h : e.1 = cls
  · subst h
    rw [if_pos rfl, enter]
    cases ht : t.get? e.1 with
    | none => simp only [Table.get?_insert_self, Option.toList_some, Option.toList_none,
        List.singleton_append, List.nil_append]
    | some x =>
      simp only [Table.get?_insert_self, Option.toList_some, List.singleton_append, alternation]
      rw [Extractor.firstOf_orElse]
  · rw [if_neg h, enter]
    cases t.get? e.1 <;> simp only [Table.get?_insert_of_ne _ _ h]

theorem get?_foldl_enter (behind : List (Iri × Extractor σ ι ο))
    (t : Table Iri (Extractor σ ι ο)) (cls : Iri) :
    (behind.foldl enter t).get? cls =
      alternation ((t.get? cls).toList ++
        (behind.filter fun e => e.1 = cls).map Prod.snd) := by
  induction behind generalizing t with
  | nil => rw [List.filter_nil, List.map_nil, List.append_nil, alternation_toList, List.foldl_nil]
  | cons e behind ih =>
    rw [List.foldl_cons, ih, get?_enter]
    by_cases h : e.1 = cls <;> simp [h]

/-- However deep the alternatives of a class are nested, they are tried in a row. -/
theorem get?_accumulated (first replacing behind : List (Iri × Extractor σ ι ο)) (cls : Iri) :
    (accumulated first replacing behind).get? cls =
      alternation (((Table.lastWritten cls replacing).or (Table.lastWritten cls first)).toList ++
        (behind.filter fun e => e.1 = cls).map Prod.snd) := by
  rw [accumulated, get?_foldl_enter, Table.get?_foldl_insert, Table.ofList,
    Table.get?_foldl_insert, Table.get?_empty, Option.or_none]

end extractors

/-! ## programs -/

namespace Registry

def builtinPrograms : List (Iri × Program) :=
  [(Rdfl.cbd, .description), (Rdfl.pathLens, .path), (Rdfl.context, .context),
    (Rdfl.typedExtract, .typed)]

theorem alternatives_foldl_insert (writes : List (Iri × Program)) (r : Registry) :
    (writes.foldl (fun r e => r.insert e.1 e.2) r).alternatives =
      (writes.map (Prod.map id fun p => [p])).foldl (fun t e => t.insert e.1 e.2)
        r.alternatives := by
  induction writes generalizing r with
  | nil => rfl
  | cons e writes ih => exact ih (r.insert e.1 e.2)

theorem get?_foldl_insert (writes : List (Iri × Program)) (r : Registry) (cls : Iri) :
    (writes.foldl (fun r e => r.insert e.1 e.2) r).alternatives.get? cls =
      ((Table.lastWritten cls writes).map fun p => [p]).or (r.alternatives.get? cls) := by
  rw [alternatives_foldl_insert, Table.get?_foldl_insert, Table.lastWritten_map]

theorem builtins_eq : builtins = builtinPrograms.foldl (fun r e => r.insert e.1 e.2) empty := by
  simp only [builtins, builtinPrograms, List.foldl_cons, List.foldl_nil]

end Registry

namespace Setting

theorem runProgram_apply (S : Setting) (p : Program) (view : View) :
    S.runProgram p view = p.extractor S .memoized (S.invoke .memoized (S.depth view.graph)) view :=
  rfl

theorem runProgram_firstOf (S : Setting) (ps : List Program) :
    S.runProgram (.firstOf ps) = .firstOf (ps.map S.runProgram) := by
  funext view
  rw [runProgram_apply, Program.extractor, Program.extractors_eq_map]
  simp only [Extractor.firstOf]
  generalize Failure.noAlternative = last
  induction ps generalizing last with
  | nil => rw [List.map_nil, List.map_nil]
  | cons p ps ih =>
    rw [List.map_cons, List.map_cons, Extractor.firstOfAfter_cons, Extractor.firstOfAfter_cons,
      runProgram_apply]
    simp only [ih]

end Setting

namespace Schema

/-- What is tried for a class: the last program of one's own, or else the built-in one, and then the
shapes of the class in their order. -/
def alternatives (custom : List (Iri × Program)) (shapes : List Shape) (cls : Iri) :
    List Program :=
  ((Table.lastWritten cls custom).or (Table.lastWritten cls Registry.builtinPrograms)).toList ++
    (shapes.filter fun sh => sh.target = cls).map .shape

theorem get?_registry (custom : List (Iri × Program)) (shapes : List Shape) (cls : Iri) :
    (registry custom shapes).alternatives.get? cls =
      if alternatives custom shapes cls = [] then none
      else some (alternatives custom shapes cls) := by
  have hknown : (custom.foldl (fun r e => r.insert e.1 e.2) Registry.builtins).alternatives.get?
      cls = (((Table.lastWritten cls custom).or
        (Table.lastWritten cls Registry.builtinPrograms)).map fun p => [p]) := by
    rw [Registry.get?_foldl_insert, Registry.builtins_eq, Registry.get?_foldl_insert,
      Registry.empty, Table.get?_empty, Option.or_none]
    cases Table.lastWritten cls custom <;> simp
  rw [registry, Registry.get?_foldl_register, Registry.alternativesOf, hknown, alternatives]
  cases (Table.lastWritten cls custom).or (Table.lastWritten cls Registry.builtinPrograms) with
  | none => simp
  | some p => by_cases h : shapes.filter (fun sh => sh.target = cls) = [] <;> simp [h]

variable {options : Options} {g : Graph} {schema : Schema}

/-- What a schema holds for a class tries the alternatives of the class in a row, and is absent if
there are none. It is what is accumulated when each program, run by the schema, is entered as an
extractor; and whatever extractors are entered, they come to be tried in a row. -/
theorem registered_alternatives (hc : compile options g = some (.ok schema)) :
    (∀ cls, schema.registered? cls =
      alternation ((alternatives options.custom schema.shapes cls).map
        schema.setting.runProgram)) ∧
    (∀ cls, schema.registered? cls =
      (accumulated (Registry.builtinPrograms.map (Prod.map id schema.setting.runProgram))
        (options.custom.map (Prod.map id schema.setting.runProgram))
        (schema.shapes.map fun sh =>
          (sh.target, schema.setting.runProgram (.shape sh)))).get? cls) ∧
    (∀ cls, schema.setting.registry.contains cls = false ↔
      alternatives options.custom schema.shapes cls = []) ∧
    ∀ (σ ι ο : Type) (first replacing behind : List (Iri × Extractor σ ι ο)) (cls : Iri),
      (accumulated first replacing behind).get? cls =
        alternation (((Table.lastWritten cls replacing).or (Table.lastWritten cls first)).toList ++
          (behind.filter fun e => e.1 = cls).map Prod.snd) := by
  have hregistry : schema.setting.registry = registry options.custom schema.shapes := by
    obtain ⟨shapes, _, rfl⟩ := compile_cases hc
    rfl
  have hregistered : ∀ cls, schema.registered? cls =
      alternation ((alternatives options.custom schema.shapes cls).map
        schema.setting.runProgram) := by
    intro cls
    rw [registered?, Registry.program?, hregistry, get?_registry]
    cases alternatives options.custom schema.shapes cls with
    | nil => rfl
    | cons p ps => exact congrArg some (Setting.runProgram_firstOf _ _)
  refine ⟨hregistered, fun cls => ?_, fun cls => ?_, fun _ _ _ => get?_accumulated⟩
  · rw [hregistered, get?_accumulated, Table.lastWritten_map, Table.lastWritten_map, alternatives,
      List.map_append, List.map_map, List.filter_map, List.map_map]
    cases Table.lastWritten cls options.custom <;>
      cases Table.lastWritten cls Registry.builtinPrograms <;> rfl
  · rw [Registry.contains, Table.contains, hregistry, get?_registry]
    by_cases h : alternatives options.custom schema.shapes cls = [] <;> simp [h]

/-! ## programs of one's own -/

def replacing : Options :=
  { Options.default with
    custom := [(⟨"C"⟩, .focus), (⟨"C"⟩, .fail .noAlternative), (Rdfl.cbd, .focus)] }

def replacedSchema : Schema :=
  ⟨[link], registry replacing.custom [link], .ofGraph linkShapes, .empty, fun _ => none, .empty⟩

theorem compile_replacing : compile replacing linkShapes = some (.ok replacedSchema) :=
  compile_of_readAll (by rfl) replacing

/-- The later program is tried before the shape, and the built-in one is gone. -/
theorem registered_alternatives_replaced :
    compile replacing linkShapes = some (.ok replacedSchema) ∧
    replacedSchema.registered? ⟨"C"⟩ = alternation
      ([.fail .noAlternative, .shape link].map replacedSchema.setting.runProgram) ∧
    replacedSchema.registered? Rdfl.cbd =
      alternation ([.focus].map replacedSchema.setting.runProgram) ∧
    replacedSchema.registered? Rdfl.context =
      alternation ([.context].map replacedSchema.setting.runProgram) ∧
    replacedSchema.setting.registry.contains ⟨"D"⟩ = false := by
  obtain ⟨hregistered, _, habsent, _⟩ := registered_alternatives compile_replacing
  exact ⟨compile_replacing, hregistered ⟨"C"⟩, hregistered Rdfl.cbd, hregistered Rdfl.context,
    (habsent ⟨"D"⟩).2 rfl⟩

end Schema
end ShaclExtract
