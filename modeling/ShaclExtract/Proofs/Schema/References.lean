import ShaclExtract.Proofs.Dialogue.Session
import ShaclExtract.Proofs.Schema.Compiled

/-!
# ShaclExtract.Proofs.Schema.References

Values without dangling references. Shapes and built-in classes are honest, so if the custom
programs, procedures and transforms are, everything that holds of sessions of honest dialogues holds
of extractions: when one ends with a value, every reference in it, and every reference met from
there, leads to a value.
-/

namespace ShaclExtract

structure Options.Honest (o : Options) : Prop where
  transforms : ∀ cls t, o.transforms.get? cls = some t → ∀ v w, t v = .ok w → w.refs ⊆ v.refs
  custom : ∀ e ∈ o.custom, e.2.Honest
  procedures : ∀ name p, o.procedures.get? name = some p → p.Honest

theorem Options.honest_default : Options.default.Honest where
  transforms cls t h := by cases h
  custom e h := by cases h
  procedures name p h := by cases h

namespace Schema

variable {options : Options} {g : Graph} {schema : Schema} {view : View}

theorem honest_of_compile (ho : options.Honest) (h : compile options g = some (.ok schema)) :
    schema.setting.Honest := by
  obtain ⟨shapes, _, rfl⟩ := compile_cases h
  have hall : (registry options.custom shapes).All fun _ p => p.Honest :=
    all_registry (Registry.all_builtins trivial trivial trivial trivial) ho.custom
      fun _ _ => trivial
  refine ⟨ho.transforms, fun r p hp => ?_⟩
  cases r with
  | ofClass cls =>
    obtain ⟨ps, rfl, hps⟩ := hall.program hp
    exact Program.allHonest_iff.2 hps
  | procedure name => exact ho.procedures name p hp
  | dispatch =>
    cases hp
    trivial

theorem extract_eq_map (schema : Schema) (cls : Iri) (view : View) : schema.extract cls view =
    (schema.classExtractor cls view (.start .empty)).map fun p =>
      p.1.map fun v => ⟨v, p.2.memo⟩ := by
  unfold extract extractCounting
  rcases schema.classExtractor cls view (.start .empty) with _ | ⟨_ | _, _⟩ <;> rfl

theorem extractTyped_eq_map (schema : Schema) (view : View) : schema.extractTyped view =
    (schema.typedExtractor view (.start .empty)).map fun p =>
      p.1.map fun o => o.map fun v => ⟨v, p.2.memo⟩ := by
  unfold extractTyped extractTypedCounting
  rcases schema.typedExtractor view (.start .empty) with _ | ⟨_ | _ | _, _⟩ <;> rfl

theorem extract_of_run {cls : Iri} {r : Except Failure Value} {s : RunState}
    (h : schema.classExtractor cls view (.start .empty) = some (r, s)) :
    schema.extract cls view = some (r.map fun v => ⟨v, s.memo⟩) := by
  rw [extract_eq_map, h, Option.map_some]

theorem extractTyped_of_run {r : Except Failure (Option Value)} {s : RunState}
    (h : schema.typedExtractor view (.start .empty) = some (r, s)) :
    schema.extractTyped view = some (r.map fun o => o.map fun v => ⟨v, s.memo⟩) := by
  rw [extractTyped_eq_map, h, Option.map_some]

theorem extract_cases {cls : Iri} {x : Extraction} (h : schema.extract cls view = some (.ok x)) :
    ∃ s, schema.classExtractor cls view (.start .empty) = some (.ok x.raw, s) ∧
      s.memo = x.memo := by
  rw [extract_eq_map, Option.map_eq_some_iff] at h
  obtain ⟨⟨_ | v, s⟩, hrun, hx⟩ := h <;> cases hx
  exact ⟨s, hrun, rfl⟩

theorem extract_error_cases {cls : Iri} {e : Failure}
    (h : schema.extract cls view = some (.error e)) :
    ∃ s, schema.classExtractor cls view (.start .empty) = some (.error e, s) := by
  rw [extract_eq_map, Option.map_eq_some_iff] at h
  obtain ⟨⟨_ | v, s⟩, hrun, he⟩ := h <;> cases he
  exact ⟨s, hrun⟩

theorem extractTyped_cases {x : Extraction}
    (h : schema.extractTyped view = some (.ok (some x))) :
    ∃ s, schema.typedExtractor view (.start .empty) = some (.ok (some x.raw), s) ∧
      s.memo = x.memo := by
  rw [extractTyped_eq_map, Option.map_eq_some_iff] at h
  obtain ⟨⟨_ | _ | v, s⟩, hrun, hx⟩ := h <;> cases hx
  exact ⟨s, hrun, rfl⟩

theorem exists_extract {cls : Iri} {r : Except Failure Value} {s : RunState}
    (h : schema.classExtractor cls view (.start .empty) = some (r, s)) :
    ∃ r, schema.extract cls view = some r := ⟨_, extract_of_run h⟩

theorem exists_extractTyped {r : Except Failure (Option Value)} {s : RunState}
    (h : schema.typedExtractor view (.start .empty) = some (r, s)) :
    ∃ r, schema.extractTyped view = some r := ⟨_, extractTyped_of_run h⟩

theorem ready_of_extract (hS : schema.setting.Honest) {cls : Iri} {x : Extraction}
    (h : schema.extract cls view = some (.ok x)) {slot : SlotId}
    (hslot : x.memo.Leads x.raw slot) : ∃ v, x.memo.slot? slot = some (.ready v) := by
  obtain ⟨s, hrun, hmemo⟩ := extract_cases h
  rw [← hmemo] at hslot ⊢
  have hx : schema.setting.Represented True (fun _ _ => True) [] Value.refs
      fun i => schema.setting.instanceOf .memoized i cls view :=
    Setting.Represented.instanceOf hS trivial
  exact Setting.ready_of_run hS hx hrun hslot

theorem ready_of_extractTyped (hS : schema.setting.Honest) {x : Extraction}
    (h : schema.extractTyped view = some (.ok (some x))) {slot : SlotId}
    (hslot : x.memo.Leads x.raw slot) : ∃ v, x.memo.slot? slot = some (.ready v) := by
  obtain ⟨s, hrun, hmemo⟩ := extractTyped_cases h
  rw [← hmemo] at hslot ⊢
  have hvalue : (Program.extractor schema.setting .memoized
      (schema.setting.invoke .memoized (schema.setting.depth view.graph)) .typed) view
      (.start .empty) = some (.ok x.raw, s) := by
    simp only [typedExtractor, Setting.run] at hrun
    simp only [Program.extractor, Extractor.map, hrun]
    rfl
  exact Setting.ready_of_run hS (Program.represented hS .typed view trivial) hvalue hslot

/-- Memos stay free of dangling references: at every moment of every session of honest dialogues,
which all runs of shared extractors pass through; extractors put together from compiled shapes and
built-in classes are honest dialogues; so references in what was extracted lead to values. -/
theorem referential_integrity :
    (∀ {Λ : Type} {R : Repertoire Λ}, R.Honest →
      ∀ {session : Dialogue Λ Value}, session.Honest Value.refs [] →
      ∀ {counters : Counters} {m : Moment Λ}, R.Steps (.start session counters) m →
        m.state.memo.Sound ∧ (m.stack = [] → ∀ id, m.state.memo.slot? id ≠ some .pending)) ∧
    (∀ {Λ : Type} (R : Repertoire Λ) (depth : Nat) (name : Λ) (view : View),
      R.Simulates name view (R.invoke depth name)) ∧
    (∀ {options : Options} {g : Graph} {schema : Schema}, options.Honest →
      compile options g = some (.ok schema) →
        schema.setting.repertoire.Honest ∧
        (∀ depth name view, schema.setting.repertoire.Simulates name view
          (schema.setting.asked (schema.setting.invoke .memoized depth) name)) ∧
        (∀ p : Program, p.Honest → ∀ view, ∃ d : Dialogue Shareable Value,
          d.Honest Value.refs [] ∧ ∀ invoke, d.run (schema.setting.asked invoke) =
            p.extractor schema.setting .memoized invoke view) ∧
        (∀ cls view x, schema.extract cls view = some (.ok x) →
          ∀ slot, x.memo.Leads x.raw slot → ∃ v, x.memo.slot? slot = some (.ready v)) ∧
        ∀ view x, schema.extractTyped view = some (.ok (some x)) →
          ∀ slot, x.memo.Leads x.raw slot → ∃ v, x.memo.slot? slot = some (.ready v)) := by
  refine ⟨?_, Repertoire.simulates_invoke, ?_⟩
  · intro Λ R hR session hs counters m hm
    have hintact := Moment.Intact.of_steps hR hs hm
    refine ⟨hintact.sound, fun hstack id hid => ?_⟩
    obtain ⟨f, hf, _⟩ := (hintact.pending id).1 hid
    rw [hstack] at hf
    cases hf
  · intro options g schema ho hc
    have hS := honest_of_compile ho hc
    refine ⟨Setting.repertoire_honest hS, Setting.simulates_asked hS, ?_, ?_, ?_⟩
    · intro p hp view
      obtain ⟨d, hd⟩ := Program.represented hS p view hp
      exact ⟨d, hd.honest, hd.run⟩
    · exact fun cls view x h slot => ready_of_extract hS h
    · exact fun view x h slot => ready_of_extractTyped hS h

/-- Two slots that refer to each other are both met from the value, and both have one. -/
theorem referential_integrity_link :
    linkSchema.extract ⟨"C"⟩ linkView = some (.ok linkExtraction) ∧
      linkExtraction.memo.Leads linkExtraction.raw ⟨1⟩ ∧
      ∃ v, linkExtraction.memo.slot? ⟨1⟩ = some (.ready v) := by
  have hleads : linkExtraction.memo.Leads linkExtraction.raw ⟨1⟩ :=
    .through (t := ⟨0⟩) List.mem_cons_self rfl (.here List.mem_cons_self)
  have h := (referential_integrity.2.2 Options.honest_default compile_linkShapes).2.2.2.1
  exact ⟨extract_linkView, hleads, h _ _ _ extract_linkView _ hleads⟩

end Schema
end ShaclExtract
