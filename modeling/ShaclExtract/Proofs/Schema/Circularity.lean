import ShaclExtract.Proofs.Schema.Dispatch
import ShaclExtract.Proofs.Schema.Origins

/-!
# ShaclExtract.Proofs.Schema.Circularity

Where the references of a finished extraction lead. A class has a value of its own in its slot,
except for the class of typed extraction, which refers to dispatch at its node; and dispatch, where
only one class applies to the node, refers to that class. So a chain of references has at most three
slots and ends in a value, with one exception: where no other class applies to a node than that of
typed extraction, dispatch and the class refer to each other there, and both slots resolve to
pending (`Schema.chains_end`).
-/

namespace ShaclExtract

namespace Memo

/-- References lead from the value over at most so many slots to a value that is there. -/
def Ends (m : Memo) (bound : Nat) (v : Value) : Prop :=
  ∃ ids u, m.Chain v ids u ∧ ids.length ≤ bound ∧ u ≠ .pending

variable {m : Memo} {v : Value} {bound : Nat}

theorem Ends.of_final (h : v.Final) (bound : Nat) : m.Ends bound v :=
  ⟨[], v, .stop h.not_ref, Nat.zero_le bound, h.not_pending⟩

theorem Ends.ref (h : m.Ends bound v) {slot : SlotId} (hslot : m.slot? slot = some (.ready v)) :
    m.Ends (bound + 1) (.ref slot) := by
  obtain ⟨ids, u, hchain, hlen, hu⟩ := h
  exact ⟨slot :: ids, u, .follow hslot hchain, Nat.succ_le_succ hlen, hu⟩

theorem Ends.mono (h : m.Ends bound v) {bound' : Nat} (hle : bound ≤ bound') : m.Ends bound' v := by
  obtain ⟨ids, u, hchain, hlen, hu⟩ := h
  exact ⟨ids, u, hchain, hlen.trans hle, hu⟩

end Memo

namespace Schema

variable {options : Options} {g : Graph} {schema : Schema} {view : View} {C : Contribution}
  {Z : Calls} {m : Memo} {v : Value}

/-- No class but that of typed extraction applies to the focus, and the routine is this class or
dispatch, which ask for each other then. -/
def Circular (schema : Schema) (view : View) (r : Routine) : Prop :=
  schema.setting.applicable view = [Rdfl.typedExtract] ∧
    (r = .dispatch ∨ r = .ofClass Rdfl.typedExtract)

/-- Typed extraction gives a reference to dispatch at a node that has types, unless dispatch was not
accepted there and a shape is the alternative. -/
theorem typedExtract_cases (ho : options.Plain) (hc : compile options g = some (.ok schema))
    {p : Program} (hp : schema.setting.program? (.ofClass Rdfl.typedExtract) = some p)
    (h : p.Gives schema.setting Z C m view v) :
    v.Final ∧ (view.types ≠ [] → (.dispatch, view.focus) ∉ Z) ∨
      view.types ≠ [] ∧ ∃ slot, v = .ref slot ∧
        m.lookup (.of (.routine .dispatch) view.focus) = some slot := by
  have htyped : Program.typed.Gives schema.setting Z C m view v →
      (v.Final ∧ view.types = []) ∨ view.types ≠ [] ∧ ∃ slot, v = .ref slot ∧
        m.lookup (.of (.routine .dispatch) view.focus) = some slot := by
    rintro (_ | _)
    · exact .inl ⟨⟨by simp, by simp⟩, ‹_›⟩
    · exact .inr ⟨‹_›, _, rfl, ‹_›⟩
  obtain ⟨more, hprogram⟩ := program?_typedExtract ho hc
  cases hprogram.symm.trans hp
  obtain ⟨ps, hps, hregistered⟩ := registered_of_program? ho hc hp
  cases hps
  cases h with
  | first h => exact (htyped h).imp_left fun h => ⟨h.1, fun hne => absurd h.2 hne⟩
  | later hna h =>
    obtain ⟨q, hq, hgives⟩ := h.exists_mem
    obtain hfinal | rfl := (hregistered q (List.mem_cons_of_mem _ hq)).final hgives
    · exact .inl ⟨hfinal, fun _ hmem => hna (.typed hmem)⟩
    · exact (htyped hgives).imp_left fun h => ⟨h.1, fun hne => absurd h.2 hne⟩

theorem dispatch_gives (h : Program.dispatch.Gives schema.setting Z C m view v) :
    v.Final ∨ ∃ cls slot, schema.setting.applicable view = [cls] ∧ v = .ref slot ∧
      m.lookup (classKey cls view.focus) = some slot := by
  cases h with
  | single happlicable hslot => exact .inr ⟨_, _, happlicable, rfl, hslot⟩
  | merged _ _ => exact .inl ⟨by simp, by simp⟩

theorem mem_gfp_of_circular (ho : options.Plain) (hc : compile options g = some (.ok schema))
    (h : schema.setting.applicable view = [Rdfl.typedExtract]) :
    (.dispatch, view.focus) ∈ (schema.setting.acceptance view.graph).gfp := by
  obtain ⟨more, hprogram⟩ := program?_typedExtract ho hc
  let Z : Calls := {(.dispatch, view.focus), (.ofClass Rdfl.typedExtract, view.focus)}
  have hpost : Z ≤ schema.setting.acceptance view.graph Z := by
    rintro c (rfl | rfl)
    · refine Setting.mem_acceptance.2 ⟨_, rfl, .dispatch (by rw [h]; simp) fun cls hcls => ?_⟩
      rw [h, List.mem_singleton] at hcls
      rw [hcls]
      exact .inr rfl
    · exact Setting.mem_acceptance.2 ⟨_, hprogram, .firstOf List.mem_cons_self (.typed (.inl rfl))⟩
  exact OrderHom.le_gfp _ hpost (.inl rfl)

/-! ## chains in a finished memo -/

section chains

variable {node : Term} {slot : SlotId}

theorem ends_class (ho : options.Plain) (hc : compile options g = some (.ok schema))
    (hm : schema.setting.Finished C view m) {cls : Iri} (hcls : cls ≠ Rdfl.typedExtract)
    (hslot : m.lookup (classKey cls node) = some slot) : m.Ends 1 (.ref slot) := by
  obtain ⟨p, _, v, hv, hp, _, _, hgives⟩ := hm.exists_gives hslot
  exact (Memo.Ends.of_final (final_of_class ho hc hcls hp hgives) 0).ref hv

theorem ends_dispatch (ho : options.Plain) (hc : compile options g = some (.ok schema))
    (hm : schema.setting.Finished C view m)
    (happlicable : schema.setting.applicable ⟨node, view.graph⟩ ≠ [Rdfl.typedExtract])
    (h : Program.dispatch.Gives schema.setting Z C m ⟨node, view.graph⟩ v) : m.Ends 1 v := by
  obtain hfinal | ⟨cls, slot, heq, rfl, hslot⟩ := dispatch_gives h
  · exact .of_final hfinal 1
  · refine ends_class ho hc hm ?_ hslot
    rintro rfl
    exact happlicable heq

theorem ends_typedExtract (ho : options.Plain) (hc : compile options g = some (.ok schema))
    (hm : schema.setting.Finished C view m)
    (happlicable : schema.setting.applicable ⟨node, view.graph⟩ ≠ [Rdfl.typedExtract])
    {p : Program} (hp : schema.setting.program? (.ofClass Rdfl.typedExtract) = some p)
    (h : p.Gives schema.setting Z C m ⟨node, view.graph⟩ v) : m.Ends 2 v := by
  obtain ⟨hfinal, _⟩ | ⟨htypes, slot, rfl, hslot⟩ := typedExtract_cases ho hc hp h
  · exact .of_final hfinal 2
  · obtain ⟨_, w, hw, ⟨⟩, hgives⟩ :=
      hm.gives_of_not_literal hslot fun l => Setting.not_literal_of_types htypes l
    exact (ends_dispatch ho hc hm happlicable hgives).ref hw

theorem dispatch_leads (hm : schema.setting.Finished C view m)
    (happlicable : schema.setting.applicable ⟨node, view.graph⟩ = [Rdfl.typedExtract])
    (hslot : m.lookup (.of (.routine .dispatch) node) = some slot) :
    ∃ slot', m.slot? slot = some (.ready (.ref slot')) ∧
      m.lookup (classKey Rdfl.typedExtract node) = some slot' := by
  have hne : schema.setting.applicable ⟨node, view.graph⟩ ≠ [] := by rw [happlicable]; simp
  obtain ⟨_, v, hv, ⟨⟩, hgives⟩ := hm.gives_of_not_literal hslot fun l =>
    Setting.not_literal_of_types (Setting.types_ne_nil hne) l
  cases hgives with
  | single heq hslot' =>
    rw [happlicable] at heq
    cases heq
    exact ⟨_, hv, hslot'⟩
  | merged hlen _ =>
    rw [happlicable] at hlen
    exact absurd hlen (by decide)

theorem typedExtract_leads (ho : options.Plain) (hc : compile options g = some (.ok schema))
    (hm : schema.setting.Finished C view m)
    (happlicable : schema.setting.applicable ⟨node, view.graph⟩ = [Rdfl.typedExtract])
    (hslot : m.lookup (classKey Rdfl.typedExtract node) = some slot) :
    ∃ slot', m.slot? slot = some (.ready (.ref slot')) ∧
      m.lookup (.of (.routine .dispatch) node) = some slot' := by
  have htypes : View.types ⟨node, view.graph⟩ ≠ [] :=
    Setting.types_ne_nil (S := schema.setting) (by rw [happlicable]; simp)
  obtain ⟨p, v, hv, hp, hgives⟩ :=
    hm.gives_of_not_literal hslot fun l => Setting.not_literal_of_types htypes l
  obtain ⟨_, hrejected⟩ | ⟨_, slot', rfl, hslot'⟩ := typedExtract_cases ho hc hp hgives
  · exact absurd (mem_gfp_of_circular ho hc happlicable) (hrejected htypes)
  · exact ⟨slot', hv, hslot'⟩

theorem not_chain_of_circular (ho : options.Plain) (hc : compile options g = some (.ok schema))
    (hm : schema.setting.Finished C view m) {r : Routine}
    (hr : schema.Circular ⟨node, view.graph⟩ r)
    (hslot : m.lookup (.of (.routine r) node) = some slot) (ids : List SlotId) (u : Value) :
    ¬ m.Chain (.ref slot) ids u := by
  obtain ⟨happlicable, rfl | rfl⟩ := hr
  · obtain ⟨slot', hv, hslot'⟩ := dispatch_leads hm happlicable hslot
    obtain ⟨slot'', hv', hslot''⟩ := typedExtract_leads ho hc hm happlicable hslot'
    cases hslot.symm.trans hslot''
    exact Memo.not_chain_of_loop hv hv' ids u
  · obtain ⟨slot', hv, hslot'⟩ := typedExtract_leads ho hc hm happlicable hslot
    obtain ⟨slot'', hv', hslot''⟩ := dispatch_leads hm happlicable hslot'
    cases hslot.symm.trans hslot''
    exact Memo.not_chain_of_loop hv hv' ids u

theorem ends_of_not_circular (ho : options.Plain) (hc : compile options g = some (.ok schema))
    (hm : schema.setting.Finished C view m) {r : Routine} {p : Program}
    (hr : ¬ schema.Circular ⟨node, view.graph⟩ r) (hp : schema.setting.program? r = some p)
    (h : p.Gives schema.setting Z C m ⟨node, view.graph⟩ v) : m.Ends 2 v := by
  cases r with
  | ofClass cls =>
    by_cases hcls : cls = Rdfl.typedExtract
    · subst hcls
      exact ends_typedExtract ho hc hm (fun heq => hr ⟨heq, .inr rfl⟩) hp h
    · exact .of_final (final_of_class ho hc hcls hp h) 2
  | procedure name =>
    rw [program?_procedure ho hc] at hp
    cases hp
  | dispatch =>
    cases hp
    exact (ends_dispatch ho hc hm (fun heq => hr ⟨heq, .inl rfl⟩) h).mono (by decide)

theorem resolve_pending_iff {P : Prop} {v : Value} (h : ¬ P → m.Ends 3 v)
    (h' : P → ∀ ids u, ¬ m.Chain v ids u) : m.resolve v = .pending ↔ P := by
  constructor
  · intro hpending
    by_contra hP
    obtain ⟨ids, u, hchain, _, hu⟩ := h hP
    exact hu (hchain.resolve_eq.symm.trans hpending)
  · exact fun hP => Memo.resolve_of_no_chain (h' hP)

end chains

/-! ## extractions -/

namespace Extracts

variable {x : Extraction} {r : Routine}

theorem raw_eq (ho : options.Plain) (hc : compile options g = some (.ok schema))
    (h : schema.Extracts view x r) :
    ∃ slot, x.raw = .ref slot ∧ x.memo.lookup (.of (.routine r) view.focus) = some slot := by
  obtain ⟨s', hrun, hmemo⟩ := h.invoke ho hc
  rw [← hmemo]
  exact (Setting.yields_routine (honest_of_compile ho.honest hc) _ r view).output _ _ _
    Memo.bounded_empty hrun

theorem finished (ho : options.Plain) (hc : compile options g = some (.ok schema))
    (h : schema.Extracts view x r) {Ready : Routine → View → Memo → Prop}
    (hU : schema.setting.Upkeep view Ready (schema.setting.Origin C view))
    (hr : Ready r view .empty) : schema.setting.Finished C view x.memo := by
  obtain ⟨s', hrun, hmemo⟩ := h.invoke ho hc
  obtain ⟨htidy, hgrows⟩ := hU.invoke (honest_of_compile ho.honest hc) _ (.refl view) hr .empty hrun
  rw [← hmemo]
  refine ⟨htidy, fun id hid => ?_⟩
  cases hgrows.finished id hid

theorem exists_key (ho : options.Plain) (hc : compile options g = some (.ok schema))
    (h : schema.Extracts view x r) {slot : SlotId} {v : Value}
    (hv : x.memo.slot? slot = some (.ready v)) : ∃ key, x.memo.lookup key = some slot := by
  obtain ⟨s', hmemo, hintact⟩ := h.intact ho hc
  rw [← hmemo] at hv ⊢
  obtain ⟨e, he, rfl⟩ :=
    List.mem_map.1 ((hintact.sound.indexed slot).2 ⟨.ready v, hv, by simp⟩)
  exact ⟨e.1, Table.lookup_of_mem hintact.sound.keys he⟩

end Extracts

/-- In a finished extraction, every chain of references has at most three slots and ends in a value,
except where dispatch and typed extraction ask only for each other: from there, references lead
round for ever, and the bound on resolving is what ends it. -/
theorem chains_end (ho : options.Plain) (hc : compile options g = some (.ok schema))
    {x : Extraction} {r : Routine} (hx : schema.Extracts view x r) :
    (∀ slot v, x.memo.slot? slot = some (.ready v) → ∃ r' node,
      Path.Within view.graph view.focus node ∧
      x.memo.lookup (.of (.routine r') node) = some slot ∧
      (¬ schema.Circular (view.refocus node) r' → x.memo.Ends 3 (.ref slot)) ∧
      (schema.Circular (view.refocus node) r' → ∀ ids u, ¬ x.memo.Chain (.ref slot) ids u) ∧
      (x.resolve (.ref slot) = .pending ↔ schema.Circular (view.refocus node) r')) ∧
    (¬ schema.Circular view r → x.memo.Ends 3 x.raw) ∧
    (schema.Circular view r → ∀ ids u, ¬ x.memo.Chain x.raw ids u) ∧
    (x.value = .pending ↔ schema.Circular view r) := by
  have hU : schema.setting.Upkeep view (fun _ _ _ => True)
      (schema.setting.Origin (fun _ _ _ _ => True) view) :=
    upkeep_origin ho hc (fun _ _ _ _ _ _ h => h) (fun h _ _ _ => h) fun _ _ _ _ _ _ _ _ => trivial
  have hm := hx.finished ho hc hU trivial
  obtain ⟨slot, hraw, hslot⟩ := hx.raw_eq ho hc
  have hends : ¬ schema.Circular view r → x.memo.Ends 3 x.raw := by
    intro hr
    obtain ⟨p, node, v, hv, hp, _, hkey, hgives⟩ := hm.exists_gives hslot
    rw [hraw]
    refine (ends_of_not_circular ho hc hm (fun hr' => hr ?_) hp hgives).ref hv
    -- a node that is not a literal is told apart by its key
    have htypes : View.types ⟨node, view.graph⟩ ≠ [] :=
      Setting.types_ne_nil (S := schema.setting) (by rw [hr'.1]; simp)
    obtain rfl : view.focus = node := MemoKey.node_eq hkey fun l l' _ hl' _ =>
      absurd hl' (Setting.not_literal_of_types htypes l')
    exact hr'
  have hround : schema.Circular view r → ∀ ids u, ¬ x.memo.Chain x.raw ids u := by
    rw [hraw]
    exact fun hr => not_chain_of_circular ho hc hm hr hslot
  refine ⟨fun slot v hv => ?_, hends, hround, resolve_pending_iff hends hround⟩
  obtain ⟨key, hkey⟩ := hx.exists_key ho hc hv
  obtain ⟨r', p, node, hp, hnode, rfl, hgives⟩ := hm.tidy.holds key slot v hkey hv
  have hends : ¬ schema.Circular (view.refocus node) r' → x.memo.Ends 3 (.ref slot) :=
    fun hr' => (ends_of_not_circular ho hc hm hr' hp hgives).ref hv
  have hround : schema.Circular (view.refocus node) r' →
      ∀ ids u, ¬ x.memo.Chain (.ref slot) ids u :=
    fun hr' => not_chain_of_circular ho hc hm hr' hkey
  exact ⟨r', node, hnode, hkey, hends, hround, resolve_pending_iff hends hround⟩

/-- The references of an extraction in which one slot refers to another lead to a value. -/
theorem chains_end_returning :
    Options.default.Plain ∧ compile .default returningShapes = some (.ok returningSchema) ∧
    returningSchema.Extracts returningView returningExtraction (.ofClass ⟨"A"⟩) ∧
    returningExtraction.memo.slot? ⟨1⟩ = some (.ready (.ref ⟨2⟩)) ∧
    ¬ returningSchema.Circular returningView (.ofClass ⟨"A"⟩) ∧
    returningExtraction.memo.Ends 3 returningExtraction.raw ∧
    returningExtraction.value ≠ .pending := by
  have hx : returningSchema.Extracts returningView returningExtraction (.ofClass ⟨"A"⟩) :=
    .byClass extract_returningView
  have hr : ¬ returningSchema.Circular returningView (.ofClass ⟨"A"⟩) := by
    rintro ⟨_, hr⟩
    exact absurd hr (by decide)
  obtain ⟨_, hends, _, hpending⟩ := chains_end ⟨rfl, rfl, rfl⟩ compile_returningShapes hx
  exact ⟨⟨rfl, rfl, rfl⟩, compile_returningShapes, hx, rfl, hr, hends hr,
    fun h => hr (hpending.1 h)⟩

/-! ## a node of the class of typed extraction -/

/-- Nothing is registered but the built-in classes. -/
def bareSchema : Schema :=
  ⟨[], registry [] [], .ofGraph [], .empty, fun _ => none, .empty⟩

theorem compile_nil : compile .default [] = some (.ok bareSchema) :=
  compile_of_readAll (by rfl) .default

def selfTypedView : View :=
  ⟨.iri ⟨"n"⟩, [⟨.iri ⟨"n"⟩, Rdf.type, .iri Rdfl.typedExtract, none⟩]⟩

theorem applicable_selfTypedView :
    bareSchema.setting.applicable selfTypedView = [Rdfl.typedExtract] := by decide +kernel

/-- The memo, given the slots of dispatch and of the class. -/
def selfTypedMemo (dispatch entry : Slot) : Memo :=
  ⟨[dispatch, entry], [(classKey Rdfl.typedExtract (.iri ⟨"n"⟩), ⟨1⟩),
    (.of (.routine .dispatch) (.iri ⟨"n"⟩), ⟨0⟩)]⟩

def selfTypedExtraction : Extraction :=
  ⟨.ref ⟨0⟩, selfTypedMemo (.ready (.ref ⟨1⟩)) (.ready (.ref ⟨0⟩))⟩

/-- While dispatch is run. -/
def selfTypedState : RunState :=
  ⟨Memo.empty.reserve (.of (.routine .dispatch) (.iri ⟨"n"⟩)), .empty⟩

theorem invoke_typedExtract_selfTypedView :
    bareSchema.setting.invoke .memoized 15 (.ofClass Rdfl.typedExtract) selfTypedView
      selfTypedState =
        some (.ok (.ref ⟨1⟩), ⟨selfTypedMemo .pending (.ready (.ref ⟨0⟩)), .empty⟩) := by
  -- dispatch has a slot already
  have htyped : (Program.firstOf [.typed]).extractor bareSchema.setting .memoized
      (bareSchema.setting.invoke .memoized 14) selfTypedView
      ⟨selfTypedState.memo.reserve (classKey Rdfl.typedExtract (.iri ⟨"n"⟩)), .empty⟩ =
        some (.ok (.ref ⟨0⟩), ⟨selfTypedMemo .pending .pending, .empty⟩) := rfl
  exact Setting.invoke_of_ok (p := .firstOf [.typed]) (s := selfTypedState) rfl rfl htyped

theorem extractTyped_selfTypedView :
    bareSchema.extractTyped selfTypedView = some (.ok (some selfTypedExtraction)) := by
  have hdispatched : bareSchema.setting.dispatched .memoized
      (bareSchema.setting.invoke .memoized 15) selfTypedView selfTypedState =
        some (.ok (.ref ⟨1⟩), ⟨selfTypedMemo .pending (.ready (.ref ⟨0⟩)), .empty⟩) := by
    rw [Setting.dispatched_of_ne_nil rfl _ _ (by rw [applicable_selfTypedView]; decide),
      applicable_selfTypedView]
    simp only [List.map_cons, List.map_nil, Extractor.all_cons, Action.bindOk, Action.bind,
      invoke_typedExtract_selfTypedView]
    rfl
  have hinvoke : bareSchema.setting.invoke .memoized 16 .dispatch selfTypedView (.start .empty) =
      some (.ok (.ref ⟨0⟩), ⟨selfTypedExtraction.memo, .empty⟩) :=
    Setting.invoke_of_ok (p := .dispatch) (s := .start .empty) rfl rfl hdispatched
  have htypes : selfTypedView.types ≠ [] := by decide
  have hrun : bareSchema.typedExtractor selfTypedView (.start .empty) =
      some (.ok (some (.ref ⟨0⟩)), ⟨selfTypedExtraction.memo, .empty⟩) := by
    have hdepth : bareSchema.setting.depth selfTypedView.graph = 16 := rfl
    simp only [typedExtractor, Setting.run, Setting.typed, htypes, if_false, Extractor.map, hdepth,
      hinvoke]
  exact extractTyped_of_run hrun

/-- A node whose only type is the class of typed extraction is extracted as two slots that refer to
each other, and the value is pending. -/
theorem value_pending_of_selfTyped :
    Options.default.Plain ∧ compile .default [] = some (.ok bareSchema) ∧
    bareSchema.extractTyped selfTypedView = some (.ok (some selfTypedExtraction)) ∧
    selfTypedExtraction.raw = .ref ⟨0⟩ ∧
    selfTypedExtraction.memo.slot? ⟨0⟩ = some (.ready (.ref ⟨1⟩)) ∧
    selfTypedExtraction.memo.slot? ⟨1⟩ = some (.ready (.ref ⟨0⟩)) ∧
    selfTypedExtraction.value = .pending :=
  ⟨⟨rfl, rfl, rfl⟩, compile_nil, extractTyped_selfTypedView, rfl, rfl, rfl, rfl⟩

end Schema
end ShaclExtract
