import ShaclExtract.Proofs.Path.SelfReference
import ShaclExtract.Proofs.Schema.Determinacy
import ShaclExtract.Proofs.Schema.Dispatch

/-!
# ShaclExtract.Proofs.Schema.History

The result of a class at a node does not depend on what was run before. If no property is of the
class of typed extraction, then dispatch is asked for only by that class, at a node where no other
class is being extracted (`Prepared`). So whatever dispatch merges is finished, every memo that runs
of classes lead to is as `Schema.cutOff_eq` needs it, and a class at a node fails on all of them or
on none, with values that unfold to the same (`Schema.history_irrelevant`).

A property of the class of typed extraction may lead back to the node whose class is being
extracted. Dispatch then merges without that class, and what typed extraction gives at the node
differs (`Schema.typedExtract_depends_on_history`).
-/

namespace ShaclExtract

/-- Where dispatch is about to run, or the class that asks for it, no other class is unfinished; and
that class is, when dispatch is run. -/
structure Prepared (r : Routine) (view : View) (m : Memo) : Prop where
  others : r = .dispatch ∨ r = .ofClass Rdfl.typedExtract → ∀ cls ≠ Rdfl.typedExtract,
    ¬ m.Unfinished (classKey cls view.focus)
  entered : r = .dispatch → m.Unfinished (classKey Rdfl.typedExtract view.focus)

theorem prepared_of_done {m : Memo} (h : ∀ id, m.slot? id ≠ some .pending) (cls : Iri)
    (view : View) : Prepared (.ofClass cls) view m where
  others := by
    rintro _ cls' _ ⟨slot, _, hp⟩
    exact h slot hp
  entered := by rintro ⟨⟩

namespace Schema

variable {options : Options} {g : Graph} {schema : Schema} {view₀ view : View}

theorem Requests.prepared
    (hfields : ∀ sh ∈ schema.shapes, ∀ f ∈ sh.properties, f.type ≠ .ofClass Rdfl.typedExtract)
    {r r' : Routine} {view view' : View} {m m' : Memo} (h : schema.Requests (r, view) (r', view'))
    (hr : Prepared r view m) (hm : m.Bounded)
    (hgrows : (m.reserve (.of (.routine r) view.focus)).Grows m') : Prepared r' view' m' := by
  have hothers : ∀ cls ≠ Rdfl.typedExtract, r = .dispatch ∨ r = .ofClass Rdfl.typedExtract →
      ¬ m'.Unfinished (classKey cls view.focus) := by
    intro cls hcls hr' hunfinished
    obtain hkey | hold := (hgrows.unfinished hunfinished).of_reserve hm
    · obtain rfl | rfl := hr'
      · cases MemoKey.routine_eq hkey
      · exact hcls (Routine.ofClass.inj (MemoKey.routine_eq hkey))
    · exact hr.others hr' cls hcls hold
  cases h with
  | typed =>
    refine ⟨fun _ cls hcls => hothers cls hcls (.inr rfl), fun _ => ?_⟩
    exact hgrows.extension.unfinished (Memo.unfinished_reserve m _)
  | dispatch _ => exact ⟨fun _ cls hcls => hothers cls hcls (.inl rfl), by rintro ⟨⟩⟩
  | property hsh hf hcls _ =>
    refine ⟨?_, by rintro ⟨⟩⟩
    rintro (heq | heq)
    · cases heq
    · rw [Routine.ofClass.inj heq] at hcls
      exact absurd hcls (hfields _ hsh _ hf)

/-- When dispatch merges, the slot of every class is ready but for that of typed extraction. -/
theorem merging_of_prepared (ho : options.Plain) (hc : compile options g = some (.ok schema))
    {m m' : Memo} (hr : Prepared .dispatch view m) (hm : m.Bounded)
    (hk : m.lookup (.of (.routine .dispatch) view.focus) = none)
    (hgrows : (m.reserve (.of (.routine .dispatch) view.focus)).Grows m')
    (htidy : schema.setting.Tidy view₀ (schema.setting.Origin Merging view₀) m') {cls : Iri}
    {slot : SlotId} (hslot : m'.lookup (classKey cls view.focus) = some slot) :
    Merging m' view cls (m'.resolve (.ref slot)) := by
  constructor
  · rintro rfl
    have hext := (Memo.extends_reserve hk).trans hgrows.extension
    obtain ⟨slot', hslot', hp⟩ := hext.unfinished (hr.entered rfl)
    cases hslot.symm.trans hslot'
    exact Memo.resolve_ref_of_pending hp
  · intro hcls
    obtain hp | ⟨w, hw⟩ := (htidy.regular.live _ slot hslot).pending_or_ready
    · exfalso
      obtain hkey | hold := (hgrows.unfinished ⟨slot, hslot, hp⟩).of_reserve hm
      · cases MemoKey.routine_eq hkey
      · exact hr.others (.inl rfl) cls hcls hold
    · obtain ⟨r, p, node, hp, _, hkey, hgives⟩ := htidy.holds _ slot w hslot hw
      obtain rfl := MemoKey.routine_eq hkey
      have hfinal := final_of_class ho hc hcls hp hgives
      rw [Memo.resolve_ref hw hfinal.not_ref]
      exact ⟨slot, hslot, hw⟩

theorem upkeep_merging (ho : options.Plain) (hc : compile options g = some (.ok schema))
    (hfields : ∀ sh ∈ schema.shapes, ∀ f ∈ sh.properties, f.type ≠ .ofClass Rdfl.typedExtract)
    (view₀ : View) : schema.setting.Upkeep view₀ Prepared (schema.setting.Origin Merging view₀) :=
  upkeep_origin ho hc lasting_merging
    (fun hr hm h hgrows => h.prepared hfields hr hm hgrows)
    fun hr hm hk hgrows htidy _ _ hslot => merging_of_prepared ho hc hr hm hk hgrows htidy hslot

/-! ## runs of classes, one after the other -/

/-- Runs of classes at nodes of the graph, each of which has ended, lead to the state. -/
inductive Visited (schema : Schema) (g : Graph) : RunState → Prop where
  | start (counters : Counters) : Visited schema g (.start counters)
  | run {s s' : RunState} {cls : Iri} {node : Term} {result : Except Failure Value} :
      Visited schema g s → node ∈ g.terms →
      schema.classExtractor cls ⟨node, g⟩ s = some (result, s') → Visited schema g s'

theorem classExtractor_eq (ho : options.Plain) (hc : compile options g = some (.ok schema))
    (cls : Iri) (view : View) : schema.classExtractor cls view =
      schema.setting.invoke .memoized (schema.setting.depth view.graph) (.ofClass cls) view := by
  funext s
  rw [classExtractor, Setting.run, Setting.instanceOf_of_empty (transforms_of_compile ho hc)]

theorem safe_classExtractor (ho : options.Plain) (hc : compile options g = some (.ok schema))
    {cls : Iri} (h : (.ofClass cls, view.focus) ∈ (schema.setting.acceptance view.graph).gfp) :
    Safe (schema.classExtractor cls view) := by
  rw [classExtractor_eq ho hc]
  exact Setting.safe_of_mem_gfp (transforms_of_compile ho hc) _ _ _ h

/-- A class ends at a node if every path is described without referring to itself that it may have
to read. -/
theorem classExtractor_ends (ho : options.Plain) (hc : compile options g = some (.ok schema))
    {cls : Iri}
    (hread : ∀ view', Relation.ReflTransGen schema.Requests (.ofClass cls, view)
      (.ofClass Rdfl.pathLens, view') → ¬ Path.SelfReferring view'.graph view'.focus)
    {s : RunState} (hs : s.memo.Bounded) :
    ∃ r s', schema.classExtractor cls view s = some (r, s') := by
  have hC := contained_requests ho hc fun view' h =>
    Path.read_ends_of_not_selfReferring (hread view' h)
  rw [classExtractor_eq ho hc]
  refine hC.invoke_ends (honest_of_compile ho.honest hc) _ _ view .refl s hs ?_
  exact (Finset.card_filter_le _ _).trans_lt (schema.setting.card_keys_lt view)

theorem finished_start (counters : Counters) :
    schema.setting.Finished Merging view₀ (RunState.start counters).memo where
  tidy := .empty
  done id := by rintro ⟨⟩

section runs

variable (ho : options.Plain) (hc : compile options g = some (.ok schema))
  (hfields : ∀ sh ∈ schema.shapes, ∀ f ∈ sh.properties, f.type ≠ .ofClass Rdfl.typedExtract)
include ho hc hfields

theorem finished_of_run {s s' : RunState} {cls : Iri} {result : Except Failure Value}
    (hs : schema.setting.Finished Merging view₀ s.memo) (hv : view₀.Near view)
    (h : schema.classExtractor cls view s = some (result, s')) :
    schema.setting.Finished Merging view₀ s'.memo := by
  rw [classExtractor_eq ho hc] at h
  obtain ⟨htidy, hgrows⟩ := (upkeep_merging ho hc hfields view₀).invoke
    (honest_of_compile ho.honest hc) _ hv (prepared_of_done hs.done cls view) hs.tidy h
  exact ⟨htidy, fun id hid => hs.done id (hgrows.finished id hid)⟩

theorem Visited.finished {s : RunState} (hs : schema.Visited view₀.graph s) :
    schema.setting.Finished Merging view₀ s.memo := by
  induction hs with
  | start counters => exact finished_start counters
  | @run _ _ _ node _ _ hnode hrun ih =>
    have hv : view₀.Near ⟨node, view₀.graph⟩ := ⟨rfl, .inr hnode⟩
    exact finished_of_run ho hc hfields ih hv hrun

theorem ok_of_run {s s' : RunState} {cls : Iri} {v : Value} (hlit : view.LexicallyDistinct)
    (hs : schema.setting.Finished Merging view s.memo)
    (h : schema.classExtractor cls view s = some (.ok v, s')) :
    (.ofClass cls, view.focus) ∈ (schema.setting.acceptance view.graph).gfp ∧
      ∃ slot, v = .ref slot ∧ s'.memo.lookup (classKey cls view.focus) = some slot := by
  have hm := finished_of_run ho hc hfields hs (.refl view) h
  rw [classExtractor_eq ho hc] at h
  obtain ⟨slot, rfl, hslot⟩ := (Setting.yields_invoke (honest_of_compile ho.honest hc) _ cls
    view).output _ _ _ hs.tidy.bounded h
  exact ⟨hm.calls_subset_gfp hlit ⟨.inl rfl, slot, hslot⟩, slot, rfl, hslot⟩

end runs

/-- What was run before decides neither whether a class fails at a node nor what it unfolds to. It
ends, too, if every path is described without referring to itself that it may have to read. -/
theorem history_irrelevant (ho : options.Plain) (hc : compile options g = some (.ok schema))
    (hfields : ∀ sh ∈ schema.shapes, ∀ f ∈ sh.properties, f.type ≠ .ofClass Rdfl.typedExtract)
    (hlit : view.LexicallyDistinct) {s : RunState} (hs : schema.Visited view.graph s) (cls : Iri)
    (counters : Counters) :
    ((∀ view', Relation.ReflTransGen schema.Requests (.ofClass cls, view)
        (.ofClass Rdfl.pathLens, view') → ¬ Path.SelfReferring view'.graph view'.focus) →
      (∃ r s', schema.classExtractor cls view s = some (r, s')) ∧
        ∃ r s', schema.classExtractor cls view (.start counters) = some (r, s')) ∧
    ∀ {r r₀ : Except Failure Value} {s' s₀ : RunState},
      schema.classExtractor cls view s = some (r, s') →
      schema.classExtractor cls view (.start counters) = some (r₀, s₀) →
        (∃ e e₀, r = .error e ∧ r₀ = .error e₀) ∨
        ∃ v v₀, r = .ok v ∧ r₀ = .ok v₀ ∧
          ∀ depth, ∃ w, s'.memo.cutOff depth v = some w ∧ s₀.memo.cutOff depth v₀ = some w := by
  have hm := hs.finished ho hc hfields
  have hm₀ : schema.setting.Finished Merging view (RunState.start counters).memo :=
    finished_start counters
  refine ⟨fun hread => ⟨classExtractor_ends ho hc hread hm.tidy.bounded,
    classExtractor_ends ho hc hread hm₀.tidy.bounded⟩, fun {r r₀ s' s₀} hrun hrun₀ => ?_⟩
  cases r with
  | error e =>
    cases r₀ with
    | error e₀ => exact .inl ⟨e, e₀, rfl, rfl⟩
    | ok v₀ =>
      obtain ⟨haccepted, _⟩ := ok_of_run ho hc hfields hlit hm₀ hrun₀
      exact absurd hrun (safe_classExtractor ho hc haccepted s e s')
  | ok v =>
    obtain ⟨haccepted, slot, rfl, hslot⟩ := ok_of_run ho hc hfields hlit hm hrun
    cases r₀ with
    | error e₀ => exact absurd hrun₀ (safe_classExtractor ho hc haccepted _ e₀ s₀)
    | ok v₀ =>
      obtain ⟨_, slot₀, rfl, hslot₀⟩ := ok_of_run ho hc hfields hlit hm₀ hrun₀
      refine .inr ⟨_, _, rfl, rfl, fun depth => ?_⟩
      exact cutOff_eq (finished_of_run ho hc hfields hm (.refl view) hrun)
        (finished_of_run ho hc hfields hm₀ (.refl view) hrun₀) hlit ho hc ⟨_, hslot, hslot₀⟩ depth

/-- After the run at the other node of the cycle. -/
def otherEndState : RunState :=
  ⟨⟨[.ready (.record [("next", .ref ⟨1⟩)]), .ready (.record [("next", .ref ⟨0⟩)])],
    [(classKey ⟨"C"⟩ (.iri ⟨"a"⟩), ⟨1⟩), (classKey ⟨"C"⟩ (.iri ⟨"b"⟩), ⟨0⟩)]⟩, .empty⟩

theorem visited_otherEnd : linkSchema.Visited linkView.graph otherEndState := by
  have hrun : linkSchema.classExtractor ⟨"C"⟩ ⟨.iri ⟨"b"⟩, linkView.graph⟩ (.start .empty) =
      some (.ok (.ref ⟨0⟩), otherEndState) := by rfl
  exact .run (.start .empty) (by decide) hrun

theorem requests_link {x y : Routine × View} (h : linkSchema.Requests x y)
    (hx : x.1 = .ofClass ⟨"C"⟩) : y.1 = .ofClass ⟨"C"⟩ := by
  cases h with
  | typed => exact absurd (Routine.ofClass.inj hx) (by decide)
  | dispatch _ => cases hx
  | property hsh hf hcls _ =>
    cases ValueType.ofClass.inj (hcls.symm.trans (link_properties _ hsh _ hf))
    rfl

theorem requests_link_star {y : Routine × View}
    (h : Relation.ReflTransGen linkSchema.Requests (.ofClass ⟨"C"⟩, linkView) y) :
    y.1 = .ofClass ⟨"C"⟩ := by
  induction h with
  | refl => rfl
  | tail _ hstep ih => exact requests_link hstep ih

/-- Of the two nodes that refer to each other, either may be the first. -/
theorem history_irrelevant_link :
    Options.default.Plain ∧ compile .default linkShapes = some (.ok linkSchema) ∧
    (∀ sh ∈ linkSchema.shapes, ∀ f ∈ sh.properties, f.type ≠ .ofClass Rdfl.typedExtract) ∧
    linkView.LexicallyDistinct ∧ linkSchema.Visited linkView.graph otherEndState ∧
    (∃ r s, linkSchema.classExtractor ⟨"C"⟩ linkView otherEndState = some (r, s)) ∧
    linkSchema.classExtractor ⟨"C"⟩ linkView otherEndState =
      some (.ok (.ref ⟨1⟩), otherEndState) ∧
    linkSchema.classExtractor ⟨"C"⟩ linkView (.start .empty) =
      some (.ok (.ref ⟨0⟩), ⟨linkExtraction.memo, .empty⟩) ∧
    ∀ depth, ∃ w, otherEndState.memo.cutOff depth (.ref ⟨1⟩) = some w ∧
      linkExtraction.memo.cutOff depth (.ref ⟨0⟩) = some w := by
  have hfields : ∀ sh ∈ linkSchema.shapes, ∀ f ∈ sh.properties,
      f.type ≠ .ofClass Rdfl.typedExtract := by
    intro sh hsh f hf
    rw [link_properties sh hsh f hf]
    decide
  have hread : ∀ view', Relation.ReflTransGen linkSchema.Requests (.ofClass ⟨"C"⟩, linkView)
      (.ofClass Rdfl.pathLens, view') → ¬ Path.SelfReferring view'.graph view'.focus :=
    fun _ hreach => absurd (Routine.ofClass.inj (requests_link_star hreach)) (by decide)
  have hrun : linkSchema.classExtractor ⟨"C"⟩ linkView otherEndState =
      some (.ok (.ref ⟨1⟩), otherEndState) := by rfl
  have hrun₀ : linkSchema.classExtractor ⟨"C"⟩ linkView (.start .empty) =
      some (.ok (.ref ⟨0⟩), ⟨linkExtraction.memo, .empty⟩) := by rfl
  obtain ⟨hends, hsame⟩ := history_irrelevant ⟨rfl, rfl, rfl⟩ compile_linkShapes hfields
    lexicallyDistinct_linkView visited_otherEnd ⟨"C"⟩ .empty
  refine ⟨⟨rfl, rfl, rfl⟩, compile_linkShapes, hfields, lexicallyDistinct_linkView,
    visited_otherEnd, (hends hread).1, hrun, hrun₀, ?_⟩
  obtain ⟨e, _, herror, _⟩ | ⟨v, v₀, hv, hv₀, hunfold⟩ := hsame hrun hrun₀
  · cases herror
  · cases hv
    cases hv₀
    exact hunfold

/-! ## a property of the class of typed extraction -/

def entryShapes : Graph :=
  returningShapes ++ [⟨.iri ⟨"U"⟩, Rdf.type, .iri Sh.nodeShape, none⟩,
    ⟨.iri ⟨"U"⟩, Sh.targetClass, .iri Rdfl.typedExtract, none⟩]

def entryShape : Shape := ⟨"U", Rdfl.typedExtract, none, []⟩

def entrySchema : Schema :=
  ⟨[returningShape, taggedShape, entryShape], registry [] [returningShape, taggedShape, entryShape],
    .ofGraph entryShapes, .empty, fun _ => none, .empty⟩

theorem compile_entryShapes : compile .default entryShapes = some (.ok entrySchema) :=
  compile_of_readAll (by rfl) .default

theorem returning_entrySchema : Returning entrySchema.setting [.shape entryShape] :=
  ⟨rfl, rfl, rfl, rfl, by decide +kernel⟩

/-- The memo of typed extraction at the node, when nothing has been run before. -/
def entryMemo : Memo :=
  ⟨[.ready (.ref ⟨1⟩), .ready (.record [("self", .ref ⟨0⟩), ("tag", .text "t")]),
      .ready (.record [("self", .ref ⟨0⟩)]), .ready (.record [("tag", .text "t")])],
    [(classKey ⟨"B"⟩ (.iri ⟨"n"⟩), ⟨3⟩), (classKey ⟨"A"⟩ (.iri ⟨"n"⟩), ⟨2⟩),
      (.of (.routine .dispatch) (.iri ⟨"n"⟩), ⟨1⟩),
      (classKey Rdfl.typedExtract (.iri ⟨"n"⟩), ⟨0⟩)]⟩

theorem Returning.invoke_entry {S : Setting} {more : List Program} (h : Returning S more)
    (depth : Nat) : S.invoke .memoized (depth + 4) (.ofClass Rdfl.typedExtract) returningView
      (.start .empty) = some (.ok (.ref ⟨0⟩), ⟨entryMemo, .empty⟩) := by
  let s₀ : RunState := ⟨Memo.empty.reserve (classKey Rdfl.typedExtract (.iri ⟨"n"⟩)), .empty⟩
  let s₁ : RunState := ⟨s₀.memo.reserve (.of (.routine .dispatch) (.iri ⟨"n"⟩)), .empty⟩
  let s₂ : RunState := ⟨s₁.memo.reserve (classKey ⟨"A"⟩ (.iri ⟨"n"⟩)), .empty⟩
  let s₃ : RunState := ⟨s₂.memo.settle ⟨2⟩ (.record [("self", .ref ⟨0⟩)]), .empty⟩
  have hself : S.invoke .memoized (depth + 1) (.ofClass Rdfl.typedExtract) returningView s₂ =
      some (.ok (.ref ⟨0⟩), s₂) := Setting.invoke_of_lookup h.entry rfl
  have hfirst : S.invoke .memoized (depth + 2) (.ofClass ⟨"A"⟩) returningView s₁ =
      some (.ok (.ref ⟨2⟩), s₃) :=
    Setting.invoke_of_ok (s := s₁) h.first rfl (h.first_extractor hself)
  have hsecond : S.invoke .memoized (depth + 2) (.ofClass ⟨"B"⟩) returningView s₃ =
      some (.ok (.ref ⟨3⟩), _) :=
    Setting.invoke_of_ok (s := s₃) h.second rfl (second_extractor S _ _)
  have hdispatch := Setting.invoke_of_ok (s := s₀) rfl rfl (h.dispatch_extractor hfirst hsecond)
  exact Setting.invoke_of_ok (s := .start .empty) h.entry rfl (entry_extractor hdispatch)

theorem lexicallyDistinct_returningView : returningView.LexicallyDistinct := by decide

/-- Typed extraction at a node is another one after the class that leads back to that node. -/
theorem typedExtract_depends_on_history :
    Options.default.Plain ∧ compile .default entryShapes = some (.ok entrySchema) ∧
    (∀ sh ∈ entrySchema.shapes, ∀ f ∈ sh.properties, ∀ cls, f.type = .ofClass cls →
      ∃ sh' ∈ entrySchema.shapes, sh'.target = cls) ∧
    returningView.LexicallyDistinct ∧ returningView.focus ∈ returningView.graph.terms ∧
    entrySchema.Visited returningView.graph ⟨returningExtraction.memo, .empty⟩ ∧
    entrySchema.classExtractor Rdfl.typedExtract returningView
      ⟨returningExtraction.memo, .empty⟩ =
        some (.ok (.ref ⟨1⟩), ⟨returningExtraction.memo, .empty⟩) ∧
    entrySchema.classExtractor Rdfl.typedExtract returningView (.start .empty) =
      some (.ok (.ref ⟨0⟩), ⟨entryMemo, .empty⟩) ∧
    returningExtraction.memo.cutOff 2 (.ref ⟨1⟩) = some (.record [("tag", .text "t")]) ∧
    entryMemo.cutOff 2 (.ref ⟨0⟩) = some (.record [("self", .pending), ("tag", .text "t")]) := by
  have hplain : Options.default.Plain := ⟨rfl, rfl, rfl⟩
  have hterm : returningView.focus ∈ returningView.graph.terms := by decide
  have hfirst : entrySchema.classExtractor ⟨"A"⟩ returningView (.start .empty) =
      some (.ok (.ref ⟨0⟩), ⟨returningExtraction.memo, .empty⟩) := by
    rw [classExtractor_eq hplain compile_entryShapes]
    exact returning_entrySchema.invoke_first 46
  have hsecond : entrySchema.classExtractor Rdfl.typedExtract returningView
      ⟨returningExtraction.memo, .empty⟩ =
        some (.ok (.ref ⟨1⟩), ⟨returningExtraction.memo, .empty⟩) := by
    rw [classExtractor_eq hplain compile_entryShapes]
    exact Setting.invoke_of_lookup returning_entrySchema.entry rfl
  have hfresh : entrySchema.classExtractor Rdfl.typedExtract returningView (.start .empty) =
      some (.ok (.ref ⟨0⟩), ⟨entryMemo, .empty⟩) := by
    rw [classExtractor_eq hplain compile_entryShapes]
    exact returning_entrySchema.invoke_entry 46
  refine ⟨hplain, compile_entryShapes, ?_, lexicallyDistinct_returningView, hterm,
    .run (.start .empty) hterm hfirst, hsecond, hfresh, rfl, rfl⟩
  intro sh hsh f hf cls hcls
  simp only [entrySchema, returningShape, taggedShape, entryShape, List.mem_cons,
    List.not_mem_nil, or_false] at hsh
  obtain rfl | rfl | rfl := hsh
  · cases List.mem_singleton.1 hf
    exact ⟨entryShape, by simp [entrySchema], ValueType.ofClass.inj hcls⟩
  · cases List.mem_singleton.1 hf
    cases hcls
  · cases hf

end Schema
end ShaclExtract
