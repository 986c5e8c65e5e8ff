import ShaclExtract.Proofs.Schema.Entrance
import ShaclExtract.Proofs.Schema.Locality
import ShaclExtract.Proofs.Shape.Record

/-!
# ShaclExtract.Proofs.Schema.Typed

Extraction by type. The classes that apply to the focus are run one after the other on one memo,
behind the slot of dispatch. The first one that fails, or does not end, decides; otherwise the value
is the record that the records of the classes are merged into (`Schema.extractTyped_decided`).

Dispatch runs the classes with one routine less to go than they have if they are run for themselves.
As its own slot is one of those that can be asked for, there is no difference
(`Schema.invoke_depth`).
-/

namespace ShaclExtract

namespace Memo

/-- The value refers to a slot with the record. -/
def LeadsToRecord (m : Memo) (v : Value) (R : Record) : Prop :=
  ∃ slot, v = .ref slot ∧ m.slot? slot = some (.ready (.record R))

theorem LeadsToRecord.chain {m : Memo} {v : Value} {R : Record} (h : m.LeadsToRecord v R) :
    ∃ slot, m.Chain v [slot] (.record R) := by
  obtain ⟨slot, rfl, hslot⟩ := h
  exact ⟨slot, .follow hslot (.stop (by simp))⟩

theorem LeadsToRecord.resolve {m : Memo} {v : Value} {R : Record} (h : m.LeadsToRecord v R) :
    m.resolve v = .record R := by
  obtain ⟨slot, hchain⟩ := h.chain
  exact hchain.resolve_eq

end Memo

namespace Setting

variable {S : Setting} {view : View}

/-- What dispatch makes of the values of the classes that apply. -/
def mergedValue (resolve : Value → Value) : List Value → Value
  | [v] => v
  | vs => .record (mergedRecord resolve vs)

theorem merged_apply (vs : List Value) (s : RunState) :
    merged .memoized vs s = some (.ok (mergedValue s.memo.resolve vs), s) := by
  rcases vs with _ | ⟨v, _ | ⟨w, vs⟩⟩ <;> rfl

theorem types_eq_nil_iff : view.types = [] ↔
    ∀ q ∈ view.graph, q.subject.toTerm = view.focus → q.predicate ≠ Rdf.type := by
  rw [View.types, Graph.types, List.eq_nil_iff_forall_not_mem]
  constructor
  · exact fun h q hq hsubject hpredicate =>
      h q.object (Graph.mem_objects.2 ⟨q, hq, hsubject, hpredicate, rfl⟩)
  · intro h o ho
    obtain ⟨q, hq, hsubject, hpredicate, -⟩ := Graph.mem_objects.1 ho
    exact h q hq hsubject hpredicate

theorem mergedRecord_of_records {resolve : Value → Value} {vs : List Value} {records : List Record}
    (h : List.Forall₂ (fun v R => resolve v = .record R) vs records) :
    mergedRecord resolve vs = Record.mergeAll records := by
  have hmap : vs.map resolve = records.map Value.record := by
    rw [← List.forall₂_eq_eq_eq, List.forall₂_map_left_iff, List.forall₂_map_right_iff]
    exact h
  rw [mergedRecord_eq, hmap, List.foldl_map]
  rfl

/-- The slot of dispatch stands for the merged record: it has the record, or refers to the only one
there is. -/
theorem resolve_mergedValue {m m' : Memo} {slot : SlotId} {vs : List Value} {records : List Record}
    (hordered : ∀ R ∈ records, R.Ordered)
    (h : List.Forall₂ (fun v R => m.LeadsToRecord v R ∧ m'.LeadsToRecord v R) vs records)
    (hslot : m'.slot? slot = some (.ready (mergedValue m.resolve vs))) :
    m'.resolve (.ref slot) = .record (Record.mergeAll records) := by
  have hmerged : mergedRecord m.resolve vs = Record.mergeAll records :=
    mergedRecord_of_records (h.imp fun _ _ hv => hv.1.resolve)
  cases h with
  | nil =>
    rw [← hmerged]
    exact Memo.resolve_ref hslot (by simp)
  | @cons v R _ _ hv hrest =>
    cases hrest with
    | nil =>
      obtain ⟨slot', hchain⟩ := hv.2.chain
      have hR : Record.mergeAll [R] = R := (hordered R List.mem_cons_self).ofList_eq
      rw [hR]
      exact (Memo.Chain.follow hslot hchain).resolve_eq
    | cons _ _ =>
      rw [← hmerged]
      exact Memo.resolve_ref hslot (by simp)

theorem dispatch_eq_each (ht : S.transforms = .empty) (h : S.applicable view ≠ [])
    (invoke : Routine → Extractor RunState View Value) (s : RunState) :
    Program.dispatch.extractor S .memoized invoke view s =
      (Extractor.each (fun cls => invoke (.ofClass cls) view) (S.applicable view) s).map fun p =>
        (p.1.map fun vs => mergedValue p.2.memo.resolve vs, p.2) := by
  rw [Program.extractor, dispatched_of_ne_nil ht _ _ h, Extractor.all_map]
  simp only [Action.bindOk, Action.bind]
  rcases Extractor.each (fun cls => invoke (.ofClass cls) view) (S.applicable view) s with
    _ | ⟨e | vs, s'⟩
  · rfl
  · rfl
  · exact merged_apply vs s'

end Setting

namespace Schema

variable {options : Options} {g : Graph} {schema : Schema} {view : View}

/-! ## depth -/

/-- Whatever is no procedure, beside itself. -/
def Itself (base : View) (r : Routine) (view view' : View) : Prop :=
  view' = view ∧ base.Near view ∧ ∀ name, r ≠ .procedure name

theorem parallel_itself {K : Pairing} (hK : K.Exact) (hkeys : ∀ key, K.keys key) (base : View) :
    schema.Parallel K base (Itself base) where
  reads := by
    rintro r view view' ⟨rfl, _⟩
    exact .refl schema r _
  near := by
    rintro r view view' ⟨rfl, hnear, _⟩
    exact hnear
  key _ := hkeys _
  routine hq := hq.2.2
  invokes := by
    rintro r view view' r' node ⟨rfl, hnear, _⟩ hnext
    refine ⟨rfl, hnear.trans hnext.requests.near, ?_⟩
    generalize view'.refocus node = next at hnext
    cases hnext <;> simp
  transforms := hK.transforms _
  merges _ := hK.merges

/-- More depth than there are keys without slot makes no difference. -/
theorem invoke_depth (ho : options.custom = []) (hc : compile options g = some (.ok schema))
    {r : Routine} (hr : ∀ name, r ≠ .procedure name) {depth depth' : Nat} {s : RunState}
    (hs : s.memo.Bounded) (hdepth : (s.memo.missing (schema.setting.keys view)).card < depth)
    (hdepth' : (s.memo.missing (schema.setting.keys view)).card < depth') :
    schema.setting.invoke .memoized depth' r view s =
      schema.setting.invoke .memoized depth r view s := by
  have hparallel : schema.Parallel Pairing.same view (Itself view) :=
    parallel_itself Pairing.exact_same (fun _ => trivial) view
  have hflip : schema.Parallel Pairing.same.flip view fun r v v' => Itself view r v' v := by
    refine hparallel.flip ?_ (Pairing.exact_same.flip.transforms _)
      fun _ => Pairing.exact_same.flip.merges
    rintro r view' _ ⟨rfl, hnear, _⟩
    exact hnear
  exact Pairing.exact_same.eq_of_ends (ends_invoke ho hc hparallel hflip ⟨rfl, .refl view, hr⟩
    ⟨rfl, rfl, hs, hdepth'⟩ ⟨rfl, rfl, hs, hdepth⟩)

/-! ## the classes, one after the other -/

def classAt (schema : Schema) (view : View) : Extractor RunState Iri Value :=
  fun cls => schema.classExtractor cls view

def entered (view : View) : RunState := ⟨Memo.entrance view.focus .pending, .empty⟩

theorem each_invoke (ho : options.Plain) (hc : compile options g = some (.ok schema))
    {depth : Nat} (hdepth : schema.setting.depth view.graph = depth + 1) (classes : List Iri) :
    Extractor.each (fun cls => schema.setting.invoke .memoized depth (.ofClass cls) view) classes
        (entered view) =
      (schema.classAt view).each classes (entered view) := by
  let I : RunState → Prop := fun s =>
    s.memo.Bounded ∧ (s.memo.missing (schema.setting.keys view)).card < depth
  refine Extractor.each_congr_of_invariant (I := I) ?_ ?_ classes
    ⟨Memo.bounded_entrance, Setting.missing_entrance_lt hdepth⟩
  · rintro cls s ⟨hs, hroom⟩
    rw [classAt, classExtractor_eq ho hc, hdepth]
    exact invoke_depth ho.custom hc (by simp) hs (Nat.lt_succ_of_lt hroom) hroom
  · rintro cls s v s' ⟨hs, hroom⟩ hrun
    have hext := Setting.asked_extends (honest_of_compile ho.honest hc) depth
      (.routine (.ofClass cls)) view s _ s' hrun hs
    exact ⟨hext.bounded hs,
      Nat.lt_of_le_of_lt (Finset.card_le_card (hext.missing_subset _)) hroom⟩

/-- Extraction by type is to run the classes that apply one after the other, and to put what they
are merged into in the slot of dispatch. -/
theorem extractTyped_eq_each (ho : options.Plain) (hc : compile options g = some (.ok schema))
    (h : schema.setting.applicable view ≠ []) :
    schema.extractTyped view =
      ((schema.classAt view).each (schema.setting.applicable view) (entered view)).map fun p =>
        p.1.map fun vs => some
          ⟨.ref ⟨0⟩, p.2.memo.settle ⟨0⟩ (Setting.mergedValue p.2.memo.resolve vs)⟩ := by
  obtain ⟨depth, hdepth⟩ : ∃ depth, schema.setting.depth view.graph = depth + 1 := ⟨_, rfl⟩
  have htyped := Setting.typed_of_types (S := schema.setting) (Setting.types_ne_nil h) depth .empty
  rw [← hdepth, Setting.dispatch_eq_each (transforms_of_compile ho hc) h] at htyped
  change schema.typedExtractor view _ = _ at htyped
  have heach := each_invoke ho hc hdepth (schema.setting.applicable view)
  rw [entered] at heach
  rw [heach] at htyped
  rw [entered]
  generalize (schema.classAt view).each (schema.setting.applicable view)
    ⟨Memo.entrance view.focus .pending, .empty⟩ = o at htyped
  rcases o with _ | ⟨e | vs, s⟩
  · rw [extractTyped_eq_map, htyped]
    rfl
  · exact extractTyped_of_run htyped
  · exact extractTyped_of_run htyped

/-! ## what the slots of classes hold -/

/-- Slots of classes of one's own hold records with their fields in order. -/
def HoldsRecords (_ : Memo) (key : MemoKey) (_ : SlotId) (v : Value) : Prop :=
  ∀ cls node, key = classKey cls node → cls ∉ builtinClasses →
    ∃ R : Record, v = .record R ∧ R.Ordered

theorem holdsRecords_of_filled (ho : options.Plain) (hc : compile options g = some (.ok schema))
    {start : Moment Shareable} {r : Routine} {view' : View} {s s₁ : RunState} {v : Value}
    (h : schema.setting.Filled start r view' s s₁ v) :
    HoldsRecords (s₁.memo.settle s.memo.next v) (.of (.routine r) view'.focus) s.memo.next v := by
  intro cls node hkey hcls
  obtain rfl : r = .ofClass cls := MemoKey.routine_eq hkey
  obtain ⟨-, -, -, R, hv, hR⟩ := shape_of_filled ho hc hcls h
    (A := fun _ _ v => ∃ R : Record, v = .record R ∧ R.Ordered) fun _ depth =>
      (Yields.entries fun t node => Setting.yields_element (honest_of_compile ho.honest hc)
        (transforms_of_compile ho hc) depth t view' node).mono (fun _ _ _ _ h => h) <| by
          rintro m v ⟨entries, rfl, -⟩
          exact ⟨_, rfl, Record.ordered_ofList _⟩
  exact ⟨R, hv, hR⟩

theorem yields_classAt (ho : options.Plain) (hc : compile options g = some (.ok schema))
    (view : View) (classes : List Iri) :
    Yields (fun m vs => List.Forall₂ (fun cls v => ∃ slot, v = Value.ref slot ∧
      m.lookup (classKey cls view.focus) = some slot) classes vs)
      ((schema.classAt view).each classes) := by
  refine Yields.each (A := fun m cls v => ∃ slot, v = Value.ref slot ∧
    m.lookup (classKey cls view.focus) = some slot) fun cls _ => ?_
  rw [classAt, classExtractor_eq ho hc]
  exact Setting.yields_invoke (honest_of_compile ho.honest hc) _ cls view

/-- After the runs of all classes, each of them has a record, and the slot of dispatch that is
filled then is none of theirs. -/
theorem records_of_runs (ho : options.Plain) (hc : compile options g = some (.ok schema))
    (hclasses : ∀ cls ∈ schema.setting.applicable view, cls ∉ builtinClasses) {vs : List Value}
    {s : RunState} {w : Value}
    (hx : schema.extractTyped view = some (.ok (some ⟨.ref ⟨0⟩, s.memo.settle ⟨0⟩ w⟩)))
    (hruns : (schema.classAt view).Runs (schema.setting.applicable view) (entered view) vs s) :
    ∃ records : List Record, (∀ R ∈ records, R.Ordered) ∧
      List.Forall₂ (fun v R => s.memo.LeadsToRecord v R ∧
        (s.memo.settle ⟨0⟩ w).LeadsToRecord v R) vs records := by
  have hyields := yields_classAt ho hc view (schema.setting.applicable view)
  have heach := Extractor.each_eq_ok_iff.2 hruns
  have hslots := hyields.output _ _ _ Memo.bounded_entrance heach
  have hext : (Memo.empty.reserve (.of (.routine .dispatch) view.focus)).Extends s.memo :=
    hyields.extending _ _ _ heach Memo.bounded_entrance
  have hextracts : schema.Extracts view _ .dispatch := .byType hx
  have hholds := hextracts.holds (T := HoldsRecords) ho hc (fun _ _ _ _ _ _ h => h)
    (fun _ _ _ _ _ _ _ _ hkey => by cases hkey)
    fun _ _ _ _ _ _ hfilled _ => holdsRecords_of_filled ho hc hfilled
  have hrecord : ∀ v ∈ vs, ∃ R : Record, R.Ordered ∧ s.memo.LeadsToRecord v R ∧
      (s.memo.settle ⟨0⟩ w).LeadsToRecord v R := by
    intro v hv
    obtain ⟨cls, hcls, slot, rfl, hslot⟩ := hslots.exists_of_mem v hv
    obtain ⟨u, hu⟩ := hextracts.ready ho hc hslot
    obtain ⟨R, rfl, hR⟩ := hholds _ slot u hslot hu cls view.focus rfl (hclasses cls hcls)
    have hne : slot ≠ ⟨0⟩ := by
      rintro rfl
      cases MemoKey.routine_eq (Memo.eq_of_lookup_next Memo.bounded_empty hext hslot)
    refine ⟨R, hR, ⟨slot, rfl, ?_⟩, slot, rfl, hu⟩
    rwa [← Memo.slot?_settle_of_ne hne w]
  choose! record hordered hleads using hrecord
  refine ⟨vs.map record, fun R hR => ?_, ?_⟩
  · obtain ⟨v, hv, rfl⟩ := List.mem_map.1 hR
    exact hordered v hv
  · exact List.forall₂_map_right_iff.2 (List.forall₂_same.2 hleads)

/-! ## what is extracted by type -/

theorem extractTyped_of_untyped (h : view.types = []) :
    schema.extractTyped view = some (.ok none) :=
  extractTyped_of_run (r := .ok none) (s := .start .empty) (by
    simp only [typedExtractor, Setting.run, Setting.typed, h, if_true])

theorem extractTyped_of_inapplicable (htypes : view.types ≠ [])
    (h : schema.setting.applicable view = []) :
    schema.extractTyped view = some (.error (.noApplicableShape
      (", ".intercalate ((Setting.assertedTypes view).map Iri.text)))) := by
  obtain ⟨depth, hdepth⟩ : ∃ depth, schema.setting.depth view.graph = depth + 1 := ⟨_, rfl⟩
  have htyped := Setting.typed_of_types (S := schema.setting) htypes depth .empty
  rw [← hdepth, Program.extractor, Setting.dispatched_of_nil _ _ h] at htyped
  exact extractTyped_of_run (r := .error _) htyped

/-- The classes that come before this one have been run, and have led to the state. -/
def ComesTo (schema : Schema) (view : View) (cls : Iri) (s : RunState) : Prop :=
  ∃ before after vs, schema.setting.applicable view = before ++ cls :: after ∧
    (schema.classAt view).Runs before (entered view) vs s

theorem extractTyped_eq_error_iff (ho : options.Plain) (hc : compile options g = some (.ok schema))
    (h : schema.setting.applicable view ≠ []) {e : Failure} :
    schema.extractTyped view = some (.error e) ↔
      ∃ cls s s', schema.ComesTo view cls s ∧
        schema.classExtractor cls view s = some (.error e, s') := by
  rw [extractTyped_eq_each ho hc h, Option.map_eq_some_iff]
  constructor
  · rintro ⟨⟨_ | vs, s'⟩, hrun, hfail⟩ <;> cases hfail
    obtain ⟨before, cls, after, vs, s, hsplit, hruns, he⟩ := Extractor.each_eq_error_iff.1 hrun
    exact ⟨cls, s, s', ⟨before, after, vs, hsplit, hruns⟩, he⟩
  · rintro ⟨cls, s, s', ⟨before, after, vs, hsplit, hruns⟩, he⟩
    exact ⟨(.error e, s'),
      Extractor.each_eq_error_iff.2 ⟨before, cls, after, vs, s, hsplit, hruns, he⟩, rfl⟩

theorem extractTyped_eq_none_iff (ho : options.Plain) (hc : compile options g = some (.ok schema))
    (h : schema.setting.applicable view ≠ []) :
    schema.extractTyped view = none ↔
      ∃ cls s, schema.ComesTo view cls s ∧ schema.classExtractor cls view s = none := by
  rw [extractTyped_eq_each ho hc h, Option.map_eq_none_iff, Extractor.each_eq_none_iff]
  constructor
  · rintro ⟨before, cls, after, vs, s, hsplit, hruns, hnone⟩
    exact ⟨cls, s, ⟨before, after, vs, hsplit, hruns⟩, hnone⟩
  · rintro ⟨cls, s, ⟨before, after, vs, hsplit, hruns⟩, hnone⟩
    exact ⟨before, cls, after, vs, s, hsplit, hruns, hnone⟩

/-- When all classes have been run, their values are merged into the slot of dispatch. -/
theorem extractTyped_eq_ok_iff (ho : options.Plain) (hc : compile options g = some (.ok schema))
    (h : schema.setting.applicable view ≠ []) {o : Option Extraction} :
    schema.extractTyped view = some (.ok o) ↔
      ∃ vs s,
        (schema.classAt view).Runs (schema.setting.applicable view) (entered view) vs s ∧
        o = some ⟨.ref ⟨0⟩, s.memo.settle ⟨0⟩ (Setting.mergedValue s.memo.resolve vs)⟩ := by
  rw [extractTyped_eq_each ho hc h, Option.map_eq_some_iff]
  constructor
  · rintro ⟨⟨_ | vs, s⟩, hrun, hok⟩ <;> cases hok
    exact ⟨vs, s, Extractor.each_eq_ok_iff.1 hrun, rfl⟩
  · rintro ⟨vs, s, hruns, rfl⟩
    exact ⟨(.ok vs, s), Extractor.each_eq_ok_iff.2 hruns, rfl⟩

theorem extractTyped_eq_ok_none_iff (ho : options.Plain)
    (hc : compile options g = some (.ok schema)) :
    schema.extractTyped view = some (.ok none) ↔ view.types = [] := by
  refine ⟨fun h => ?_, extractTyped_of_untyped⟩
  by_contra htypes
  by_cases hnil : schema.setting.applicable view = []
  · cases (extractTyped_of_inapplicable htypes hnil).symm.trans h
  · obtain ⟨vs, s, -, h⟩ := (extractTyped_eq_ok_iff ho hc hnil).1 h
    cases h

theorem mergedFrom_of_runs (ho : options.Plain) (hc : compile options g = some (.ok schema))
    (hclasses : ∀ cls ∈ schema.setting.applicable view, cls ∉ builtinClasses) {x : Extraction}
    {vs : List Value} {s : RunState}
    (hruns : (schema.classAt view).Runs (schema.setting.applicable view) (entered view) vs s)
    (hx : schema.extractTyped view = some (.ok (some x)))
    (hvalue : x = ⟨.ref ⟨0⟩, s.memo.settle ⟨0⟩ (Setting.mergedValue s.memo.resolve vs)⟩) :
    ∃ (fields : Record) (records : List Record), x.value = .record fields ∧
      fields.MergedFrom records ∧
      List.Forall₂ (fun v R => s.memo.resolve v = .record R ∧ x.resolve v = .record R)
        vs records := by
  subst hvalue
  obtain ⟨records, hordered, hleads⟩ := records_of_runs ho hc hclasses hx hruns
  have hext : (Memo.empty.reserve (.of (.routine .dispatch) view.focus)).Extends s.memo :=
    (yields_classAt ho hc view _).extending _ _ _ (Extractor.each_eq_ok_iff.2 hruns)
      Memo.bounded_entrance
  refine ⟨_, records, Setting.resolve_mergedValue hordered hleads
    (Memo.slot?_settle_next hext _), Record.mergedFrom_mergeAll hordered, ?_⟩
  exact hleads.imp fun _ _ hv => ⟨hv.1.resolve, hv.2.resolve⟩

/--
Extraction by type, when the classes that apply to the focus have shapes only. There is no value
exactly if the focus has no type, and a failure of its own if it has types but no class applies.
Otherwise the classes are run one after the other on one memo: the first that fails gives the
failure, the first that does not end does not, and if there are none, the value is the record that
their records are merged into.
-/
theorem extractTyped_decided (ho : options.Plain) (hc : compile options g = some (.ok schema))
    (hclasses : ∀ cls ∈ schema.setting.applicable view, cls ∉ builtinClasses) :
    (schema.extractTyped view = some (.ok none) ↔
      ∀ q ∈ view.graph, q.subject.toTerm = view.focus → q.predicate ≠ Rdf.type) ∧
    (view.types ≠ [] → schema.setting.applicable view = [] →
      schema.extractTyped view = some (.error (.noApplicableShape
        (", ".intercalate ((Setting.assertedTypes view).map Iri.text))))) ∧
    (schema.setting.applicable view ≠ [] →
      (∀ e, schema.extractTyped view = some (.error e) ↔
        ∃ cls s s', schema.ComesTo view cls s ∧
          schema.classExtractor cls view s = some (.error e, s')) ∧
      (schema.extractTyped view = none ↔
        ∃ cls s, schema.ComesTo view cls s ∧ schema.classExtractor cls view s = none) ∧
      ((∃ x, schema.extractTyped view = some (.ok (some x))) ↔
        ∃ vs s, (schema.classAt view).Runs (schema.setting.applicable view) (entered view) vs s) ∧
      ∀ x vs s, schema.extractTyped view = some (.ok (some x)) →
        (schema.classAt view).Runs (schema.setting.applicable view) (entered view) vs s →
          ∃ (fields : Record) (records : List Record), x.value = .record fields ∧
            fields.MergedFrom records ∧
            List.Forall₂ (fun v R => s.memo.resolve v = .record R ∧ x.resolve v = .record R)
              vs records) := by
  refine ⟨by rw [extractTyped_eq_ok_none_iff ho hc, Setting.types_eq_nil_iff],
    extractTyped_of_inapplicable, fun hne => ⟨fun e => extractTyped_eq_error_iff ho hc hne,
      extractTyped_eq_none_iff ho hc hne, ?_, fun x vs s hx hruns => ?_⟩⟩
  · simp only [extractTyped_eq_ok_iff ho hc hne, Option.some.injEq]
    exact ⟨fun ⟨_, vs, s, hruns, _⟩ => ⟨vs, s, hruns⟩, fun ⟨vs, s, hruns⟩ => ⟨_, vs, s, hruns, rfl⟩⟩
  · refine mergedFrom_of_runs ho hc hclasses hruns hx ?_
    have hmerged := (extractTyped_eq_ok_iff ho hc hne).2 ⟨vs, s, hruns, rfl⟩
    exact Option.some.inj (Except.ok.inj (Option.some.inj (hx.symm.trans hmerged)))

def returningFirst : RunState :=
  ⟨⟨[.pending, .ready (.record [("self", .ref ⟨2⟩)]), .ready (.ref ⟨0⟩)],
    [(classKey Rdfl.typedExtract (.iri ⟨"n"⟩), ⟨2⟩), (classKey ⟨"A"⟩ (.iri ⟨"n"⟩), ⟨1⟩),
      (.of (.routine .dispatch) (.iri ⟨"n"⟩), ⟨0⟩)]⟩, .empty⟩

def returningBoth : RunState :=
  ⟨⟨returningFirst.memo.slots ++ [.ready (.record [("tag", .text "t")])],
    (classKey ⟨"B"⟩ (.iri ⟨"n"⟩), ⟨3⟩) :: returningFirst.memo.index⟩, .empty⟩

/-- The first class leads back to dispatch, and the record has its field nevertheless. -/
theorem extractTyped_decided_returning :
    Options.default.Plain ∧ compile .default returningShapes = some (.ok returningSchema) ∧
    (∀ cls ∈ returningSchema.setting.applicable returningView, cls ∉ builtinClasses) ∧
    ∃ (x : Extraction) (fields : Record),
      returningSchema.extractTyped returningView = some (.ok (some x)) ∧
      x.value = .record fields ∧
      fields.MergedFrom [[("self", .ref ⟨2⟩)], [("tag", .text "t")]] := by
  have hfirst : returningSchema.classAt returningView ⟨"A"⟩ (entered returningView) =
      some (.ok (.ref ⟨1⟩), returningFirst) := by rfl
  have hsecond : returningSchema.classAt returningView ⟨"B"⟩ returningFirst =
      some (.ok (.ref ⟨3⟩), returningBoth) := by rfl
  have hruns : (returningSchema.classAt returningView).Runs
      (returningSchema.setting.applicable returningView) (entered returningView)
      [.ref ⟨1⟩, .ref ⟨3⟩] returningBoth := by
    rw [applicable_returningView]
    exact .cons hfirst (.cons hsecond (.nil _))
  have hne : returningSchema.setting.applicable returningView ≠ [] := by
    rw [applicable_returningView]
    decide
  have hclasses : ∀ cls ∈ returningSchema.setting.applicable returningView, cls ∉ builtinClasses :=
    applicable_not_builtin_returningView
  obtain ⟨-, -, hok, hvalue⟩ :=
    (extractTyped_decided ⟨rfl, rfl, rfl⟩ compile_returningShapes hclasses).2.2 hne
  obtain ⟨x, hx⟩ := hok.2 ⟨_, _, hruns⟩
  obtain ⟨fields, records, hfields, hmerged, hrecords⟩ := hvalue x _ _ hx hruns
  obtain rfl : records = [[("self", .ref ⟨2⟩)], [("tag", .text "t")]] := by
    cases hrecords with
    | cons hself hrest =>
      cases hrest with
      | cons htag hnil =>
        cases hnil
        cases hself.1
        cases htag.1
        rfl
  exact ⟨⟨rfl, rfl, rfl⟩, compile_returningShapes, hclasses, x, fields, hx, hfields, hmerged⟩

end Schema
end ShaclExtract
