import ShaclExtract.Proofs.Memo.Renumbering
import ShaclExtract.Proofs.Schema.Alongside
import ShaclExtract.Proofs.Schema.History

/-!
# ShaclExtract.Proofs.Schema.Entrance

Extraction by class and by type. If one class only applies to the focus, then extraction by type
runs the same as extraction of that class, on top of a slot for dispatch. From the first step on,
all slots have other numbers, and nothing else is different: no property asks for typed extraction,
so the slot of dispatch is never looked up (`Schema.extractTyped_eq`).
-/

namespace ShaclExtract

namespace Memo

/-- Dispatch has the only slot. -/
def entrance (node : Term) (content : Slot) : Memo :=
  ⟨[content], [(.of (.routine .dispatch) node, ⟨0⟩)]⟩

variable {node : Term} {content : Slot}

theorem bounded_entrance : (entrance node content).Bounded := by
  intro e he
  cases List.mem_singleton.1 he
  exact Nat.zero_lt_one

theorem lookup_entrance {r : Routine} (h : r ≠ .dispatch) (node' : Term) :
    (entrance node content).lookup (.of (.routine r) node') = none := by
  rw [lookup, Table.lookup_eq_none_iff, entrance, List.map_singleton, List.mem_singleton]
  exact fun hkey => h (MemoKey.routine_eq hkey)

end Memo

def Extraction.dispatched (x : Extraction) (node : Term) : Extraction :=
  ⟨.ref ⟨0⟩, (Memo.entrance node (.ready (.ref ⟨1⟩))).above x.memo⟩

namespace Extraction

variable {x : Extraction}

theorem slots_dispatched (x : Extraction) (node : Term) : (x.dispatched node).memo.slots =
    .ready (.ref ⟨1⟩) :: x.memo.slots.map (.renumbered (.raised 1)) := rfl

theorem toJson_dispatched (h : x.raw = .ref ⟨0⟩) (node : Term) : (x.dispatched node).toJson =
    x.memo.toJsonMarking (fun slot => Memo.backReference (slot.raised 1)) x.raw := by
  have hbelow : ∀ slot ∈ [(⟨0⟩ : SlotId)],
      slot.index < (Memo.entrance node (.ready (.ref ⟨1⟩))).slots.length := by
    rintro slot hslot
    cases List.mem_singleton.1 hslot
    exact Nat.zero_lt_one
  have hrest := Memo.slotToJson_above Memo.backReference hbelow x.memo (x.memo.slots.length + 1)
    [] ⟨0⟩
  have hlength : (x.dispatched node).memo.slots.length = x.memo.slots.length + 1 := by
    rw [slots_dispatched, List.length_cons, List.length_map]
  rw [toJson, Memo.toJson_eq, Memo.toJsonMarking, hlength, h]
  exact hrest

end Extraction

namespace Setting

variable {S : Setting} {view : View} {cls : Iri}

theorem applicable_of_single
    (h : ∀ c, (S.registry.contains c = true ∧
      ∃ t ∈ assertedTypes view, c ∈ S.subclasses.chain t) ↔ c = cls) :
    S.applicable view = [cls] := by
  have hmem : ∀ c, c ∈ ((assertedTypes view).flatMap S.subclasses.chain).filter
      S.registry.contains ↔ c = cls := by
    intro c
    rw [List.mem_filter, List.mem_flatMap, and_comm]
    exact h c
  rw [applicable]
  cases hl : ((assertedTypes view).flatMap S.subclasses.chain).filter S.registry.contains with
  | nil =>
    rw [hl] at hmem
    exact absurd ((hmem cls).2 rfl) List.not_mem_nil
  | cons c rest =>
    rw [hl] at hmem
    obtain rfl := (hmem c).1 List.mem_cons_self
    have hrest : rest.filter (fun c' => !c' == c) = [] := by
      rw [List.filter_eq_nil_iff]
      intro c' hc'
      simp [(hmem c').1 (List.mem_cons_of_mem _ hc')]
    rw [List.eraseDups_cons, hrest, List.eraseDups_nil]

theorem dispatch_of_single (ht : S.transforms = .empty) (h : S.applicable view = [cls])
    (invoke : Routine → Extractor RunState View Value) :
    Program.dispatch.extractor S .memoized invoke view = invoke (.ofClass cls) view := by
  have hne : S.applicable view ≠ [] := by
    rw [h]
    exact List.cons_ne_nil _ _
  rw [Program.extractor, dispatched_of_ne_nil ht _ _ hne, h, List.map_singleton]
  funext s
  simp only [Extractor.all, Action.bindOk, Action.bind]
  rcases invoke (.ofClass cls) view s with _ | ⟨_ | _, _⟩ <;> rfl

theorem typed_of_types (h : view.types ≠ []) (depth : Nat) (counters : Counters) :
    typed (S.invoke .memoized (depth + 1)) view (.start counters) =
      match Program.dispatch.extractor S .memoized (S.invoke .memoized depth) view
        ⟨Memo.entrance view.focus .pending, counters⟩ with
      | none => none
      | some (.error e, s) => some (.error e, { s with memo := s.memo.failFrom ⟨0⟩ })
      | some (.ok v, s) =>
        some (.ok (some (.ref ⟨0⟩)), { s with memo := s.memo.settle ⟨0⟩ v }) := by
  have hentrance : (RunState.start counters).memo.reserve (.of (.routine .dispatch) view.focus) =
      Memo.entrance view.focus .pending := rfl
  have hk : (RunState.start counters).memo.lookup (.of (.routine .dispatch) view.focus) = none :=
    rfl
  have hcounters : (RunState.start counters).counters = counters := rfl
  have hshared : S.invoke .memoized (depth + 1) .dispatch view =
      Memo.shared (.routine .dispatch)
        (Program.dispatch.extractor S .memoized (S.invoke .memoized depth)) view := by
    rw [invoke_of_program (p := .dispatch) _ rfl]
    rfl
  simp only [typed, if_neg h, Extractor.map]
  rw [hshared]
  simp only [Memo.shared, hk, hentrance, hcounters]
  rcases Program.dispatch.extractor S .memoized (S.invoke .memoized depth) view
    ⟨Memo.entrance view.focus .pending, counters⟩ with _ | ⟨_ | _, _⟩ <;> rfl

/-- Extraction by type runs the only class that applies behind the slot of dispatch. -/
theorem typed_of_single (ht : S.transforms = .empty) (h : S.applicable view = [cls]) (depth : Nat)
    (counters : Counters) :
    typed (S.invoke .memoized (depth + 1)) view (.start counters) =
      match S.invoke .memoized depth (.ofClass cls) view
        ⟨Memo.entrance view.focus .pending, counters⟩ with
      | none => none
      | some (.error e, s) => some (.error e, { s with memo := s.memo.failFrom ⟨0⟩ })
      | some (.ok v, s) =>
        some (.ok (some (.ref ⟨0⟩)), { s with memo := s.memo.settle ⟨0⟩ v }) := by
  have hne : S.applicable view ≠ [] := by
    rw [h]
    exact List.cons_ne_nil _ _
  rw [typed_of_types (types_ne_nil hne), dispatch_of_single ht h]

theorem missing_empty_lt (S : Setting) (view : View) :
    (Memo.empty.missing (S.keys view)).card < S.depth view.graph :=
  Nat.lt_of_le_of_lt (Finset.card_le_card (Finset.filter_subset _ _)) (S.card_keys_lt view)

theorem missing_entrance_lt {depth : Nat} (hdepth : S.depth view.graph = depth + 1) :
    ((Memo.entrance view.focus .pending).missing (S.keys view)).card < depth := by
  have hempty := S.missing_empty_lt view
  rw [hdepth] at hempty
  have hlookup : Memo.empty.lookup (.of (.routine .dispatch) view.focus) = none := rfl
  have hlt := Memo.missing_reserve_lt hlookup
    (mem_keys (S := S) (p := .dispatch) rfl (.refl view))
  exact Nat.lt_of_lt_of_le hlt (Nat.lt_succ_iff.1 hempty)

end Setting

namespace Schema

variable {options : Options} {g : Graph} {schema : Schema} {view : View}

/-- A class other than that of typed extraction, at one view beside itself. -/
def OfClass (base : View) (r : Routine) (view view' : View) : Prop :=
  view' = view ∧ base.Near view ∧ ∃ cls, r = .ofClass cls ∧ cls ≠ Rdfl.typedExtract

theorem parallel_raising (ho : options.Plain) (hc : compile options g = some (.ok schema))
    (hfields : ∀ sh ∈ schema.shapes, ∀ f ∈ sh.properties, f.type ≠ .ofClass Rdfl.typedExtract)
    (base : View) :
    schema.Parallel (Memo.raising (Memo.entrance base.focus .pending) Memo.bounded_entrance) base
      (OfClass base) where
  reads := by
    rintro r view view' ⟨rfl, _⟩
    exact .refl schema r _
  near := by
    rintro r view view' ⟨rfl, hnear, _⟩
    exact hnear
  key := by
    rintro r view view' ⟨rfl, _, cls, rfl, _⟩
    exact Memo.lookup_entrance (by simp) view'.focus
  routine := by
    rintro r view view' ⟨rfl, _, cls, rfl, _⟩ name ⟨⟩
  invokes := by
    rintro r view view' r' node ⟨rfl, hnear, cls, rfl, hcls⟩ hnext
    refine ⟨rfl, hnear.trans hnext.requests.near, ?_⟩
    generalize view'.refocus node = next at hnext
    cases hnext with
    | typed => exact absurd rfl hcls
    | property hsh hf hcls' _ =>
      refine ⟨_, rfl, ?_⟩
      rintro rfl
      exact hfields _ hsh _ hf hcls'
  transforms _ _ := Correspondence.transforms_of_empty (transforms_of_compile ho hc) _ _
  merges := by
    rintro view view' ⟨rfl, _, cls, hcls, _⟩
    cases hcls

theorem ends_entrance (ho : options.Plain) (hc : compile options g = some (.ok schema))
    (hfields : ∀ sh ∈ schema.shapes, ∀ f ∈ sh.properties, f.type ≠ .ofClass Rdfl.typedExtract)
    {cls : Iri} (hcls : cls ≠ Rdfl.typedExtract) {depth : Nat}
    (hdepth : schema.setting.depth view.graph = depth + 1) (counters : Counters) :
    let K := Memo.raising (Memo.entrance view.focus .pending) Memo.bounded_entrance
    K.Ends K.values
      (schema.setting.invoke .memoized (depth + 1) (.ofClass cls) view (.start counters))
      (schema.setting.invoke .memoized depth (.ofClass cls) view
        ⟨Memo.entrance view.focus .pending, counters⟩) := by
  intro K
  have hparallel := parallel_raising ho hc hfields view
  have hflip : schema.Parallel K.flip view fun r v v' => OfClass view r v' v := by
    refine hparallel.flip (fun hq => hq.2.1) ?_ ?_
    · exact fun _ _ => Correspondence.transforms_of_empty (transforms_of_compile ho hc) _ _
    · rintro view view' ⟨rfl, _, cls, hcls, _⟩
      cases hcls
  have hempty := schema.setting.missing_empty_lt view
  rw [hdepth] at hempty
  have hentrance := Setting.missing_entrance_lt hdepth
  have hmemos : Memo.entrance view.focus .pending =
      (Memo.entrance view.focus .pending).above .empty := (Memo.above_empty _).symm
  exact ends_invoke ho.custom hc hparallel hflip ⟨rfl, .refl view, cls, rfl, hcls⟩
    ⟨hmemos, rfl, Memo.bounded_entrance, hentrance⟩ ⟨hmemos, rfl, Memo.bounded_empty, hempty⟩

theorem raw_of_extract (ho : options.Plain) (hc : compile options g = some (.ok schema))
    {cls : Iri} {x : Extraction} (h : schema.extract cls view = some (.ok x)) :
    x.raw = .ref ⟨0⟩ := by
  obtain ⟨s, hrun, hmemo⟩ := extract_cases h
  rw [classExtractor_eq ho hc] at hrun
  obtain ⟨slot, hraw, hslot⟩ := (Setting.yields_invoke (honest_of_compile ho.honest hc) _ cls
    view).output _ _ _ Memo.bounded_empty hrun
  have hfirst := Extracts.lookup ho hc (.byClass h)
  rw [← hmemo] at hfirst
  cases hslot.symm.trans hfirst
  exact hraw

/-- If one class only applies to the focus, extraction by type and extraction of the class both end
or none of them does; they fail with the same failure, or the memo of the first is the slot of
dispatch, which refers to the next one, and then the memo of the second with all slots raised by
one. Then they are rendered the same but for the names of slots, which are raised by one as well. -/
theorem extractTyped_eq (ho : options.Plain) (hc : compile options g = some (.ok schema))
    (hfields : ∀ sh ∈ schema.shapes, ∀ f ∈ sh.properties, f.type ≠ .ofClass Rdfl.typedExtract)
    {cls : Iri} (hcls : cls ≠ Rdfl.typedExtract)
    (hsingle : ∀ c, (schema.setting.registry.contains c = true ∧
      ∃ t ∈ Setting.assertedTypes view, c ∈ schema.setting.subclasses.chain t) ↔ c = cls) :
    schema.extractTyped view =
      (schema.extract cls view).map (Except.map fun x => some (x.dispatched view.focus)) ∧
    (∀ x, schema.extract cls view = some (.ok x) → x.raw = .ref ⟨0⟩ ∧
      (x.dispatched view.focus).raw = .ref ⟨0⟩ ∧
      (x.dispatched view.focus).memo.slots =
        .ready (.ref ⟨1⟩) :: x.memo.slots.map (.renumbered (.raised 1)) ∧
      x.toJson = x.memo.toJsonMarking Memo.backReference x.raw ∧
      (x.dispatched view.focus).toJson =
        x.memo.toJsonMarking (fun slot => Memo.backReference (slot.raised 1)) x.raw) ∧
    ((∀ view', Relation.ReflTransGen schema.Requests (.ofClass cls, view)
        (.ofClass Rdfl.pathLens, view') → ¬ Path.SelfReferring view'.graph view'.focus) →
      ∃ r, schema.extract cls view = some r) := by
  have hraw : ∀ x, schema.extract cls view = some (.ok x) → x.raw = .ref ⟨0⟩ :=
    fun x hx => raw_of_extract ho hc hx
  refine ⟨?_, fun x hx => ⟨hraw x hx, rfl, rfl, Memo.toJson_eq _ _,
    Extraction.toJson_dispatched (hraw x hx) _⟩, fun hread => ?_⟩
  · obtain ⟨depth, hdepth⟩ : ∃ depth, schema.setting.depth view.graph = depth + 1 := ⟨_, rfl⟩
    have hends := ends_entrance ho hc hfields hcls hdepth .empty
    have hclass : schema.classExtractor cls view (.start .empty) = _ :=
      congrFun (classExtractor_eq ho hc cls view) _
    have htyped := Setting.typed_of_single (transforms_of_compile ho hc)
      (Setting.applicable_of_single hsingle) depth .empty
    rw [← hdepth] at htyped
    change schema.typedExtractor view _ = _ at htyped
    rw [hdepth] at hclass
    generalize schema.setting.invoke .memoized (depth + 1) (.ofClass cls) view
      (.start .empty) = o at hends hclass
    generalize schema.setting.invoke .memoized depth (.ofClass cls) view
      ⟨Memo.entrance view.focus .pending, .empty⟩ = o' at hends htyped
    cases hends with
    | none =>
      rw [extractTyped_eq_map, htyped, extract_eq_map, hclass]
      rfl
    | @some a b hab =>
      obtain ⟨r, s⟩ := a
      obtain ⟨r', t⟩ := b
      obtain ⟨hr, hmemo, _⟩ := hab
      have hextract := extract_of_run hclass
      obtain ⟨e, rfl, rfl⟩ | ⟨v, w, rfl, rfl, hvw⟩ := hr.cases
      · rw [extractTyped_of_run htyped, hextract]
        rfl
      · obtain rfl : v = .ref ⟨0⟩ := hraw _ hextract
        obtain rfl : w = .ref ⟨1⟩ := hvw
        have hsettle : t.memo.settle ⟨0⟩ (.ref ⟨1⟩) =
            (Memo.entrance view.focus (.ready (.ref ⟨1⟩))).above s.memo := by
          rw [show t.memo = (Memo.entrance view.focus .pending).above s.memo from hmemo,
            Memo.settle_below Nat.zero_lt_one]
          rfl
        rw [extractTyped_of_run htyped, hextract, hsettle]
        rfl
  · obtain ⟨r, s, hrun⟩ := classExtractor_ends ho hc hread (s := .start .empty) Memo.bounded_empty
    exact exists_extract hrun

theorem single_linkView (c : Iri) : (linkSchema.setting.registry.contains c = true ∧
    ∃ t ∈ Setting.assertedTypes linkView, c ∈ linkSchema.setting.subclasses.chain t) ↔
      c = ⟨"C"⟩ := by
  constructor
  · rintro ⟨-, t, ht, hc⟩
    have ht : t ∈ Setting.assertedTypes (linkView.refocus linkView.focus) := ht
    rw [assertedTypes_linkView ht, chain_link] at hc
    exact List.mem_singleton.1 hc
  · rintro rfl
    refine ⟨by decide, ⟨"C"⟩, by decide, ?_⟩
    rw [chain_link]
    exact List.mem_singleton_self _

/-- The two nodes of the cycle, with a slot for dispatch before theirs. -/
theorem extractTyped_eq_link :
    Options.default.Plain ∧ compile .default linkShapes = some (.ok linkSchema) ∧
    (∀ sh ∈ linkSchema.shapes, ∀ f ∈ sh.properties, f.type ≠ .ofClass Rdfl.typedExtract) ∧
    (⟨"C"⟩ : Iri) ≠ Rdfl.typedExtract ∧
    (∀ c, (linkSchema.setting.registry.contains c = true ∧
      ∃ t ∈ Setting.assertedTypes linkView, c ∈ linkSchema.setting.subclasses.chain t) ↔
        c = ⟨"C"⟩) ∧
    linkSchema.extract ⟨"C"⟩ linkView = some (.ok linkExtraction) ∧
    linkSchema.extractTyped linkView =
      some (.ok (some (linkExtraction.dispatched (.iri ⟨"a"⟩)))) ∧
    (linkExtraction.dispatched (.iri ⟨"a"⟩)).memo.slots =
      [.ready (.ref ⟨1⟩), .ready (.record [("next", .ref ⟨2⟩)]),
        .ready (.record [("next", .ref ⟨1⟩)])] := by
  have hfields : ∀ sh ∈ linkSchema.shapes, ∀ f ∈ sh.properties,
      f.type ≠ .ofClass Rdfl.typedExtract := by
    intro sh hsh f hf
    rw [link_properties sh hsh f hf]
    decide
  have hne : (⟨"C"⟩ : Iri) ≠ Rdfl.typedExtract := by decide
  obtain ⟨hequal, hslots, _⟩ := extractTyped_eq ⟨rfl, rfl, rfl⟩ compile_linkShapes hfields hne
    single_linkView
  rw [extract_linkView] at hequal
  exact ⟨⟨rfl, rfl, rfl⟩, compile_linkShapes, hfields, hne, single_linkView, extract_linkView,
    hequal, (hslots _ extract_linkView).2.2.1⟩

end Schema
end ShaclExtract
