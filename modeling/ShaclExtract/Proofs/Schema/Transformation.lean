import ShaclExtract.Proofs.Schema.Dispatch
import ShaclExtract.Proofs.Schema.Registration
import ShaclExtract.Proofs.Schema.Traced

/-!
# ShaclExtract.Proofs.Schema.Transformation

Where the transform of a class has been applied. The slots of a class that has nothing but shapes
hold the records as the shapes put them out. What is handed out for an instance of the class, be it
to the caller, to a field or by dispatch, is the transformed record, with one exception: within the
run that extracts the instance there is no record yet, and the reference to its slot is handed out
(`Memo.Taken`).

Which of the two it is follows from the memo in which the slot of the run that takes the instance
had just been reserved, for no other run begins before and ends after a value was taken. Traced runs
note these memos (`Schema.transform_applied`).
-/

namespace ShaclExtract

/-- The value is the transformed record of the key. -/
def Memo.Applied (T : Value → Value) (key : MemoKey) (m : Memo) (v : Value) : Prop :=
  ∃ R, m.HasRecord key R ∧ v = T (.record R)

/-- The value is what is handed out for the key in a run that began with memo `m₀`: the transformed
record, or a reference while the record was being extracted. -/
def Memo.Taken (T : Value → Value) (key : MemoKey) (m₀ m : Memo) (v : Value) : Prop :=
  (¬ m₀.Unfinished key ∧ m.Applied T key v) ∨
    m₀.Unfinished key ∧ ∃ slot, m.lookup key = some slot ∧ v = .ref slot

theorem Memo.Taken.kept {T : Value → Value} {key : MemoKey} {m₀ m m' : Memo} {v : Value}
    (h : m.KeptBy m') (hv : Taken T key m₀ m v) : Taken T key m₀ m' v := by
  obtain ⟨hfinished, R, hR, rfl⟩ | ⟨hunfinished, slot, hslot, rfl⟩ := hv
  · exact .inl ⟨hfinished, R, hR.kept h, rfl⟩
  · exact .inr ⟨hunfinished, slot, h.entries _ _ hslot, rfl⟩

/-- The value is a record, and what its fields of the class hold is taken from the hops of their
paths. -/
def Shape.Takes (sh : Shape) (cls : Iri) (A : Term → Value → Prop) (view : View) (v : Value) :
    Prop :=
  ∃ fields, v = .record fields ∧ ∀ name w, (name, w) ∈ fields → ∃ f ∈ sh.properties,
    f.name = name ∧ (f.type = .ofClass cls → ∃ hops items,
      f.path.walk view.graph view.focus = .ok hops ∧ List.Forall₂ A hops items ∧
        if f.isList then w = .list items else items = [w])

theorem Shape.Takes.imp {sh : Shape} {cls : Iri} {A B : Term → Value → Prop} {view : View}
    {v : Value} (h : sh.Takes cls A view v) (hAB : ∀ n w, A n w → B n w) :
    sh.Takes cls B view v := by
  obtain ⟨fields, rfl, hfields⟩ := h
  refine ⟨fields, rfl, fun name w hmem => ?_⟩
  obtain ⟨f, hf, hname, htakes⟩ := hfields name w hmem
  refine ⟨f, hf, hname, fun hcls => ?_⟩
  obtain ⟨hops, items, hwalk, hitems, hw⟩ := htakes hcls
  exact ⟨hops, items, hwalk, hitems.imp hAB, hw⟩

namespace Setting

/-- The class has nothing but shapes. -/
def Shaped (S : Setting) (cls : Iri) : Prop :=
  ∀ p ∈ S.registry.alternativesOf cls, ∃ sh, p = .shape sh

/-- The class is the only one that applies, and the first one asserted. -/
def Alone (S : Setting) (cls : Iri) (view : View) : Prop :=
  S.applicable view = [cls] ∧ (assertedTypes view).head? = some cls

/-- The program can end with the value. -/
def PutsOut (S : Setting) (p : Program) (view : View) (v : Value) : Prop :=
  ∃ depth s s', p.extractor S .memoized (S.invoke .memoized depth) view s = some (.ok v, s')

/-- One of the programs of class `c` has put the value out, at the node or at one that has its key,
in a run that began with memo `m₀`; and if it is a shape, then what its fields of class `cls` hold
was taken in that run. -/
def FieldsTaken (S : Setting) (cls : Iri) (T : Value → Value) (programs : List Program) (c : Iri)
    (view : View) (m₀ m : Memo) (v : Value) : Prop :=
  ∃ p ∈ programs, ∃ node, classKey c node = classKey c view.focus ∧
    S.PutsOut p (view.refocus node) v ∧ ∀ sh, p = .shape sh →
      sh.Takes cls (fun n w => Memo.Taken T (classKey cls n) m₀ m w) (view.refocus node) v

variable {S : Setting} {g : Graph} {cls : Iri} {T : Value → Value}

/-- If only one class applies, then dispatch extracts an instance of it, but transforms it by the
type that is asserted first. -/
theorem dispatched_of_only {σ : Type} (E : Strategy σ) (invoke : Routine → Extractor σ View Value)
    {view : View} {type : Iri} (happ : S.applicable view = [cls])
    (hhead : (assertedTypes view).head? = some type) :
    S.dispatched E invoke view =
      (invoke (.ofClass cls)).andThen (S.transformed E type) view := by
  have hne : S.applicable view ≠ [] := by simp [happ]
  obtain ⟨type', htype, hdispatched⟩ := dispatched_eq E invoke hne
  cases htype.symm.trans hhead
  rw [hdispatched, happ, Extractor.andThen_apply, List.map_singleton]
  funext s
  simp only [Extractor.all_cons, Action.bindOk, Action.bind]
  rcases invoke (.ofClass cls) view s with _ | ⟨_ | _, _⟩ <;> rfl

/-- Where values of the class are taken, by the fields of shapes and by dispatch. -/
structure Transformed (S : Setting) (g : Graph) (cls : Iri) (T : Value → Value) (m₀ m : Memo)
    (key : MemoKey) (_ : SlotId) (v : Value) : Prop where
  fields : ∀ c node, key = classKey c node →
    S.FieldsTaken cls T (S.registry.alternativesOf c) c ⟨node, g⟩ m₀ m v
  dispatch : ∀ node, key = .of (.routine .dispatch) node → S.Alone cls ⟨node, g⟩ →
    Memo.Taken T (classKey cls node) m₀ m v

theorem FieldsTaken.kept {programs : List Program} {c : Iri} {view : View} {m₀ m m' : Memo}
    {v : Value} (h : S.FieldsTaken cls T programs c view m₀ m v) (hkept : m.KeptBy m') :
    S.FieldsTaken cls T programs c view m₀ m' v := by
  obtain ⟨p, hp, node, hnode, hputs, htakes⟩ := h
  exact ⟨p, hp, node, hnode, hputs, fun sh hsh => (htakes sh hsh).imp fun _ _ hw => hw.kept hkept⟩

theorem lasting_transformed (m₀ : Memo) : Memo.Lasting (S.Transformed g cls T m₀) :=
  fun _ _ _ _ _ hkept h => ⟨fun c node hkey => (h.fields c node hkey).kept hkept,
    fun node hkey halone => (h.dispatch node hkey halone).kept hkept⟩

theorem Transformed.record {c : Iri} {m₀ m : Memo} {node : Term} {slot : SlotId} {v : Value}
    (h : S.Transformed g cls T m₀ m (classKey c node) slot v)
    (hc : S.Shaped c) : ∃ R : Record, v = .record R := by
  obtain ⟨p, hp, _, _, _, htakes⟩ := h.fields c node rfl
  obtain ⟨sh, rfl⟩ := hc p hp
  obtain ⟨R, rfl, _⟩ := htakes sh rfl
  exact ⟨R, rfl⟩

theorem transformed_part (m₀ m : Memo) (number : Nat) (kind : TermKind) (lexical : String)
    (slot : SlotId) (v : Value) :
    S.Transformed g cls T m₀ m ⟨.part number, kind, lexical⟩ slot v where
  fields c node hkey := by cases hkey
  dispatch node hkey := by cases hkey

section runs

variable {depth : Nat} (hcls : S.Shaped cls)
  (hT : S.transforms.get? cls = some fun w => .ok (T w))
  (hd : S.Faithful g (S.Transformed g cls T) depth)
include hcls hT hd

/-- What is handed out for an instance is transformed, unless the instance was unfinished when the
run that takes it began. -/
theorem taken_of_instanceOf {view : View} (hv : view.graph = g) {e t t' : Traced} {v : Value}
    (he : e.Grows t) (ht : t.Intact (S.Transformed g cls T))
    (h : S.instanceOf .traced (S.invoke .traced depth) cls view t = some (.ok v, t')) :
    Memo.Taken T (classKey cls view.focus) e.state.memo t'.state.memo v := by
  rw [instanceOf, Extractor.andThen_apply] at h
  obtain ⟨u, t₁, hu, h⟩ := Action.ok_of_bindOk h
  obtain ⟨slot, rfl, hslot⟩ := hd.answers _ view hv t u t₁ ht hu
  obtain ⟨ht₁, hg⟩ := hd.keeps _ hv t _ t₁ hu ht
  have hgrows := (he.trans hg).memo
  simp only [transformed, hT] at h
  obtain hpending | ⟨w, hready⟩ := (ht₁.regular.live _ _ hslot).pending_or_ready
  · have hresolve : Strategy.traced.resolve t₁ (.ref slot) = .pending :=
      Memo.resolve_ref_of_pending hpending
    rw [hresolve] at h
    cases h
    exact .inr ⟨hgrows.unfinished ⟨slot, hslot, hpending⟩, slot, hslot, rfl⟩
  · obtain ⟨m₀, _, htransformed⟩ := ht₁.holds _ _ _ hslot hready
    obtain ⟨R, rfl⟩ := htransformed.record hcls
    have hresolve : Strategy.traced.resolve t₁ (.ref slot) = .record R :=
      Memo.resolve_ref hready (by simp)
    rw [hresolve] at h
    cases h
    refine .inl ⟨fun hunfinished => ?_, R, ⟨slot, hslot, hready⟩, rfl⟩
    obtain ⟨slot', hslot', hpending⟩ := hgrows.extension.unfinished hunfinished
    cases hslot.symm.trans hslot'
    cases hready.symm.trans hpending

theorem takes_of_shape {sh : Shape} {view : View} (hv : view.graph = g) {e t t' : Traced}
    {v : Value} (he : e.Grows t) (ht : t.Intact (S.Transformed g cls T))
    (h : sh.extractor (S.element .traced (S.invoke .traced depth)) view t = some (.ok v, t')) :
    sh.Takes cls (fun n w => Memo.Taken T (classKey cls n) e.state.memo t'.state.memo w) view v :=
    by
  have hkeeps : ∀ type n, (Traced.passage (S.Transformed g cls T)).Keeps
      (S.element .traced (S.invoke .traced depth) type (view.refocus n)) := fun type n =>
    Traced.keeps_of_together
      ((agrees_traced lasting_transformed transformed_part).element hd.together type hv)
  obtain ⟨fields, rfl, hfields⟩ := Passage.collects_of_shape hkeeps h
  refine ⟨fields, rfl, fun name w hmem => ?_⟩
  obtain ⟨f, hf, hname, hops, items, hwalk, hitems, hw⟩ := hfields name w hmem
  refine ⟨f, hf, hname, fun htype => ⟨hops, items, hwalk, hitems.imp fun n u hu => ?_, hw⟩⟩
  obtain ⟨t₁, t₂, hlead, hrun, hlead'⟩ := hu
  obtain ⟨ht₁, hg⟩ := hlead ht
  obtain ⟨ht₂, -⟩ := hkeeps f.type n _ _ _ hrun ht₁
  obtain ⟨-, hg'⟩ := hlead' ht₂
  rw [htype] at hrun
  have hv' : (view.refocus n).graph = g := hv
  have htaken := taken_of_instanceOf hcls hT hd hv' (he.trans hg) ht₁ hrun
  exact htaken.kept hg'.memo.extension.keptBy

end runs

theorem attests_transformed (hcls : S.Shaped cls)
    (hT : S.transforms.get? cls = some fun w => .ok (T w)) :
    S.Attests g (S.Transformed g cls T) where
  lasting := lasting_transformed
  part := transformed_part
  value := by
    intro r p view depth t t' v hp hv hd ht hk hrun ht' hg
    have henter := ht.enter lasting_transformed hk
    have hkept := Memo.keptBy_settle (Memo.pending_of_extends_reserve hg.memo.extension) v
    refine ⟨fun c node hkey => ?_, fun node hkey halone => ?_⟩
    · obtain rfl : r = .ofClass c := MemoKey.routine_eq hkey
      obtain ⟨ps, hps, rfl⟩ := Option.map_eq_some_iff.1 hp
      have halternatives : S.registry.alternativesOf c = ps := by
        rw [Registry.alternativesOf, hps, Option.getD_some]
      have htogether := Tandem.together_program (S := S)
        (agrees_traced (P := S.Transformed g cls T) lasting_transformed transformed_part)
        hd.together
      rw [Program.extractor, Program.extractors_eq_map] at hrun
      obtain ⟨x, hx, t₁, t₂, hlead, hrun₁, hlead'⟩ := Passage.occurs_firstOfAfter
        (K := Traced.passage (S.Transformed g cls T)) (fun x hx => by
          obtain ⟨q, _, rfl⟩ := List.mem_map.1 hx
          exact Traced.keeps_of_together (htogether q view hv)) hrun
      obtain ⟨q, hq, rfl⟩ := List.mem_map.1 hx
      obtain ⟨ht₁, hg₁⟩ := hlead henter
      obtain ⟨ht₂, -⟩ := Traced.keeps_of_together (htogether q view hv) _ _ _ hrun₁ ht₁
      obtain ⟨-, hg₂⟩ := hlead' ht₂
      have hview : View.refocus ⟨node, g⟩ view.focus = view := by rw [← hv]; rfl
      refine ⟨q, halternatives ▸ hq, view.focus, hkey, ?_, ?_⟩
      · rw [hview]
        exact ⟨depth, _, _, Traced.run_of_together (htogether q view hv) ht₁ hrun₁⟩
      · rintro sh rfl
        rw [hview]
        exact (takes_of_shape hcls hT hd hv hg₁ ht₁ hrun₁).imp fun _ _ hw =>
          hw.kept (hg₂.memo.extension.keptBy.trans hkept)
    · obtain rfl : r = .dispatch := MemoKey.routine_eq hkey
      cases hp
      obtain ⟨happ, hhead⟩ := halone
      have hne : S.applicable ⟨node, g⟩ ≠ [] := by simp [happ]
      obtain rfl : view = ⟨node, g⟩ := by
        obtain rfl : view.focus = node := MemoKey.node_eq hkey fun l l' _ hl' =>
          absurd hl' (not_literal_of_types (types_ne_nil hne) l')
        rw [← hv]
      rw [Program.extractor, dispatched_of_only .traced _ happ hhead] at hrun
      exact (taken_of_instanceOf hcls hT hd hv (.refl _) henter hrun).kept hkept

end Setting

/-! ## extraction -/

namespace Schema

variable {options : Options} {shapes : Graph} {schema : Schema} {view : View} {x : Extraction}
  {r : Routine}

/-- The traced run does what the extraction does. -/
inductive Traces (schema : Schema) (view : View) (x : Extraction) : Routine → Traced → Prop where
  | byClass {cls : Iri} {t : Traced} :
      schema.setting.instanceOf .traced
        (schema.setting.invoke .traced (schema.setting.depth view.graph)) cls view .start =
          some (.ok x.raw, t) →
      t.state.memo = x.memo → Traces schema view x (.ofClass cls) t
  | byType {t : Traced} :
      Setting.typed (schema.setting.invoke .traced (schema.setting.depth view.graph)) view .start =
        some (.ok (some x.raw), t) →
      t.state.memo = x.memo → Traces schema view x .dispatch t

theorem Traces.memo {t : Traced} (h : schema.Traces view x r t) : t.state.memo = x.memo := by
  cases h <;> assumption

theorem Extracts.traced {P : Memo → Memo → MemoKey → SlotId → Value → Prop}
    (hS : schema.setting.Attests view.graph P) (h : schema.Extracts view x r) :
    ∃ t : Traced, schema.Traces view x r t ∧ t.Intact P ∧ Traced.start.Grows t := by
  have hfaithful := hS.faithful (schema.setting.depth view.graph)
  cases h with
  | @byClass cls h =>
    obtain ⟨s, hrun, hmemo⟩ := extract_cases h
    have htogether := (Setting.agrees_traced hS.lasting hS.part).element (S := schema.setting)
      hfaithful.together (.ofClass cls) rfl
    obtain ⟨t, ht, rfl, hintact, hg⟩ :=
      Traced.traced_of_together htogether Traced.intact_start hrun
    exact ⟨t, .byClass ht hmemo, hintact, hg⟩
  | byType h =>
    obtain ⟨s, hrun, hmemo⟩ := extractTyped_cases h
    have hsame : ∀ a b : Option Value, Option.Rel Eq a b → a = b := by
      rintro _ _ (⟨rfl⟩ | _) <;> rfl
    have htogether := (Tandem.together_typed Iff.rfl
      (hfaithful.together .dispatch view rfl)).imp hsame
    obtain ⟨t, ht, rfl, hintact, hg⟩ :=
      Traced.traced_of_together htogether Traced.intact_start hrun
    exact ⟨t, .byType ht hmemo, hintact, hg⟩

theorem alternativesOf_of_compile (hc : compile options shapes = some (.ok schema)) (c : Iri) :
    schema.setting.registry.alternativesOf c = alternatives options.custom schema.shapes c := by
  obtain ⟨read, _, rfl⟩ := compile_cases hc
  rw [Registry.alternativesOf, get?_registry]
  split
  · rename_i hnil
    rw [hnil, Option.getD_none]
  · rw [Option.getD_some]

theorem shape_of_mem_alternatives {custom : List (Iri × Program)} {read : List Shape} {cls : Iri}
    (hbuiltin : cls ∉ builtinClasses) (hcustom : ∀ e ∈ custom, e.1 ≠ cls) :
    ∀ p ∈ alternatives custom read cls, ∃ sh, p = .shape sh := by
  have hcustom : Table.lastWritten cls custom = none := by
    have hnil : custom.filter (fun e => e.1 = cls) = [] :=
      List.filter_eq_nil_iff.2 fun e he => by simpa using hcustom e he
    simp [Table.lastWritten, hnil]
  have hbuiltin : Table.lastWritten cls Registry.builtinPrograms = none := by
    simp only [builtinClasses, List.mem_cons, List.not_mem_nil, or_false, not_or] at hbuiltin
    simp [Table.lastWritten, Registry.builtinPrograms, Ne.symm hbuiltin.1, Ne.symm hbuiltin.2.1,
      Ne.symm hbuiltin.2.2.1, Ne.symm hbuiltin.2.2.2]
  intro p hp
  rw [alternatives, hcustom, hbuiltin] at hp
  obtain ⟨sh, _, rfl⟩ := List.mem_map.1 hp
  exact ⟨sh, rfl⟩

variable {cls : Iri} {T : Value → Value}

theorem extractTyped_of_only {cls type : Iri} (happ : schema.setting.applicable view = [cls])
    (hhead : (Setting.assertedTypes view).head? = some type) {v : Value} {s : RunState}
    (hrun : Memo.shared (.routine .dispatch)
      ((schema.setting.invoke .memoized (schema.setting.depth view.graph - 1)
        (.ofClass cls)).andThen (schema.setting.transformed .memoized type)) view (.start .empty) =
          some (.ok v, s)) :
    schema.extractTyped view = some (.ok (some ⟨v, s.memo⟩)) := by
  refine extractTyped_of_run (r := .ok (some v)) ?_
  have hne : schema.setting.applicable view ≠ [] := by simp [happ]
  have htypes := Setting.types_ne_nil hne
  have hinvoke : schema.setting.invoke .memoized (schema.setting.depth view.graph) .dispatch view
      (.start .empty) = some (.ok v, s) := by
    rw [← hrun]
    simp only [Memo.shared, ← Setting.dispatched_of_only .memoized _ happ hhead]
    rfl
  simp only [typedExtractor, Setting.run, Setting.typed, htypes, if_false, Extractor.map, hinvoke]

theorem record_of_byClass
    (hcls : schema.setting.Shaped cls)
    (hT : schema.setting.transforms.get? cls = some fun w => .ok (T w)) {t : Traced}
    (h : schema.Traces view x (.ofClass cls) t) :
    x.memo.Applied T (classKey cls view.focus) x.raw := by
  obtain ⟨hrun, hmemo⟩ := h
  have hS := Setting.attests_transformed (g := view.graph) hcls hT
  obtain ⟨-, R, hR, hraw⟩ | ⟨⟨_, hslot, _⟩, _⟩ := Setting.taken_of_instanceOf hcls hT
    (hS.faithful _) rfl (.refl _) Traced.intact_start hrun
  · exact ⟨R, hmemo ▸ hR, hraw⟩
  · cases hslot

theorem record_of_byType
    (hcls : schema.setting.Shaped cls)
    (hT : schema.setting.transforms.get? cls = some fun w => .ok (T w)) {t : Traced}
    (h : schema.Traces view x .dispatch t) (halone : schema.setting.Alone cls view) :
    ∃ slot v, x.raw = .ref slot ∧ x.memo.slot? slot = some (.ready v) ∧
      x.memo.Applied T (classKey cls view.focus) v := by
  obtain ⟨happ, hhead⟩ := halone
  rcases h with _ | ⟨hrun, hmemo⟩
  have hS := Setting.attests_transformed (g := view.graph) hcls hT
  have hne : schema.setting.applicable view ≠ [] := by simp [happ]
  simp only [Setting.typed, if_neg (Setting.types_ne_nil hne), Setting.depth] at hrun
  obtain ⟨u, hu, hraw⟩ := Extractor.ok_of_map hrun
  cases hraw
  generalize (_ : Nat) * _ = n at hu
  simp only [Setting.invoke, Setting.program?] at hu
  obtain ⟨v, t', hv, hraw, rfl⟩ := Traced.shared_of_ok (t := .start) rfl hu
  have hfaithful := hS.faithful n
  have hkeeps := Traced.keeps_of_together (Tandem.together_program (S := schema.setting)
    (Setting.agrees_traced hS.lasting hS.part) hfaithful.together .dispatch view rfl)
  have henter : (Traced.start.enter (.of (.routine .dispatch) view.focus)).Intact _ :=
    Traced.intact_start.enter hS.lasting rfl
  obtain ⟨-, hg⟩ := hkeeps _ _ _ hv henter
  rw [Program.extractor, Setting.dispatched_of_only .traced _ happ hhead] at hv
  rw [← hmemo]
  obtain ⟨-, R, hR, rfl⟩ | ⟨hunfinished, _⟩ :=
    Setting.taken_of_instanceOf hcls hT hfaithful rfl (.refl _) henter hv
  · have hkept := Memo.keptBy_settle (Memo.pending_of_extends_reserve hg.memo.extension)
    exact ⟨_, _, hraw, Memo.slot?_settle_next hg.memo.extension _, R, hR.kept (hkept _), rfl⟩
  · obtain hkey | ⟨_, hslot, _⟩ := hunfinished.of_reserve Memo.bounded_empty
    · cases hkey
    · cases hslot

/-- The run that filled the slot began with memo `m₀`. -/
def Wrote (t : Traced) (x : Extraction) (slot : SlotId) (m₀ : Memo) (v : Value) : Prop :=
  t.entered[slot.index]? = some m₀ ∧ x.memo.slot? slot = some (.ready v)

/-- Where the transform of the class has been applied in an extraction, and where it has not: its
slots hold the records, and each field of the class and each dispatch has what was taken in the run
that wrote it. A transformed record that is no reference is not resolved any further. -/
structure Transforms (options : Options) (schema : Schema) (view : View) (cls : Iri)
    (T : Value → Value) (x : Extraction) (t : Traced) : Prop where
  resolved : ∀ R, (∀ slot, T (.record R) ≠ .ref slot) → x.resolve (T (.record R)) = T (.record R)
  records : ∀ node slot, x.memo.lookup (classKey cls node) = some slot →
    ∃ R, x.memo.HasRecord (classKey cls node) R
  fields : ∀ c node slot, x.memo.lookup (classKey c node) = some slot → ∃ m₀ v,
    Wrote t x slot m₀ v ∧ schema.setting.FieldsTaken cls T
      (alternatives options.custom schema.shapes c) c (view.refocus node) m₀ x.memo v
  dispatch : ∀ node slot, x.memo.lookup (.of (.routine .dispatch) node) = some slot →
    schema.setting.Alone cls (view.refocus node) → ∃ m₀ v,
      Wrote t x slot m₀ v ∧ Memo.Taken T (classKey cls node) m₀ x.memo v

theorem Traces.transforms (hc : compile options shapes = some (.ok schema))
    (hcls : schema.setting.Shaped cls) {t : Traced} (h : schema.Traces view x r t)
    (hintact : t.Intact (schema.setting.Transformed view.graph cls T))
    (hg : Traced.start.Grows t) : Transforms options schema view cls T x t := by
  have hwrote : ∀ key slot, x.memo.lookup key = some slot → ∃ m₀ v, Wrote t x slot m₀ v ∧
      schema.setting.Transformed view.graph cls T m₀ x.memo key slot v := by
    intro key slot hslot
    rw [← h.memo] at hslot ⊢
    obtain hpending | ⟨v, hv⟩ := (hintact.regular.live _ _ hslot).pending_or_ready
    · cases hg.memo.finished _ hpending
    · obtain ⟨m₀, hm₀, htransformed⟩ := hintact.holds _ _ _ hslot hv
      exact ⟨m₀, v, ⟨hm₀, h.memo ▸ hv⟩, htransformed⟩
  refine ⟨fun R hR => ?_, fun node slot hslot => ?_, fun c node slot hslot => ?_,
    fun node slot hslot halone => ?_⟩
  · exact (Memo.Chain.stop hR).resolve_eq
  · obtain ⟨m₀, v, ⟨-, hv⟩, htransformed⟩ := hwrote _ _ hslot
    obtain ⟨R, rfl⟩ := htransformed.record hcls
    exact ⟨R, slot, hslot, hv⟩
  · obtain ⟨m₀, v, hv, htransformed⟩ := hwrote _ _ hslot
    exact ⟨m₀, v, hv, alternativesOf_of_compile hc c ▸ htransformed.fields c node rfl⟩
  · obtain ⟨m₀, v, hv, htransformed⟩ := hwrote _ _ hslot
    exact ⟨m₀, v, hv, htransformed.dispatch node rfl halone⟩

/-- Take a class that has nothing but shapes and a transform that does not fail. Extracting the
class gives the transformed record, as does dispatch where the class is the only one that applies
and the first one asserted, and in every extraction so does each field of the class and each such
dispatch, unless the instance is being extracted when the run begins that takes it. Then they give
the reference to the slot of the record. -/
theorem transform_applied (hc : compile options shapes = some (.ok schema)) {cls : Iri}
    (hbuiltin : cls ∉ builtinClasses) (hcustom : ∀ e ∈ options.custom, e.1 ≠ cls)
    {T : Value → Value} (hT : options.transforms.get? cls = some fun w => .ok (T w))
    (view : View) :
    (∀ x, schema.extract cls view = some (.ok x) →
      x.memo.Applied T (classKey cls view.focus) x.raw) ∧
    (schema.setting.Alone cls view → ∀ x, schema.extractTyped view = some (.ok (some x)) →
      ∃ slot v, x.raw = .ref slot ∧ x.memo.slot? slot = some (.ready v) ∧
        x.memo.Applied T (classKey cls view.focus) v) ∧
    ∀ x r, schema.Extracts view x r →
      ∃ t, schema.Traces view x r t ∧ Transforms options schema view cls T x t := by
  have hcls : schema.setting.Shaped cls := by
    rw [Setting.Shaped, alternativesOf_of_compile hc]
    exact shape_of_mem_alternatives hbuiltin hcustom
  have htransforms : schema.setting.transforms.get? cls = some fun w => .ok (T w) := by
    rw [transforms_eq_of_compile hc, hT]
  have hS : schema.setting.Attests view.graph (schema.setting.Transformed view.graph cls T) :=
    Setting.attests_transformed hcls htransforms
  refine ⟨fun x hx => ?_, fun halone x hx => ?_, fun x r hx => ?_⟩
  · obtain ⟨t, htraces, _, _⟩ := (Extracts.byClass hx).traced hS
    exact record_of_byClass hcls htransforms htraces
  · obtain ⟨t, htraces, _, _⟩ := (Extracts.byType hx).traced hS
    exact record_of_byType hcls htransforms htraces halone
  · obtain ⟨t, htraces, hintact, hg⟩ := hx.traced hS
    exact ⟨t, htraces, htraces.transforms hc hcls hintact hg⟩

/-! ## a number in place of each record -/

def numbering : Options :=
  { Options.default with transforms := Table.empty.insert ⟨"C"⟩ fun _ => .ok (.integer 5) }

/-- The class of `link`, whose instances are numbers, and a subclass that has no shape. -/
def numberedShapes : Graph := linkShapes ++ [⟨.iri ⟨"D"⟩, Rdfs.subClassOf, .iri ⟨"C"⟩, none⟩]

def numberedSchema : Schema :=
  ⟨[link], registry [] [link], .ofGraph numberedShapes, numbering.transforms, fun _ => none, .empty⟩

theorem compile_numberedShapes : compile numbering numberedShapes = some (.ok numberedSchema) :=
  compile_of_readAll (by rfl) numbering

def numberedView : View :=
  ⟨.iri ⟨"a"⟩, linkView.graph ++ [⟨.iri ⟨"b"⟩, Rdf.type, .iri ⟨"D"⟩, none⟩]⟩

/-- The second instance is reached while the first is being extracted. -/
def numberedExtraction : Extraction :=
  ⟨.integer 5,
    ⟨[.ready (.record [("next", .integer 5)]), .ready (.record [("next", .ref ⟨0⟩)])],
      [(classKey ⟨"C"⟩ (.iri ⟨"b"⟩), ⟨1⟩), (classKey ⟨"C"⟩ (.iri ⟨"a"⟩), ⟨0⟩)]⟩⟩

/-- What dispatch gives at one of the instances, with what it has in its slot. -/
def numberedDispatch (v : Value) (node other : Iri) : Extraction :=
  ⟨.ref ⟨0⟩,
    ⟨[.ready v, .ready (.record [("next", .integer 5)]), .ready (.record [("next", .ref ⟨1⟩)])],
      [(classKey ⟨"C"⟩ (.iri other), ⟨2⟩), (classKey ⟨"C"⟩ (.iri node), ⟨1⟩),
        (.of (.routine .dispatch) (.iri node), ⟨0⟩)]⟩⟩

theorem extract_numberedView :
    numberedSchema.extract ⟨"C"⟩ numberedView = some (.ok numberedExtraction) := by rfl

theorem applicable_numberedView {node : Iri} (h : node = ⟨"a"⟩ ∨ node = ⟨"b"⟩) :
    numberedSchema.setting.applicable (numberedView.refocus (.iri node)) = [⟨"C"⟩] := by
  rcases h with rfl | rfl <;> decide +kernel

theorem extractTyped_numberedView :
    numberedSchema.extractTyped numberedView =
      some (.ok (some (numberedDispatch (.integer 5) ⟨"a"⟩ ⟨"b"⟩))) :=
  extractTyped_of_only (applicable_numberedView (.inl rfl)) rfl rfl

/-- The subclass is asserted, and has no transform. -/
theorem extractTyped_numberedView_refocus :
    numberedSchema.extractTyped (numberedView.refocus (.iri ⟨"b"⟩)) =
      some (.ok (some (numberedDispatch (.ref ⟨1⟩) ⟨"b"⟩ ⟨"a"⟩))) :=
  extractTyped_of_only (applicable_numberedView (.inr rfl)) rfl rfl

/-- The first instance and its link to the second are numbers, by class and by type. -/
theorem transform_applied_numbered :
    compile numbering numberedShapes = some (.ok numberedSchema) ∧
    (⟨"C"⟩ : Iri) ∉ builtinClasses ∧ (∀ e ∈ numbering.custom, e.1 ≠ ⟨"C"⟩) ∧
    (numbering.transforms.get? ⟨"C"⟩ = some fun _ => .ok (.integer 5)) ∧
    numberedSchema.extract ⟨"C"⟩ numberedView = some (.ok numberedExtraction) ∧
    numberedExtraction.memo.Applied (fun _ => .integer 5) (classKey ⟨"C"⟩ numberedView.focus)
      (.integer 5) ∧
    numberedSchema.setting.Alone ⟨"C"⟩ numberedView ∧
    numberedSchema.extractTyped numberedView =
      some (.ok (some (numberedDispatch (.integer 5) ⟨"a"⟩ ⟨"b"⟩))) ∧
    (∃ slot v, (numberedDispatch (.integer 5) ⟨"a"⟩ ⟨"b"⟩).raw = .ref slot ∧
      (numberedDispatch (.integer 5) ⟨"a"⟩ ⟨"b"⟩).memo.slot? slot = some (.ready v) ∧
      (numberedDispatch (.integer 5) ⟨"a"⟩ ⟨"b"⟩).memo.Applied (fun _ => .integer 5)
        (classKey ⟨"C"⟩ numberedView.focus) v) ∧
    numberedExtraction.memo.lookup (classKey ⟨"C"⟩ (.iri ⟨"a"⟩)) = some ⟨0⟩ ∧
    ∃ t, numberedSchema.Traces numberedView numberedExtraction (.ofClass ⟨"C"⟩) t ∧
      ∃ m₀ v, Wrote t numberedExtraction ⟨0⟩ m₀ v ∧
        numberedSchema.setting.FieldsTaken ⟨"C"⟩ (fun _ => .integer 5)
          (alternatives numbering.custom numberedSchema.shapes ⟨"C"⟩) ⟨"C"⟩
          (numberedView.refocus (.iri ⟨"a"⟩)) m₀ numberedExtraction.memo v := by
  have hbuiltin : (⟨"C"⟩ : Iri) ∉ builtinClasses := by decide
  have hcustom : ∀ e ∈ numbering.custom, e.1 ≠ ⟨"C"⟩ := by simp [numbering, Options.default]
  obtain ⟨hclass, htype, hfields⟩ := transform_applied compile_numberedShapes hbuiltin hcustom
    (T := fun _ => .integer 5) rfl numberedView
  have halone : numberedSchema.setting.Alone ⟨"C"⟩ numberedView :=
    ⟨applicable_numberedView (.inl rfl), rfl⟩
  obtain ⟨t, ht, htransforms⟩ := hfields _ _ (.byClass extract_numberedView)
  exact ⟨compile_numberedShapes, hbuiltin, hcustom, rfl, extract_numberedView,
    hclass _ extract_numberedView, halone, extractTyped_numberedView,
    htype halone _ extractTyped_numberedView, rfl, t, ht,
    htransforms.fields ⟨"C"⟩ (.iri ⟨"a"⟩) ⟨0⟩ rfl⟩

/-- The link back to the first instance is a reference to its record, since that is still being
extracted; and dispatch at the instance of the subclass gives the record of the class. -/
theorem untransformed_numbered :
    compile numbering numberedShapes = some (.ok numberedSchema) ∧
    (⟨"C"⟩ : Iri) ∉ builtinClasses ∧ (∀ e ∈ numbering.custom, e.1 ≠ ⟨"C"⟩) ∧
    (numbering.transforms.get? ⟨"C"⟩ = some fun _ => .ok (.integer 5)) ∧
    numberedSchema.extract ⟨"C"⟩ numberedView = some (.ok numberedExtraction) ∧
    numberedExtraction.memo.HasRecord (classKey ⟨"C"⟩ (.iri ⟨"a"⟩)) [("next", .integer 5)] ∧
    numberedExtraction.memo.HasRecord (classKey ⟨"C"⟩ (.iri ⟨"b"⟩)) [("next", .ref ⟨0⟩)] ∧
    numberedExtraction.resolve (.ref ⟨0⟩) = .record [("next", .integer 5)] ∧
    numberedSchema.setting.applicable (numberedView.refocus (.iri ⟨"b"⟩)) = [⟨"C"⟩] ∧
    numberedSchema.extractTyped (numberedView.refocus (.iri ⟨"b"⟩)) =
      some (.ok (some (numberedDispatch (.ref ⟨1⟩) ⟨"b"⟩ ⟨"a"⟩))) ∧
    (numberedDispatch (.ref ⟨1⟩) ⟨"b"⟩ ⟨"a"⟩).memo.HasRecord (classKey ⟨"C"⟩ (.iri ⟨"b"⟩))
      [("next", .integer 5)] ∧
    (numberedDispatch (.ref ⟨1⟩) ⟨"b"⟩ ⟨"a"⟩).value = .record [("next", .integer 5)] := by
  have hcustom : ∀ e ∈ numbering.custom, e.1 ≠ ⟨"C"⟩ := by simp [numbering, Options.default]
  exact ⟨compile_numberedShapes, by decide, hcustom, rfl, extract_numberedView, ⟨⟨0⟩, rfl, rfl⟩,
    ⟨⟨1⟩, rfl, rfl⟩, rfl, applicable_numberedView (.inr rfl), extractTyped_numberedView_refocus,
    ⟨⟨1⟩, rfl, rfl⟩, rfl⟩

end Schema
end ShaclExtract
