import ShaclExtract.Proofs.Dialogue.Filling
import ShaclExtract.Proofs.Extractor.Outputs
import ShaclExtract.Proofs.Extractor.Safety
import ShaclExtract.Proofs.Schema.Fixpoint

/-!
# ShaclExtract.Proofs.Schema.Contents

What the slots of classes hold when a schema without programs of one's own has extracted something:
a record that one of the shapes of the class reads at the node of the slot (`Shape.Reads`). Where
the record refers to instances of a class, each reference is to the slot of the node itself that the
path has led to.
-/

theorem List.Forall₂.exists_map {α β γ : Type} {R : α → γ → Prop} {f : γ → β} {as : List α}
    {bs : List β} (h : List.Forall₂ (fun a b => ∃ c, b = f c ∧ R a c) as bs) :
    ∃ cs : List γ, bs = cs.map f ∧ List.Forall₂ R as cs := by
  induction h with
  | nil => exact ⟨[], rfl, .nil⟩
  | cons hab _ ih =>
    obtain ⟨c, rfl, hc⟩ := hab
    obtain ⟨cs, rfl, hcs⟩ := ih
    exact ⟨c :: cs, rfl, .cons hc hcs⟩

namespace ShaclExtract

/-- The value is of the type and read from the node: an instance of a class has the slot of the
node. -/
def ValueType.Reads (env : Environment) (g : Graph) (m : Memo) : ValueType → Term → Value → Prop
  | .ofClass cls, node, v => ∃ slot, v = .ref slot ∧ m.lookup (classKey cls node) = some slot
  | .datatype d, node, v => Datatype.extract env d ⟨node, g⟩ = .ok v

/-- The value has an item for each hop of the path, in order, read from that hop. -/
def Property.Reads (f : Property) (env : Environment) (m : Memo) (view : View) (v : Value) : Prop :=
  ∃ hops items, f.path.walk view.graph view.focus = .ok hops ∧
    List.Forall₂ (f.type.Reads env view.graph m) hops items ∧
    if f.isList then v = .list items else items = [v]

def Property.Counted (f : Property) (view : View) : Prop :=
  ∀ hops, f.path.walk view.graph view.focus = .ok hops → f.Counts hops.length

theorem Property.Counted.of_walk {f : Property} {view : View} {hops : List Term}
    (hwalk : f.path.walk view.graph view.focus = .ok hops) (h : f.Counts hops.length) :
    f.Counted view := by
  intro hops' hwalk'
  cases hwalk.symm.trans hwalk'
  exact h

/-- The record has the field of the property and no other. -/
def Property.Fills (f : Property) (env : Environment) (m : Memo) (view : View) (r : Record) :
    Prop :=
  ∃ v, r = [(f.name, v)] ∧ f.Reads env m view v ∧ f.Counted view

/-- The value is a record, each field of which is read by a property of that name. -/
def Shape.Reads (sh : Shape) (env : Environment) (m : Memo) (view : View) (v : Value) : Prop :=
  ∃ fields, v = .record fields ∧
    ∀ name w, (name, w) ∈ fields → ∃ f ∈ sh.properties, f.name = name ∧ f.Reads env m view w

section kept

variable {m m' : Memo} {env : Environment}

theorem ValueType.Reads.kept {g : Graph} {t : ValueType} {node : Term} {v : Value}
    (h : t.Reads env g m node v) (hkept : m.KeptBy m') : t.Reads env g m' node v := by
  cases t with
  | ofClass cls =>
    obtain ⟨slot, rfl, hslot⟩ := h
    exact ⟨slot, rfl, hkept.entries _ _ hslot⟩
  | datatype d => exact h

theorem Property.Reads.kept {f : Property} {view : View} {v : Value} (h : f.Reads env m view v)
    (hkept : m.KeptBy m') : f.Reads env m' view v := by
  obtain ⟨hops, items, hwalk, hitems, hv⟩ := h
  exact ⟨hops, items, hwalk, hitems.imp fun _ _ h => h.kept hkept, hv⟩

theorem Property.Fills.kept {f : Property} {view : View} {r : Record} (h : f.Fills env m view r)
    (hkept : m.KeptBy m') : f.Fills env m' view r := by
  obtain ⟨v, rfl, hv, hcount⟩ := h
  exact ⟨v, rfl, hv.kept hkept, hcount⟩

theorem Shape.Reads.kept {sh : Shape} {view : View} {v : Value} (h : sh.Reads env m view v)
    (hkept : m.KeptBy m') : sh.Reads env m' view v := by
  obtain ⟨fields, rfl, hfields⟩ := h
  refine ⟨fields, rfl, fun name w hmem => ?_⟩
  obtain ⟨f, hf, hname, hreads⟩ := hfields name w hmem
  exact ⟨f, hf, hname, hreads.kept hkept⟩

end kept

namespace Record

theorem mem_insert {r : Record} {name : String} {v : Value} {field : String × Value}
    (h : field ∈ r.insert name v) : field = (name, v) ∨ field ∈ r := by
  induction r with
  | nil => exact .inl (List.mem_singleton.1 h)
  | cons f r ih =>
    obtain ⟨n, w⟩ := f
    unfold insert at h
    split at h
    · exact (List.mem_cons.1 h).imp id (List.mem_cons_of_mem _)
    · split at h
      · exact List.mem_cons.1 h
      · rcases List.mem_cons.1 h with rfl | h
        · exact .inr List.mem_cons_self
        · exact (ih h).imp id (List.mem_cons_of_mem _)

theorem mem_merge {old new : Record} {field : String × Value} (h : field ∈ merge old new) :
    field ∈ new ∨ field ∈ old := by
  induction new generalizing old with
  | nil => exact .inr h
  | cons f new ih =>
    have hrest : field ∈ new ∨ field ∈ old.insert f.1 f.2 := ih h
    rcases hrest with h | h
    · exact .inl (List.mem_cons_of_mem _ h)
    · rcases mem_insert h with rfl | h
      · exact .inl List.mem_cons_self
      · exact .inr h

theorem mem_ofList {fields : List (String × Value)} {field : String × Value}
    (h : field ∈ ofList fields) : field ∈ fields :=
  (mem_merge h).elim id fun h => absurd h List.not_mem_nil

end Record

/-! ## what extractors of shapes put out -/

namespace Yields

variable {env : Environment} {view : View}

/-- What a property reads, from as many hops as it may have. -/
theorem value {f : Property} {target : Iri} {element : Extractor RunState View Value}
    (h : ∀ node, Yields (fun m v => f.type.Reads env view.graph m node v)
      (element (view.refocus node))) :
    Yields (fun m v => f.Reads env m view v ∧ f.Counted view) (f.value target element view) := by
  have hlasting : ∀ m m' v, m.KeptBy m' → f.Reads env m view v ∧ f.Counted view →
      f.Reads env m' view v ∧ f.Counted view := fun _ _ _ hkept h => ⟨h.1.kept hkept, h.2⟩
  cases hwalk : f.path.walk view.graph view.focus with
  | error e =>
    rw [Property.value_of_error hwalk]
    refine (answer _).mono hlasting ?_
    rintro m v ⟨⟩
  | ok hops =>
    cases hl : f.isList with
    | true =>
      rw [Property.value_of_isList hl hwalk]
      have heach := each (A := fun m hop => f.type.Reads env view.graph m hop)
        fun hop (_ : hop ∈ hops) => h hop
      refine (heach.bindOk fun items => answer _).mono hlasting ?_
      rintro m v ⟨items, hitems, hv⟩
      split at hv
      · rename_i hadmits
        cases hv
        rw [← hitems.length_eq] at hadmits
        exact ⟨⟨hops, items, hwalk, hitems, by rw [hl, if_pos rfl]⟩,
          .of_walk hwalk ((Property.counts_of_isList hl _).2 hadmits)⟩
      · cases hv
    | false =>
      by_cases hone : hops.length = 1
      · obtain ⟨node, rfl⟩ := List.length_eq_one_iff.1 hone
        rw [Property.value_of_single hl hwalk]
        refine (h node).mono hlasting fun m v hv => ?_
        exact ⟨⟨[node], [v], hwalk, .cons hv .nil, by rw [hl]; rfl⟩,
          .of_walk hwalk ((Property.counts_of_not_isList hl _).2 rfl)⟩
      · rw [Property.value_of_missing hl hwalk hone]
        refine (answer _).mono hlasting ?_
        rintro m v ⟨⟩

theorem entry {f : Property} {shapeId : String} {target : Iri}
    {element : Extractor RunState View Value}
    (h : ∀ node, Yields (fun m v => f.type.Reads env view.graph m node v)
      (element (view.refocus node))) :
    Yields (fun m r => f.Fills env m view r ∨
      r = [] ∧ f.minCount = 0 ∧ ¬ Safe (f.value target element view))
      (f.entry shapeId target element view) := by
  have hlasting : ∀ (m m' : Memo) (r : Record), m.KeptBy m' →
      (f.Fills env m view r ∨ r = [] ∧ f.minCount = 0 ∧ ¬ Safe (f.value target element view)) →
        f.Fills env m' view r ∨ r = [] ∧ f.minCount = 0 ∧ ¬ Safe (f.value target element view) :=
    fun _ _ _ hkept h => h.imp_left fun h => h.kept hkept
  have hfilled : Yields (fun m r => f.Fills env m view r ∨
      r = [] ∧ f.minCount = 0 ∧ ¬ Safe (f.value target element view))
      ((((f.value target element).mapError (f.located shapeId target)).map
        fun v => [(f.name, v)]) view) := by
    refine (((value h).mapError _).map _).mono hlasting ?_
    rintro m r ⟨v, ⟨hv, hcount⟩, rfl⟩
    exact .inl ⟨v, rfl, hv, hcount⟩
  by_cases hmin : f.minCount = 0
  · rw [Property.entry_of_optional hmin]
    by_cases hsafe : Safe (f.value target element view)
    · rw [((hsafe.mapError _).map _).bindError_eq]
      exact hfilled
    · refine hfilled.bindError fun e => (answer (.ok [])).mono hlasting ?_
      rintro m r ⟨⟩
      exact .inr ⟨rfl, hmin, hsafe⟩
  · rw [Property.entry_of_mandatory hmin]
    exact hfilled

theorem entries {sh : Shape} {element : ValueType → Extractor RunState View Value}
    (h : ∀ t node, Yields (fun m v => t.Reads env view.graph m node v)
      (element t (view.refocus node))) :
    Yields (fun m v => ∃ entries : List Record, v = .record (Record.ofList entries.flatten) ∧
      List.Forall₂ (fun f r => f.Fills env m view r ∨ r = [] ∧ f.minCount = 0 ∧
        ¬ Safe (f.value sh.target (element f.type) view)) sh.properties entries)
      (sh.extractor element view) := by
  have hall := all (A := fun m (f : Property) (r : Record) => f.Fills env m view r ∨
      r = [] ∧ f.minCount = 0 ∧ ¬ Safe (f.value sh.target (element f.type) view))
    (l := sh.properties) (x := fun f => f.entry sh.id sh.target (element f.type)) (i := view)
    fun f _ => entry (h f.type)
  refine (hall.map _).mono ?_ ?_
  · rintro m m' v hkept ⟨entries, rfl, hentries⟩
    exact ⟨entries, rfl, hentries.imp fun _ _ h => h.imp_left fun h => h.kept hkept⟩
  · rintro m v ⟨entries, hentries, rfl⟩
    exact ⟨entries, rfl, hentries⟩

theorem shape {sh : Shape} {element : ValueType → Extractor RunState View Value}
    (h : ∀ t node, Yields (fun m v => t.Reads env view.graph m node v)
      (element t (view.refocus node))) :
    Yields (fun m v => sh.Reads env m view v) (sh.extractor element view) := by
  refine (entries h).mono (fun _ _ _ hkept h => h.kept hkept) ?_
  rintro m v ⟨entries, rfl, hentries⟩
  refine ⟨_, rfl, fun name w hmem => ?_⟩
  obtain ⟨r, hr, hfield⟩ := List.mem_flatten.1 (Record.mem_ofList hmem)
  obtain ⟨f, hf, ⟨u, rfl, hreads, _⟩ | ⟨rfl, _⟩⟩ := hentries.exists_of_mem r hr
  · cases List.mem_singleton.1 hfield
    exact ⟨f, hf, rfl, hreads⟩
  · cases hfield

end Yields

/-! ## what routines put out -/

namespace Setting

variable {S : Setting}

theorem yields_routine (hS : S.Honest) (depth : Nat) (r : Routine) (view : View) :
    Yields (fun m v => ∃ slot, v = .ref slot ∧
      m.lookup (.of (.routine r) view.focus) = some slot) (S.invoke .memoized depth r view) where
  extending := asked_extends hS depth (.routine r) view
  lasting := by
    rintro m m' v hkept ⟨slot, rfl, hslot⟩
    exact ⟨slot, rfl, hkept.entries _ _ hslot⟩
  output s v s' hs h := by
    cases depth with
    | zero => cases h
    | succ depth =>
      cases hp : S.program? r with
      | none =>
        rw [invoke_of_none _ hp] at h
        cases h
      | some p =>
        rw [invoke_of_program _ hp] at h
        exact Memo.shared_ok hs (extends_of_program hS (hS.programs _ p hp)
          fun name view' _ => asked_extends hS depth name view') h

theorem yields_invoke (hS : S.Honest) (depth : Nat) (cls : Iri) (view : View) :
    Yields (fun m v => ∃ slot, v = .ref slot ∧ m.lookup (classKey cls view.focus) = some slot)
      (S.invoke .memoized depth (.ofClass cls) view) :=
  yields_routine hS depth (.ofClass cls) view

/-! ## without transforms -/

theorem transformed_of_empty {σ : Type} (ht : S.transforms = .empty) (E : Strategy σ) (cls : Iri)
    (v : Value) : S.transformed E cls v = Action.answer (.ok v) := by
  funext s
  simp only [transformed, ht, Table.get?_empty]
  rfl

theorem instanceOf_of_empty {σ : Type} (ht : S.transforms = .empty) (E : Strategy σ)
    (invoke : Routine → Extractor σ View Value) (cls : Iri) :
    S.instanceOf E invoke cls = invoke (.ofClass cls) := by
  funext view s
  simp only [instanceOf, Extractor.andThen, transformed, ht, Table.get?_empty]
  rcases invoke (.ofClass cls) view s with _ | ⟨_ | _, _⟩ <;> rfl

theorem assertedTypes_ne_nil {view : View} (h : S.applicable view ≠ []) :
    assertedTypes view ≠ [] := by
  intro hnil
  simp [applicable, hnil] at h

/-- Dispatch extracts the classes one after the other, merges what comes out, and applies the
transform of the first type. -/
theorem dispatched_eq {σ : Type} (E : Strategy σ) (invoke : Routine → Extractor σ View Value)
    {view : View} (h : S.applicable view ≠ []) : ∃ type, (assertedTypes view).head? = some type ∧
      S.dispatched E invoke view =
        Action.bindOk
          (Extractor.all ((S.applicable view).map fun cls => invoke (.ofClass cls)) view)
          fun vs => Action.bindOk (merged E vs) (S.transformed E type) := by
  cases hasserted : assertedTypes view with
  | nil => exact absurd hasserted (assertedTypes_ne_nil h)
  | cons type types =>
    refine ⟨type, rfl, ?_⟩
    have hunfold : S.dispatched E invoke view =
        ((Extractor.all ((S.applicable view).map fun cls => invoke (.ofClass cls))).andThen
          (merged E)).andThen (S.transformed E type) view := by
      funext s
      unfold dispatched
      rw [hasserted]
      cases hc : S.applicable view with
      | nil => exact absurd hc h
      | cons cls classes => rfl
    rw [hunfold, Extractor.andThen_assoc, Extractor.andThen_apply]
    exact congrArg _ (funext fun vs => Extractor.andThen_apply _ _ vs)

theorem dispatched_of_ne_nil {σ : Type} (ht : S.transforms = .empty) (E : Strategy σ)
    (invoke : Routine → Extractor σ View Value) {view : View} (h : S.applicable view ≠ []) :
    S.dispatched E invoke view =
      Action.bindOk (Extractor.all ((S.applicable view).map fun cls => invoke (.ofClass cls)) view)
        (merged E) := by
  obtain ⟨type, _, heq⟩ := dispatched_eq E invoke h
  rw [heq]
  refine congrArg _ (funext fun vs => ?_)
  funext s
  simp only [Action.bindOk, Action.bind, transformed_of_empty ht]
  rcases merged E vs s with _ | ⟨_ | _, _⟩ <;> rfl

theorem dispatched_of_nil {σ : Type} (E : Strategy σ) (invoke : Routine → Extractor σ View Value)
    {view : View} (h : S.applicable view = []) :
    S.dispatched E invoke view = Action.answer
      (.error (.noApplicableShape (", ".intercalate ((assertedTypes view).map Iri.text)))) := by
  funext s
  simp only [dispatched, h]
  rfl

/-- Dispatch asks for every class that applies. It gives the slot of the only one, or what it merges
of several. -/
theorem dispatch_cases (hS : S.Honest) (ht : S.transforms = .empty) {depth : Nat} {view : View}
    {s s₁ : RunState} {v : Value} (hs : s.memo.Bounded)
    (h : Program.dispatch.extractor S .memoized (S.invoke .memoized depth) view s =
      some (.ok v, s₁)) :
    ∃ slots : List SlotId,
      List.Forall₂ (fun cls slot => s₁.memo.lookup (classKey cls view.focus) = some slot)
        (S.applicable view) slots ∧
      ((∃ slot, slots = [slot] ∧ v = .ref slot) ∨ 2 ≤ slots.length ∧
        v = .record (mergedRecord s₁.memo.resolve (slots.map .ref))) := by
  have hne : S.applicable view ≠ [] := by
    intro hnil
    rw [Program.extractor, dispatched_of_nil _ _ hnil] at h
    cases h
  rw [Program.extractor, dispatched_of_ne_nil ht _ _ hne] at h
  simp only [Action.bindOk, Action.bind] at h
  split at h
  · cases h
  · rename_i r s₂ hall
    cases r with
    | error e => cases h
    | ok ws =>
      obtain ⟨slots, rfl, hslots⟩ := ((Yields.all fun cls _ =>
        yields_invoke hS depth cls view).output _ _ _ hs hall).exists_map
      rcases slots with _ | ⟨slot, _ | ⟨slot', slots⟩⟩
      · exact absurd (List.length_eq_zero_iff.1 hslots.length_eq) hne
      · cases h
        exact ⟨[slot], hslots, .inl ⟨slot, rfl, rfl⟩⟩
      · cases h
        exact ⟨_, hslots, .inr ⟨by simp, rfl⟩⟩

theorem mergedRecord_eq (resolve : Value → Value) (vs : List Value) :
    mergedRecord resolve vs = (vs.map resolve).foldl Represented.mergeFields [] := by
  rw [List.foldl_map]
  rfl

theorem yields_element (hS : S.Honest) (ht : S.transforms = .empty) (depth : Nat) (t : ValueType)
    (view : View) (node : Term) :
    Yields (fun m v => t.Reads S.environment view.graph m node v)
      (S.element .memoized (S.invoke .memoized depth) t (view.refocus node)) := by
  have hlasting : ∀ m m' v, m.KeptBy m' → t.Reads S.environment view.graph m node v →
      t.Reads S.environment view.graph m' node v := fun _ _ _ hkept h => h.kept hkept
  cases t with
  | ofClass cls =>
    rw [element, instanceOf_of_empty ht]
    exact (yields_invoke hS depth cls _).mono hlasting fun m v hv => hv
  | datatype d => exact (Yields.answer _).mono hlasting fun m v hv => hv

end Setting

namespace Schema

variable {options : Options} {g : Graph} {schema : Schema} {view : View}

theorem program?_builtin (ho : options.Plain) (hc : compile options g = some (.ok schema))
    {cls : Iri} {p : Program} (hget : Registry.builtins.alternatives.get? cls = some [p]) :
    ∃ more, schema.setting.program? (.ofClass cls) = some (.firstOf (p :: more)) := by
  obtain ⟨shapes, _, rfl⟩ := compile_cases hc
  have halt : Registry.builtins.alternativesOf cls = [p] := by
    rw [Registry.alternativesOf, hget, Option.getD_some]
  simp only [Setting.program?, Registry.program?, registry, ho.custom, List.foldl_nil,
    Registry.get?_foldl_register, hget, halt]
  split
  · exact ⟨[], rfl⟩
  · exact ⟨_, rfl⟩

theorem program?_context (ho : options.Plain) (hc : compile options g = some (.ok schema)) :
    ∃ more, schema.setting.program? (.ofClass Rdfl.context) =
      some (.firstOf (.context :: more)) :=
  program?_builtin ho hc (by rfl)

theorem program?_typedExtract (ho : options.Plain) (hc : compile options g = some (.ok schema)) :
    ∃ more, schema.setting.program? (.ofClass Rdfl.typedExtract) =
      some (.firstOf (.typed :: more)) :=
  program?_builtin ho hc (by rfl)

/-- Slots of classes of one's own hold what a shape of the class reads at the node, and slots of the
context class hold the node with the graph. -/
def Own (schema : Schema) (view : View) (m : Memo) (key : MemoKey) (_ : SlotId) (v : Value) :
    Prop :=
  ∀ cls node, Path.Within view.graph view.focus node → key = classKey cls node →
    (cls ∉ builtinClasses → ∃ sh ∈ schema.shapes, sh.target = cls ∧
      sh.Reads schema.setting.environment m ⟨node, view.graph⟩ v) ∧
    (cls = Rdfl.context → v = .record (View.record ⟨node, view.graph⟩))

theorem lasting_own : Memo.Lasting (schema.Own view) := by
  intro m m' key slot v hkept h cls node hnear hkey
  obtain ⟨hshape, hcontext⟩ := h cls node hnear hkey
  refine ⟨fun hcls => ?_, hcontext⟩
  obtain ⟨sh, hsh, htarget, hreads⟩ := hshape hcls
  exact ⟨sh, hsh, htarget, hreads.kept hkept⟩

/-- The value that is put in a slot of a class of one's own is an output of one of its shapes. -/
theorem shape_of_filled (ho : options.Plain) (hc : compile options g = some (.ok schema))
    {start : Moment Shareable} {cls : Iri} (hcls : cls ∉ builtinClasses) {view' : View}
    {s s₁ : RunState} {v : Value} (h : schema.setting.Filled start (.ofClass cls) view' s s₁ v)
    {A : Memo → Shape → Value → Prop} (hA : ∀ sh depth, Yields (fun m v => A m sh v)
      (sh.extractor (schema.setting.element .memoized (schema.setting.invoke .memoized depth))
        view')) :
    ∃ sh ∈ schema.shapes, sh.target = cls ∧ A s₁.memo sh v := by
  obtain ⟨p, depth, hp, hrun⟩ := h.run
  rw [program?_of_compile ho hc hcls] at hp
  split at hp
  · cases hp
  · cases hp
    simp only [Program.extractor, Program.extractors_eq_map, List.map_map, Extractor.firstOf]
      at hrun
    have hyields := Yields.firstOfAfter (i := view') (A := A)
      (l := schema.shapes.filter fun s => s.target = cls)
      (x := fun sh => sh.extractor (schema.setting.element .memoized
        (schema.setting.invoke .memoized depth)))
      (fun sh _ => hA sh depth) .noAlternative
    obtain ⟨sh, hsh, houtput⟩ := hyields.output _ _ _
      ((Memo.extends_reserve h.fresh).bounded h.bounded) hrun
    obtain ⟨hmem, htarget⟩ := List.mem_filter.1 hsh
    exact ⟨sh, hmem, of_decide_eq_true htarget, houtput⟩

theorem reads_of_filled (ho : options.Plain) (hc : compile options g = some (.ok schema))
    {start : Moment Shareable} {cls : Iri} (hcls : cls ∉ builtinClasses) {view' : View}
    {s s₁ : RunState} {v : Value} (h : schema.setting.Filled start (.ofClass cls) view' s s₁ v) :
    ∃ sh ∈ schema.shapes, sh.target = cls ∧
      sh.Reads schema.setting.environment s₁.memo view' v :=
  shape_of_filled ho hc hcls h fun _ depth => Yields.shape fun t node =>
    Setting.yields_element (honest_of_compile ho.honest hc) (transforms_of_compile ho hc) depth t
      view' node

theorem own_of_filled (ho : options.Plain) (hc : compile options g = some (.ok schema))
    (hlit : view.LexicallyDistinct) {start : Moment Shareable} {r : Routine} {view' : View}
    {s s₁ : RunState} {v : Value} (hv : view.Near view')
    (h : schema.setting.Filled start r view' s s₁ v) :
    schema.Own view (s₁.memo.settle s.memo.next v) (.of (.routine r) view'.focus) s.memo.next
      v := by
  intro cls node hnear hkey
  obtain rfl : r = .ofClass cls := MemoKey.routine_eq hkey
  obtain rfl := hlit.eq_of_key hnear hv.2 hkey.symm
  have hview : (⟨view'.focus, view.graph⟩ : View) = view' := by rw [← hv.1]
  rw [hview]
  refine ⟨fun hcls => ?_, ?_⟩
  · obtain ⟨sh, hsh, htarget, hreads⟩ := reads_of_filled ho hc hcls h
    exact ⟨sh, hsh, htarget, hreads.kept (h.keptBy_settle (honest_of_compile ho.honest hc))⟩
  · rintro rfl
    obtain ⟨p, depth, hp, hrun⟩ := h.run
    obtain ⟨more, hcontext⟩ := program?_context ho hc
    cases hcontext.symm.trans hp
    cases hrun
    rfl

/-- The result of an extraction from a view, by class or by type, and the routine that is run. -/
inductive Extracts (schema : Schema) (view : View) (x : Extraction) : Routine → Prop where
  | byClass {cls : Iri} : schema.extract cls view = some (.ok x) →
      Extracts schema view x (.ofClass cls)
  | byType : schema.extractTyped view = some (.ok (some x)) → Extracts schema view x .dispatch

namespace Extracts

variable {x : Extraction} {r : Routine}

theorem invoke (ho : options.Plain) (hc : compile options g = some (.ok schema))
    (h : schema.Extracts view x r) :
    ∃ s', schema.setting.invoke .memoized (schema.setting.depth view.graph) r view
      (.start .empty) = some (.ok x.raw, s') ∧ s'.memo = x.memo := by
  cases h with
  | byClass h =>
    obtain ⟨s', hrun, hmemo⟩ := extract_cases h
    refine ⟨s', ?_, hmemo⟩
    simpa only [classExtractor, Setting.run,
      Setting.instanceOf_of_empty (transforms_of_compile ho hc)] using hrun
  | byType h =>
    obtain ⟨s', hrun, hmemo⟩ := extractTyped_cases h
    refine ⟨s', ?_, hmemo⟩
    simp only [typedExtractor, Setting.run, Setting.typed] at hrun
    split at hrun
    · cases hrun
    · simp only [Extractor.map] at hrun
      split at hrun
      · cases hrun
      · cases hrun
      · rename_i v s₁ h₁
        cases hrun
        exact h₁

theorem intact (ho : options.Plain) (hc : compile options g = some (.ok schema))
    (h : schema.Extracts view x r) :
    ∃ s', s'.memo = x.memo ∧ (⟨.answer (.ok x.raw), [], s'⟩ : Moment Shareable).Intact := by
  have hS := honest_of_compile ho.honest hc
  obtain ⟨s', hrun, hmemo⟩ := h.invoke ho hc
  have hsteps : schema.setting.repertoire.Steps (.start (.share (.routine r) view .answer) .empty)
      ⟨.answer (.ok x.raw), [], s'⟩ :=
    Setting.simulates_asked hS (schema.setting.depth view.graph) (.routine r) view _ _ _ hrun
      .answer []
  exact ⟨s', hmemo, .of_steps (Setting.repertoire_honest hS)
    (Dialogue.honest_share (.routine r) view []) hsteps⟩

theorem ready (ho : options.Plain) (hc : compile options g = some (.ok schema))
    (h : schema.Extracts view x r) {key : MemoKey} {slot : SlotId}
    (hslot : x.memo.lookup key = some slot) : ∃ v, x.memo.slot? slot = some (.ready v) := by
  obtain ⟨s', hmemo, hintact⟩ := h.intact ho hc
  rw [← hmemo] at hslot ⊢
  exact hintact.ready_of_live rfl (hintact.sound.live_of_lookup hslot)

/-- What every value has when it is put in its slot, all values have at the end. -/
theorem holds (ho : options.Plain) (hc : compile options g = some (.ok schema))
    (h : schema.Extracts view x r) {T : Memo → MemoKey → SlotId → Value → Prop}
    (hT : Memo.Lasting T)
    (hpart : ∀ m number kind lexical slot v, T m ⟨.part number, kind, lexical⟩ slot v)
    (hvalue : ∀ r' view' s s₁ v, view.Near view' → schema.setting.Filled
      (.start (.share (.routine r) view .answer) .empty) r' view' s s₁ v → s₁.memo.Holds T →
        T (s₁.memo.settle s.memo.next v) (.of (.routine r') view'.focus) s.memo.next v) :
    x.memo.Holds T := by
  obtain ⟨s', hrun, hmemo⟩ := h.invoke ho hc
  rw [← hmemo]
  exact Setting.holds_of_invoke (honest_of_compile ho.honest hc) hT hpart hvalue hrun

theorem own (ho : options.Plain) (hc : compile options g = some (.ok schema))
    (hlit : view.LexicallyDistinct) (h : schema.Extracts view x r) :
    x.memo.Holds (schema.Own view) := by
  refine h.holds ho hc lasting_own ?_ fun r' view' s s₁ v hv hfilled _ =>
    own_of_filled ho hc hlit hv hfilled
  intro m number kind lexical slot v cls node _ hkey
  cases hkey

end Extracts
end Schema
end ShaclExtract
