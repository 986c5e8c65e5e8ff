import ShaclExtract.Proofs.Memo.Chains
import ShaclExtract.Proofs.Schema.Contents

/-!
# ShaclExtract.Proofs.Schema.Dispatch

Which fields a record has that was merged by dispatch. Dispatch resolves the results of the classes
that apply to the node when all of them have been asked for. A class that is still being extracted
at that node, further up the stack, resolves to nothing then, and its fields are missing; the fields
of all other classes are there, and there are no others (`Schema.dispatch_fields`).

A class is still being extracted when dispatch merges exactly if it was when dispatch was entered:
runs that have ended leave no slot pending (`Setting.Filled.pending_iff`).
-/

namespace ShaclExtract

namespace Record

theorem mem_names_insert {r : Record} {n name : String} {v : Value} :
    name ∈ (r.insert n v).names ↔ name = n ∨ name ∈ r.names := by
  induction r with
  | nil => simp [insert, names]
  | cons f r ih =>
    obtain ⟨k, w⟩ := f
    unfold insert
    split
    · rename_i heq
      subst heq
      simp [names]
    · split
      · simp [names]
      · simp only [names, List.map_cons, List.mem_cons] at ih ⊢
        rw [ih, or_left_comm]

theorem mem_names_merge {old new : Record} {name : String} :
    name ∈ (merge old new).names ↔ name ∈ new.names ∨ name ∈ old.names := by
  induction new generalizing old with
  | nil => simp [merge, names]
  | cons f new ih =>
    have h : name ∈ (merge (old.insert f.1 f.2) new).names ↔ _ := ih
    rw [mem_names_insert] at h
    simp only [merge, List.foldl_cons, names, List.map_cons, List.mem_cons] at h ⊢
    rw [h, or_left_comm, or_assoc]

end Record

namespace Memo

def HasRecord (m : Memo) (key : MemoKey) (fields : Record) : Prop :=
  ∃ slot, m.lookup key = some slot ∧ m.slot? slot = some (.ready (.record fields))

theorem HasRecord.kept {m m' : Memo} {key : MemoKey} {fields : Record} (h : m.HasRecord key fields)
    (hkept : m.KeptBy m') : m'.HasRecord key fields := by
  obtain ⟨slot, hslot, hready⟩ := h
  exact ⟨slot, hkept.entries _ _ hslot, hkept.values _ _ hready⟩

theorem HasRecord.eq {m : Memo} {key : MemoKey} {fields fields' : Record}
    (h : m.HasRecord key fields) (h' : m.HasRecord key fields') : fields = fields' := by
  obtain ⟨slot, hslot, hready⟩ := h
  obtain ⟨slot', hslot', hready'⟩ := h'
  cases hslot.symm.trans hslot'
  cases hready.symm.trans hready'
  rfl

end Memo

namespace Setting

theorem Represented.mem_names_mergeFields {r : Record} {w : Value} {name : String} :
    name ∈ (mergeFields r w).names ↔
      name ∈ r.names ∨ ∃ fields : Record, w = .record fields ∧ name ∈ fields.names := by
  cases w with
  | record fields =>
    rw [mergeFields, Record.mem_names_merge, or_comm]
    simp
  | _ => simp [mergeFields]

theorem mem_names_mergedRecord {resolve : Value → Value} {values : List Value} {name : String} :
    name ∈ (mergedRecord resolve values).names ↔
      ∃ v ∈ values, ∃ fields : Record, resolve v = .record fields ∧ name ∈ fields.names := by
  have hfold : ∀ (values : List Value) (r : Record),
      name ∈ Record.names (values.foldl (fun r v => Represented.mergeFields r (resolve v)) r) ↔
        name ∈ r.names ∨
          ∃ v ∈ values, ∃ fields : Record, resolve v = .record fields ∧ name ∈ fields.names := by
    intro values
    induction values with
    | nil => simp
    | cons v values ih =>
      intro r
      rw [List.foldl_cons, ih, Represented.mem_names_mergeFields, List.exists_mem_cons_iff,
        or_assoc]
  refine (hfold values []).trans ?_
  simp [Record.names]

variable {S : Setting}

theorem applicable_ne_nil {view : View} (h : 2 ≤ (S.applicable view).length) :
    S.applicable view ≠ [] := by
  intro hnil
  simp [hnil] at h

/-! ## moments of dispatch -/

namespace Filled

variable {session : Dialogue Shareable Value} {counters : Counters} {r : Routine} {view : View}
  {s s₁ : RunState} {v : Value}

theorem intact (hS : S.Honest) (hsession : session.Honest Value.refs [])
    (h : S.Filled (.start session counters) r view s s₁ v) :
    ∃ next stack, (⟨.share (.routine r) view next, stack, s⟩ : Moment Shareable).Intact ∧
      (⟨.answer (.ok v), ⟨s.memo.next, next⟩ :: stack, s₁⟩ : Moment Shareable).Intact := by
  obtain ⟨next, stack, hreach⟩ := h.reached
  obtain ⟨p, depth, hp, hrun⟩ := h.run
  have henter := hreach.trans
    (.single (Repertoire.step_share (repertoire_routine hp) h.fresh next stack))
  have hend := henter.trans (steps_of_program hS (hS.programs r p hp)
    (fun name view' _ => simulates_asked hS depth name view') hrun _)
  have hR := repertoire_honest hS
  exact ⟨next, stack, .of_steps hR hsession hreach, .of_steps hR hsession hend⟩

/-- While a program is run, the slots that were pending stay so, and when it has ended no other slot
is pending but its own. -/
theorem pending_iff (hS : S.Honest) (hsession : session.Honest Value.refs [])
    (h : S.Filled (.start session counters) r view s s₁ v) (id : SlotId) :
    s₁.memo.slot? id = some .pending ↔ id = s.memo.next ∨ s.memo.slot? id = some .pending := by
  obtain ⟨next, stack, hstart, hend⟩ := h.intact hS hsession
  rw [hend.pending, List.exists_mem_cons_iff, ← hstart.pending, eq_comm]

/-- A key that has a slot when a program has ended was unfinished before if its slot is pending, and
not if it is ready. -/
theorem unfinished_or_ready (hS : S.Honest) (hsession : session.Honest Value.refs [])
    (h : S.Filled (.start session counters) r view s s₁ v) {key : MemoKey} {slot : SlotId}
    (hkey : key ≠ .of (.routine r) view.focus) (hslot : s₁.memo.lookup key = some slot) :
    s₁.memo.slot? slot = some .pending ∧ s.memo.Unfinished key ∨
      (∃ w, s₁.memo.slot? slot = some (.ready w)) ∧ ¬ s.memo.Unfinished key := by
  obtain ⟨next, stack, _, hend⟩ := h.intact hS hsession
  have hext := (Memo.extends_reserve h.fresh).trans (h.extends_reserve hS)
  obtain hpending | ⟨w, hready⟩ := (hend.sound.live_of_lookup hslot).pending_or_ready
  · have hp : s.memo.slot? slot = some .pending := by
      refine ((h.pending_iff hS hsession slot).1 hpending).resolve_left ?_
      rintro rfl
      exact hkey (Memo.eq_of_lookup_next h.bounded (h.extends_reserve hS) hslot)
    have hlt := (List.getElem?_eq_some_iff.1 hp).1
    exact .inl ⟨hpending, slot, hext.lookup_of_lt hslot hlt, hp⟩
  · refine .inr ⟨⟨w, hready⟩, ?_⟩
    rintro ⟨slot', hslot', hp⟩
    cases hslot.symm.trans (hext.lookup hslot')
    cases hready.symm.trans (hext.slot? hp)

end Filled

/-- The fields are those of the classes that apply to the node, as far as they have been extracted
in memo `m`. The others were being extracted at the node when dispatch was entered, in state `s`. -/
structure Merged (S : Setting) (view : View) (s : RunState) (m : Memo) (fields : Record) :
    Prop where
  classes : ∀ cls ∈ S.applicable view,
    m.Unfinished (classKey cls view.focus) ∧ s.memo.Unfinished (classKey cls view.focus) ∨
      (∃ R, m.HasRecord (classKey cls view.focus) R) ∧ ¬ s.memo.Unfinished (classKey cls view.focus)
  names : ∀ name, name ∈ fields.names ↔ ∃ cls ∈ S.applicable view, ∃ R,
    m.HasRecord (classKey cls view.focus) R ∧ name ∈ R.names

/-- What dispatch merges when it has asked for all classes, all of which give records. -/
theorem Filled.merged (hS : S.Honest) (ht : S.transforms = .empty)
    {session : Dialogue Shareable Value} (hsession : session.Honest Value.refs [])
    {counters : Counters} {view : View} {s s₁ : RunState} {v : Value}
    (h : S.Filled (.start session counters) .dispatch view s s₁ v)
    (hlen : 2 ≤ (S.applicable view).length)
    (hrecords : ∀ cls ∈ S.applicable view, ∀ slot w,
      s₁.memo.lookup (classKey cls view.focus) = some slot → s₁.memo.slot? slot = some (.ready w) →
        ∃ R, w = .record R) :
    ∃ fields, v = .record fields ∧ S.Merged view s s₁.memo fields := by
  have hclass : ∀ cls slot, s₁.memo.lookup (classKey cls view.focus) = some slot →
      s₁.memo.slot? slot = some .pending ∧ s.memo.Unfinished (classKey cls view.focus) ∨
        (∃ w, s₁.memo.slot? slot = some (.ready w)) ∧
          ¬ s.memo.Unfinished (classKey cls view.focus) :=
    fun cls slot => h.unfinished_or_ready hS hsession fun hkey => by
      cases MemoKey.routine_eq hkey
  obtain ⟨p, depth, hp, hrun⟩ := h.run
  cases hp
  obtain ⟨slots, hslots, ⟨_, rfl, _⟩ | ⟨_, rfl⟩⟩ :=
    dispatch_cases hS ht ((Memo.extends_reserve h.fresh).bounded h.bounded) hrun
  · rw [hslots.length_eq] at hlen
    exact absurd hlen (by simp)
  refine ⟨_, rfl, fun cls hcls => ?_, fun name => ?_⟩
  · obtain ⟨slot, _, hslot⟩ := hslots.flip.exists_of_mem cls hcls
    obtain ⟨hpending, hold⟩ | ⟨⟨w, hready⟩, hnew⟩ := hclass cls slot hslot
    · exact .inl ⟨⟨slot, hslot, hpending⟩, hold⟩
    · obtain ⟨R, rfl⟩ := hrecords cls hcls slot w hslot hready
      exact .inr ⟨⟨R, slot, hslot, hready⟩, hnew⟩
  · rw [mem_names_mergedRecord]
    constructor
    · rintro ⟨w, hw, fields, hresolve, hname⟩
      obtain ⟨slot, hmem, rfl⟩ := List.mem_map.1 hw
      obtain ⟨cls, hcls, hslot⟩ := hslots.exists_of_mem slot hmem
      obtain ⟨hpending, _⟩ | ⟨⟨w, hready⟩, _⟩ := hclass cls slot hslot
      · cases (Memo.resolve_ref_of_pending hpending).symm.trans hresolve
      · obtain ⟨R, rfl⟩ := hrecords cls hcls slot w hslot hready
        cases (Memo.resolve_ref hready (by simp)).symm.trans hresolve
        exact ⟨cls, hcls, _, ⟨slot, hslot, hready⟩, hname⟩
    · rintro ⟨cls, hcls, R, ⟨slot, hslot, hR⟩, hname⟩
      obtain ⟨slot', hmem, hslot'⟩ := hslots.flip.exists_of_mem cls hcls
      cases hslot.symm.trans hslot'
      exact ⟨_, List.mem_map_of_mem hmem, R, Memo.resolve_ref hR (by simp), hname⟩

/-- Dispatch was entered at the view, at a moment of the session with state `s`, and was given the
slot. -/
structure Entered (S : Setting) (start : Moment Shareable) (view : View) (slot : SlotId)
    (s : RunState) : Prop where
  reached : ∃ next stack, S.repertoire.Steps start ⟨.share (.routine .dispatch) view next, stack, s⟩
  fresh : s.memo.lookup (.of (.routine .dispatch) view.focus) = none
  slot : s.memo.next = slot

theorem invoke_of_ok {r : Routine} {p : Program} {depth : Nat} {view : View} {s s₁ : RunState}
    {v : Value} (hp : S.program? r = some p)
    (hk : s.memo.lookup (.of (.routine r) view.focus) = none)
    (h : p.extractor S .memoized (S.invoke .memoized depth) view
      { s with memo := s.memo.reserve (.of (.routine r) view.focus) } = some (.ok v, s₁)) :
    S.invoke .memoized (depth + 1) r view s =
      some (.ok (.ref s.memo.next), { s₁ with memo := s₁.memo.settle s.memo.next v }) := by
  rw [invoke_of_program _ hp]
  exact Memo.shared_of_ok hk h

theorem invoke_of_lookup {r : Routine} {p : Program} {depth : Nat} {view : View} {s : RunState}
    {slot : SlotId} (hp : S.program? r = some p)
    (hk : s.memo.lookup (.of (.routine r) view.focus) = some slot) :
    S.invoke .memoized (depth + 1) r view s = some (.ok (.ref slot), s) := by
  rw [invoke_of_program _ hp]
  exact Memo.shared_of_lookup _ hk

theorem types_ne_nil {view : View} (h : S.applicable view ≠ []) : view.types ≠ [] := by
  intro hnil
  exact assertedTypes_ne_nil h (by rw [assertedTypes, hnil, List.filterMap_nil])

/-- Literals have no types, so no class applies to them. -/
theorem not_literal_of_types {view : View} (h : view.types ≠ []) (l : Literal) :
    view.focus ≠ .literal l := by
  obtain ⟨term, hterm⟩ := List.exists_mem_of_ne_nil _ h
  obtain ⟨q, _, hsubject, _⟩ := Graph.mem_objects.1 hterm
  rw [← hsubject]
  cases q.subject <;> simp [Resource.toTerm]

end Setting

namespace Schema

variable {options : Options} {g : Graph} {schema : Schema} {view : View}

/-- Slots of classes of one's own hold records, and the slot of dispatch at a node that several such
classes apply to holds the record that was merged there. -/
structure Dispatched (schema : Schema) (view : View) (start : Moment Shareable) (m : Memo)
    (key : MemoKey) (slot : SlotId) (v : Value) : Prop where
  record : ∀ cls node, key = classKey cls node → cls ∉ builtinClasses → ∃ R : Record, v = .record R
  merged : ∀ view', view.Near view' → key = .of (.routine .dispatch) view'.focus →
    2 ≤ (schema.setting.applicable view').length →
    (∀ cls ∈ schema.setting.applicable view', cls ∉ builtinClasses) →
      ∃ fields s m₁, v = .record fields ∧ schema.setting.Entered start view' slot s ∧
        m₁.KeptBy m ∧ schema.setting.Merged view' s m₁ fields

theorem lasting_dispatched {start : Moment Shareable} :
    Memo.Lasting (schema.Dispatched view start) := by
  intro m m' key slot v hkept h
  refine ⟨h.record, fun view' hv hkey hlen hclasses => ?_⟩
  obtain ⟨fields, s, m₁, hfields, hentered, hkept₁, hmerged⟩ := h.merged view' hv hkey hlen hclasses
  exact ⟨fields, s, m₁, hfields, hentered, hkept₁.trans hkept, hmerged⟩

theorem dispatched_of_filled (ho : options.Plain) (hc : compile options g = some (.ok schema))
    {r r' : Routine} {view' : View} {s s₁ : RunState} {v : Value} (hv : view.Near view')
    (h : schema.setting.Filled (.start (.share (.routine r) view .answer) .empty) r' view' s s₁ v)
    (hold : s₁.memo.Holds
      (schema.Dispatched view (.start (.share (.routine r) view .answer) .empty))) :
    schema.Dispatched view (.start (.share (.routine r) view .answer) .empty)
      (s₁.memo.settle s.memo.next v) (.of (.routine r') view'.focus) s.memo.next v where
  record cls node hkey hcls := by
    obtain rfl : r' = .ofClass cls := MemoKey.routine_eq hkey
    obtain ⟨sh, _, _, fields, hv, _⟩ := reads_of_filled ho hc hcls h
    exact ⟨fields, hv⟩
  merged view'' hnear hkey hlen hclasses := by
    obtain rfl : r' = .dispatch := MemoKey.routine_eq hkey
    have hne := Setting.applicable_ne_nil hlen
    have hfocus : view'.focus = view''.focus := by
      refine MemoKey.node_eq hkey fun l l' _ hl' => ?_
      exact absurd hl' (Setting.not_literal_of_types (Setting.types_ne_nil hne) l')
    obtain rfl : view' = view'' := by
      cases view'
      cases view''
      cases hfocus
      cases hv.1.trans hnear.1.symm
      rfl
    have hS := honest_of_compile ho.honest hc
    obtain ⟨fields, hfields, hmerged⟩ := h.merged hS (transforms_of_compile ho hc)
      (Dialogue.honest_share (.routine r) view []) hlen fun cls hcls slot w hslot hw =>
        (hold _ slot w hslot hw).record cls view'.focus rfl (hclasses cls hcls)
    exact ⟨fields, s, s₁.memo, hfields, ⟨h.reached, h.fresh, rfl⟩, h.keptBy_settle hS, hmerged⟩

theorem Extracts.lookup (ho : options.Plain) (hc : compile options g = some (.ok schema))
    {x : Extraction} {r : Routine} (h : schema.Extracts view x r) :
    x.memo.lookup (.of (.routine r) view.focus) = some ⟨0⟩ := by
  have hS := honest_of_compile ho.honest hc
  obtain ⟨s', hrun, hmemo⟩ := h.invoke ho hc
  rw [← hmemo]
  cases hdepth : schema.setting.depth view.graph with
  | zero =>
    rw [hdepth] at hrun
    cases hrun
  | succ depth =>
    rw [hdepth] at hrun
    cases hp : schema.setting.program? r with
    | none =>
      rw [Setting.invoke_of_none _ hp] at hrun
      cases hrun
    | some p =>
      rw [Setting.invoke_of_program _ hp] at hrun
      have hshared : Memo.shared (.routine r) (p.extractor schema.setting .memoized
          (schema.setting.invoke .memoized depth)) view (.start .empty) =
            some (.ok x.raw, s') := hrun
      obtain ⟨slot, hslot, _⟩ | ⟨hk, r₁, s₁, hbody, ⟨v, _, _, rfl⟩ | ⟨e, _, hr, _⟩⟩ :=
        Memo.shared_cases hshared
      · cases hslot
      · have hext := Setting.extends_of_program hS (hS.programs r p hp)
          (fun name view' _ => Setting.asked_extends hS depth name view') _ _ _ hbody
          ((Memo.extends_reserve hk).bounded Memo.bounded_empty)
        exact Memo.lookup_settle_next hext v
      · cases hr

/-- Dispatch at a node that several classes of one's own apply to stores a record. It was entered at
some moment of the extraction, and its fields are those of all classes but the ones that were being
extracted at the node then. When the extraction is by type, none was at the focus. -/
theorem dispatch_fields (ho : options.Plain) (hc : compile options g = some (.ok schema))
    {x : Extraction} {r : Routine} (hx : schema.Extracts view x r) {node : Term}
    (hnear : Path.Within view.graph view.focus node)
    (hlen : 2 ≤ (schema.setting.applicable (view.refocus node)).length)
    (hclasses : ∀ cls ∈ schema.setting.applicable (view.refocus node), cls ∉ builtinClasses)
    {slot : SlotId} (hslot : x.memo.lookup (.of (.routine .dispatch) node) = some slot) :
    ∃ (fields : Record) (s : RunState), x.memo.slot? slot = some (.ready (.record fields)) ∧
      schema.setting.Entered (.start (.share (.routine r) view .answer) .empty) (view.refocus node)
        slot s ∧
      (∀ cls ∈ schema.setting.applicable (view.refocus node), ∃ R : Record,
        x.memo.HasRecord (classKey cls node) R ∧
        (¬ s.memo.Unfinished (classKey cls node) → ∀ name ∈ R.names, name ∈ fields.names)) ∧
      (∀ name ∈ fields.names, ∃ cls ∈ schema.setting.applicable (view.refocus node),
        ¬ s.memo.Unfinished (classKey cls node) ∧
        ∃ R : Record, x.memo.HasRecord (classKey cls node) R ∧ name ∈ R.names) ∧
      (r = .dispatch → node = view.focus → ∀ key, ¬ s.memo.Unfinished key) := by
  have hholds := hx.holds ho hc lasting_dispatched
    (fun _ _ _ _ _ _ => ⟨fun _ _ hkey => (by cases hkey), fun _ _ hkey => (by cases hkey)⟩)
    fun r' view' s s₁ v hv hfilled hold => dispatched_of_filled ho hc hv hfilled hold
  obtain ⟨v, hv⟩ := hx.ready ho hc hslot
  obtain ⟨fields, s, m₁, rfl, hentered, hkept, hmerged⟩ :=
    (hholds _ slot v hslot hv).merged (view.refocus node) ⟨rfl, hnear⟩ rfl hlen hclasses
  refine ⟨fields, s, hv, hentered, fun cls hcls => ?_, fun name hname => ?_, ?_⟩
  · obtain ⟨slot', hslot'⟩ : ∃ slot', m₁.lookup (classKey cls node) = some slot' := by
      obtain ⟨⟨slot', h, _⟩, _⟩ | ⟨⟨_, slot', h, _⟩, _⟩ := hmerged.classes cls hcls
      · exact ⟨slot', h⟩
      · exact ⟨slot', h⟩
    have hlast := hkept.entries _ _ hslot'
    obtain ⟨w, hw⟩ := hx.ready ho hc hlast
    obtain ⟨R, rfl⟩ := (hholds _ slot' w hlast hw).record cls node rfl (hclasses cls hcls)
    refine ⟨R, ⟨slot', hlast, hw⟩, fun hfinished name hname => ?_⟩
    obtain ⟨_, hunfinished⟩ | ⟨⟨R', hR'⟩, _⟩ := hmerged.classes cls hcls
    · exact absurd hunfinished hfinished
    · obtain rfl := (hR'.kept hkept).eq ⟨slot', hlast, hw⟩
      exact (hmerged.names name).2 ⟨cls, hcls, R', hR', hname⟩
  · obtain ⟨cls, hcls, R, hR, hmem⟩ := (hmerged.names name).1 hname
    refine ⟨cls, hcls, ?_, R, hR.kept hkept, hmem⟩
    obtain ⟨⟨slot', hslot', hp⟩, _⟩ | ⟨_, hfinished⟩ := hmerged.classes cls hcls
    · obtain ⟨slot'', hslot'', hready⟩ := hR
      cases hslot'.symm.trans hslot''
      cases hp.symm.trans hready
    · exact hfinished
  · rintro rfl rfl key ⟨slot', _, hp⟩
    cases hslot.symm.trans (hx.lookup ho hc)
    have hzero : s.memo.slots.length = 0 := congrArg SlotId.index hentered.slot
    have hlt := (List.getElem?_eq_some_iff.1 hp).1
    omega

/-! ## a class that leads back to its node -/

/-- An instance of the first class leads to dispatch, at the node itself in the graph below. The
second class is its parent. -/
def returningShapes : Graph :=
  [⟨.iri ⟨"S"⟩, Rdf.type, .iri Sh.nodeShape, none⟩,
    ⟨.iri ⟨"S"⟩, Sh.targetClass, .iri ⟨"A"⟩, none⟩,
    ⟨.iri ⟨"S"⟩, Sh.property, .blank "p", none⟩,
    ⟨.blank "p", Sh.path, .iri ⟨"self"⟩, none⟩,
    ⟨.blank "p", Sh.name, .literal (.simple "self"), none⟩,
    ⟨.blank "p", Sh.classOf, .iri Rdfl.typedExtract, none⟩,
    ⟨.blank "p", Sh.minCount, .literal (.simple "1"), none⟩,
    ⟨.blank "p", Sh.maxCount, .literal (.simple "1"), none⟩,
    ⟨.iri ⟨"T"⟩, Rdf.type, .iri Sh.nodeShape, none⟩,
    ⟨.iri ⟨"T"⟩, Sh.targetClass, .iri ⟨"B"⟩, none⟩,
    ⟨.iri ⟨"T"⟩, Sh.property, .blank "q", none⟩,
    ⟨.blank "q", Sh.path, .iri ⟨"tag"⟩, none⟩,
    ⟨.blank "q", Sh.name, .literal (.simple "tag"), none⟩,
    ⟨.blank "q", Sh.datatype, .iri Xsd.string, none⟩,
    ⟨.blank "q", Sh.minCount, .literal (.simple "1"), none⟩,
    ⟨.blank "q", Sh.maxCount, .literal (.simple "1"), none⟩,
    ⟨.iri ⟨"A"⟩, Rdfs.subClassOf, .iri ⟨"B"⟩, none⟩]

def returningProperty : Property :=
  ⟨"self", .predicate ⟨"self"⟩, 1, some 1, .ofClass Rdfl.typedExtract⟩

def returningShape : Shape := ⟨"S", ⟨"A"⟩, none, [returningProperty]⟩

def taggedShape : Shape :=
  ⟨"T", ⟨"B"⟩, none, [⟨"tag", .predicate ⟨"tag"⟩, 1, some 1, .datatype Xsd.string⟩]⟩

def returningSchema : Schema :=
  ⟨[returningShape, taggedShape], registry [] [returningShape, taggedShape],
    .ofGraph returningShapes, .empty, fun _ => none, .empty⟩

theorem compile_returningShapes : compile .default returningShapes = some (.ok returningSchema) :=
  compile_of_readAll (by rfl) .default

def returningView : View :=
  ⟨.iri ⟨"n"⟩,
    [⟨.iri ⟨"n"⟩, Rdf.type, .iri ⟨"A"⟩, none⟩, ⟨.iri ⟨"n"⟩, ⟨"self"⟩, .iri ⟨"n"⟩, none⟩,
      ⟨.iri ⟨"n"⟩, ⟨"tag"⟩, .literal (.simple "t"), none⟩]⟩

theorem applicable_returningView :
    returningSchema.setting.applicable returningView = [⟨"A"⟩, ⟨"B"⟩] := by decide +kernel

/-- The memo, given the slots of the first class, of the reference to dispatch and of dispatch. The
second class has the last slot. -/
def returningMemo (first entry dispatch : Slot) : Memo :=
  ⟨[first, entry, dispatch, .ready (.record [("tag", .text "t")])],
    [(classKey ⟨"B"⟩ (.iri ⟨"n"⟩), ⟨3⟩), (.of (.routine .dispatch) (.iri ⟨"n"⟩), ⟨2⟩),
      (classKey Rdfl.typedExtract (.iri ⟨"n"⟩), ⟨1⟩), (classKey ⟨"A"⟩ (.iri ⟨"n"⟩), ⟨0⟩)]⟩

def returningExtraction : Extraction :=
  ⟨.ref ⟨0⟩, returningMemo (.ready (.record [("self", .ref ⟨1⟩)])) (.ready (.ref ⟨2⟩))
    (.ready (.record [("tag", .text "t")]))⟩

/-- While the first class is being extracted. -/
def returningState : RunState := ⟨Memo.empty.reserve (classKey ⟨"A"⟩ (.iri ⟨"n"⟩)), .empty⟩

/-- When dispatch is asked for. -/
def dispatchState : RunState :=
  ⟨returningState.memo.reserve (classKey Rdfl.typedExtract (.iri ⟨"n"⟩)), .empty⟩

/-- The two shapes, and the class of typed extraction with whatever alternatives it may have. -/
structure Returning (S : Setting) (more : List Program) : Prop where
  transforms : S.transforms = .empty
  first : S.program? (.ofClass ⟨"A"⟩) = some (.firstOf [.shape returningShape])
  second : S.program? (.ofClass ⟨"B"⟩) = some (.firstOf [.shape taggedShape])
  entry : S.program? (.ofClass Rdfl.typedExtract) = some (.firstOf (.typed :: more))
  applicable : S.applicable returningView = [⟨"A"⟩, ⟨"B"⟩]

namespace Returning

variable {S : Setting} {more : List Program} {invoke : Invoke} {s s₁ s₂ : RunState}
  {slot slot' : SlotId}

theorem first_extractor (h : Returning S more)
    (htyped : invoke (.ofClass Rdfl.typedExtract) returningView s = some (.ok (.ref slot), s₁)) :
    (Program.firstOf [.shape returningShape]).extractor S .memoized invoke returningView s =
      some (.ok (.record [("self", .ref slot)]), s₁) := by
  have hwalk : returningProperty.path.walk returningView.graph returningView.focus =
      .ok [.iri ⟨"n"⟩] := rfl
  have hvalue : returningProperty.value ⟨"A"⟩ (S.element .memoized invoke
      (.ofClass Rdfl.typedExtract)) returningView s = some (.ok (.ref slot), s₁) := by
    rw [Property.value_of_single rfl hwalk, Setting.element,
      Setting.instanceOf_of_empty h.transforms]
    exact htyped
  have hmin : returningProperty.minCount ≠ 0 := Nat.one_ne_zero
  have hentry : returningProperty.entry "S" ⟨"A"⟩ (S.element .memoized invoke
      (.ofClass Rdfl.typedExtract)) returningView s = some (.ok [("self", .ref slot)], s₁) := by
    simp only [Property.entry_of_mandatory hmin, Extractor.map, Extractor.mapError, hvalue]
    rfl
  simp only [Program.extractor, Program.extractors, Extractor.firstOf, Extractor.firstOfAfter,
    Shape.extractor, returningShape, List.map_cons, List.map_nil, Extractor.map, Extractor.all]
  rw [show returningProperty.type = .ofClass Rdfl.typedExtract from rfl, hentry]
  rfl

theorem second_extractor (S : Setting) (invoke : Invoke) (s : RunState) :
    (Program.firstOf [.shape taggedShape]).extractor S .memoized invoke returningView s =
      some (.ok (.record [("tag", .text "t")]), s) := rfl

theorem entry_extractor
    (hdispatch : invoke .dispatch returningView s = some (.ok (.ref slot), s₁)) :
    (Program.firstOf (.typed :: more)).extractor S .memoized invoke returningView s =
      some (.ok (.ref slot), s₁) := by
  simp only [Program.extractor, Program.extractors, Extractor.firstOf, Extractor.firstOfAfter,
    Extractor.map, Setting.typed, hdispatch]
  rfl

theorem dispatch_extractor (h : Returning S more)
    (hfirst : invoke (.ofClass ⟨"A"⟩) returningView s = some (.ok (.ref slot), s₁))
    (hsecond : invoke (.ofClass ⟨"B"⟩) returningView s₁ = some (.ok (.ref slot'), s₂)) :
    Program.dispatch.extractor S .memoized invoke returningView s =
      some (.ok (.record (Setting.mergedRecord s₂.memo.resolve [.ref slot, .ref slot'])), s₂) := by
  rw [Program.extractor, Setting.dispatched_of_ne_nil h.transforms _ _
    (by rw [h.applicable]; decide), h.applicable]
  simp only [List.map_cons, List.map_nil, Extractor.all, Action.bindOk, Action.bind, hfirst,
    hsecond]
  rfl

theorem invoke_dispatch (h : Returning S more) (depth : Nat) :
    S.invoke .memoized (depth + 2) .dispatch returningView dispatchState =
      some (.ok (.ref ⟨2⟩),
        ⟨returningMemo .pending .pending (.ready (.record [("tag", .text "t")])), .empty⟩) := by
  let s : RunState := ⟨dispatchState.memo.reserve (.of (.routine .dispatch) (.iri ⟨"n"⟩)), .empty⟩
  have hfirst : S.invoke .memoized (depth + 1) (.ofClass ⟨"A"⟩) returningView s =
      some (.ok (.ref ⟨0⟩), s) :=
    Setting.invoke_of_lookup h.first rfl
  have hsecond : S.invoke .memoized (depth + 1) (.ofClass ⟨"B"⟩) returningView s =
      some (.ok (.ref ⟨3⟩), ⟨returningMemo .pending .pending .pending, .empty⟩) :=
    Setting.invoke_of_ok (s := s) h.second rfl (second_extractor S _ _)
  -- the first class reads as pending, so only the record of the second one is merged
  exact Setting.invoke_of_ok (s := dispatchState) rfl rfl (h.dispatch_extractor hfirst hsecond)

theorem invoke_first (h : Returning S more) (depth : Nat) :
    S.invoke .memoized (depth + 4) (.ofClass ⟨"A"⟩) returningView (.start .empty) =
      some (.ok (.ref ⟨0⟩), ⟨returningExtraction.memo, .empty⟩) := by
  have hentry : S.invoke .memoized (depth + 3) (.ofClass Rdfl.typedExtract) returningView
      returningState = some (.ok (.ref ⟨1⟩),
        ⟨returningMemo .pending (.ready (.ref ⟨2⟩)) (.ready (.record [("tag", .text "t")])),
          .empty⟩) :=
    Setting.invoke_of_ok (s := returningState) h.entry rfl
      (entry_extractor (h.invoke_dispatch depth))
  exact Setting.invoke_of_ok (s := .start .empty) h.first rfl (h.first_extractor hentry)

end Returning

theorem returning_returningSchema : Returning returningSchema.setting [] :=
  ⟨rfl, rfl, rfl, rfl, applicable_returningView⟩

/-- The class leads to dispatch at the node while the class is still being extracted there. -/
theorem extract_returningView :
    returningSchema.extract ⟨"A"⟩ returningView = some (.ok returningExtraction) := by
  have hrun : returningSchema.classExtractor ⟨"A"⟩ returningView (.start .empty) =
      some (.ok (.ref ⟨0⟩), ⟨returningExtraction.memo, .empty⟩) := by
    rw [classExtractor, Setting.run, Setting.instanceOf_of_empty rfl]
    exact returning_returningSchema.invoke_first 46
  exact extract_of_run hrun

theorem near_returningView :
    Path.Within returningView.graph returningView.focus (.iri ⟨"n"⟩) := .inl rfl

theorem applicable_not_builtin_returningView :
    ∀ cls ∈ returningSchema.setting.applicable (returningView.refocus (.iri ⟨"n"⟩)),
      cls ∉ builtinClasses := by
  rw [show returningView.refocus (.iri ⟨"n"⟩) = returningView from rfl, applicable_returningView]
  decide

/-- The field of the second class is merged. -/
theorem dispatch_fields_returning :
    Options.default.Plain ∧ compile .default returningShapes = some (.ok returningSchema) ∧
    returningSchema.Extracts returningView returningExtraction (.ofClass ⟨"A"⟩) ∧
    Path.Within returningView.graph returningView.focus (.iri ⟨"n"⟩) ∧
    returningSchema.setting.applicable returningView = [⟨"A"⟩, ⟨"B"⟩] ∧
    (∀ cls ∈ returningSchema.setting.applicable returningView, cls ∉ builtinClasses) ∧
    returningExtraction.memo.lookup (.of (.routine .dispatch) (.iri ⟨"n"⟩)) = some ⟨2⟩ ∧
    ∃ (fields : Record) (s : RunState),
      returningExtraction.memo.slot? ⟨2⟩ = some (.ready (.record fields)) ∧
      ∀ name ∈ fields.names, ∃ cls ∈ returningSchema.setting.applicable returningView,
        ¬ s.memo.Unfinished (classKey cls (.iri ⟨"n"⟩)) := by
  have hx : returningSchema.Extracts returningView returningExtraction (.ofClass ⟨"A"⟩) :=
    .byClass extract_returningView
  have hdispatch : returningExtraction.memo.lookup (.of (.routine .dispatch) (.iri ⟨"n"⟩)) =
      some ⟨2⟩ := rfl
  have hlen : 2 ≤ (returningSchema.setting.applicable
      (returningView.refocus (.iri ⟨"n"⟩))).length := by
    rw [show returningView.refocus (.iri ⟨"n"⟩) = returningView from rfl, applicable_returningView]
    decide
  obtain ⟨fields, s, hslot, _, _, hnames, _⟩ := dispatch_fields ⟨rfl, rfl, rfl⟩
    compile_returningShapes hx near_returningView hlen applicable_not_builtin_returningView
    hdispatch
  refine ⟨⟨rfl, rfl, rfl⟩, compile_returningShapes, hx, near_returningView,
    applicable_returningView, applicable_not_builtin_returningView, hdispatch, fields, s, hslot, ?_⟩
  intro name hname
  obtain ⟨cls, hcls, hfinished, _⟩ := hnames name hname
  exact ⟨cls, hcls, hfinished⟩

/-- The merged record lacks the field of the class that was still being extracted. -/
theorem dispatch_loses_field :
    Options.default.Plain ∧ compile .default returningShapes = some (.ok returningSchema) ∧
    (∀ cls ∈ returningSchema.setting.applicable returningView, cls ∉ builtinClasses) ∧
    returningSchema.extract ⟨"A"⟩ returningView = some (.ok returningExtraction) ∧
    returningSchema.setting.applicable returningView = [⟨"A"⟩, ⟨"B"⟩] ∧
    ∃ merged record : Record,
      returningExtraction.memo.HasRecord (.of (.routine .dispatch) (.iri ⟨"n"⟩)) merged ∧
      returningExtraction.memo.HasRecord (classKey ⟨"A"⟩ (.iri ⟨"n"⟩)) record ∧
      "self" ∈ record.names ∧ "self" ∉ merged.names :=
  ⟨⟨rfl, rfl, rfl⟩, compile_returningShapes, applicable_not_builtin_returningView,
    extract_returningView, applicable_returningView, [("tag", .text "t")], [("self", .ref ⟨1⟩)],
    ⟨⟨2⟩, rfl, rfl⟩, ⟨⟨0⟩, rfl, rfl⟩, by decide, by decide⟩

end Schema
end ShaclExtract
