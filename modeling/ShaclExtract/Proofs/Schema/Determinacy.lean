import ShaclExtract.Proofs.Memo.Likeness
import ShaclExtract.Proofs.Schema.Origins

/-!
# ShaclExtract.Proofs.Schema.Determinacy

What slots hold does not depend on the order in which they were filled. When nothing is unfinished
and dispatch has merged what every class has in its slot (`Merging`), the calls that have a slot
support each other, so they are in the greatest fixpoint of `Setting.acceptance`
(`Setting.Finished.calls_subset_gfp`). Hence in two such memos a class gives the same alternative at
a node, with the same optional fields, and the references of one lead to the slots that those of the
other lead to. So slots of one key hold values that unfold to the same (`Schema.cutOff_eq`).
-/

namespace ShaclExtract

open Setting.Represented (mergeFields)

namespace Memo

/-- The calls that have a slot, at nodes that can be met from the view. -/
def calls (m : Memo) (view : View) : Calls :=
  {c | Path.Within view.graph view.focus c.2 ∧
    ∃ slot, m.lookup (.of (.routine c.1) c.2) = some slot}

/-- The slots of one key in two memos. -/
def SameKey (m m' : Memo) (slot slot' : SlotId) : Prop :=
  ∃ key, m.lookup key = some slot ∧ m'.lookup key = some slot'

end Memo

/-- Every class contributes what is in its slot, except for that of typed extraction, which is
unfinished whenever dispatch merges. -/
def Merging : Contribution := fun m view cls w =>
  (cls = Rdfl.typedExtract → w = .pending) ∧
    (cls ≠ Rdfl.typedExtract → ∃ slot, m.lookup (classKey cls view.focus) = some slot ∧
      m.slot? slot = some (.ready w))

theorem lasting_merging : Merging.Lasting := by
  rintro m m' view cls w hkept ⟨htyped, hclass⟩
  refine ⟨htyped, fun hcls => ?_⟩
  obtain ⟨slot, hslot, hw⟩ := hclass hcls
  exact ⟨slot, hkept.entries _ _ hslot, hkept.values _ _ hw⟩

/-! ## calls that support each other -/

section accepted

variable {S : Setting} {Z : Calls} {C : Contribution} {m : Memo} {view view' : View}
  {env : Environment}

theorem Property.Fills.satisfied {f : Property} {r : Record} (h : f.Fills env m view' r)
    (hv : view.Near view') :
    f.Satisfied env view'.graph (m.calls view).pairs view'.focus := by
  obtain ⟨v, _, ⟨hops, items, hwalk, hitems, _⟩, hcounted⟩ := h
  refine ⟨hops, hwalk, hcounted hops hwalk, fun hop hhop => ?_⟩
  obtain ⟨item, _, hitem⟩ := hitems.flip.exists_of_mem hop hhop
  cases ht : f.type with
  | ofClass cls =>
    rw [ht] at hitem
    obtain ⟨slot, _, hslot⟩ := hitem
    exact ⟨(hv.trans (View.near_refocus hwalk _ (List.mem_map_of_mem hhop))).2, slot, hslot⟩
  | datatype d =>
    rw [ht] at hitem
    exact ⟨item, hitem⟩

theorem Program.Gives.accepted {p : Program} {v : Value} (h : p.Gives S Z C m view' v)
    (hv : view.Near view') : p.Accepted S (m.calls view) view' := by
  induction h with
  | description => exact .description
  | context => exact .context
  | path hread => exact .path hread
  | untyped htypes => exact .untyped htypes
  | typed _ hslot => exact .typed ⟨hv.2, _, hslot⟩
  | single happlicable hslot =>
    refine .dispatch (by rw [happlicable]; simp) fun cls hcls => ?_
    rw [happlicable, List.mem_singleton] at hcls
    exact hcls ▸ ⟨hv.2, _, hslot⟩
  | merged hlen hws =>
    refine .dispatch (by rintro hnil; simp [hnil] at hlen) fun cls hcls => ?_
    obtain ⟨w, _, hslot, _⟩ := hws.flip.exists_of_mem cls hcls
    exact ⟨hv.2, hslot⟩
  | shape hentries =>
    refine .shape fun f hf hmin => ?_
    obtain ⟨r, _, hfills | ⟨_, hzero, _⟩⟩ := hentries.flip.exists_of_mem f hf
    · exact hfills.satisfied hv
    · omega
  | first _ ih => exact .firstOf List.mem_cons_self (ih hv)
  | later _ _ ih =>
    cases ih hv with
    | firstOf hp haccepted => exact .firstOf (List.mem_cons_of_mem _ hp) haccepted

theorem Setting.Finished.calls_subset_gfp (hm : S.Finished C view m)
    (hlit : view.LexicallyDistinct) : m.calls view ⊆ (S.acceptance view.graph).gfp := by
  refine OrderHom.le_gfp _ ?_
  rintro ⟨r, node⟩ ⟨hnode, slot, hslot⟩
  obtain ⟨p, v, _, hp, hgives⟩ := hm.gives_of_distinct hlit hnode hslot
  exact Setting.mem_acceptance.2 ⟨p, hp, hgives.accepted ⟨rfl, hnode⟩⟩

end accepted

/-! ## contents of two memos -/

section alike

variable {env : Environment} {m m' : Memo} {view : View}

theorem ValueType.Reads.alike {g : Graph} {t : ValueType} {node : Term} {v v' : Value}
    (h : t.Reads env g m node v) (h' : t.Reads env g m' node v') : v.Alike (m.SameKey m') v' := by
  cases t with
  | ofClass cls =>
    obtain ⟨slot, rfl, hslot⟩ := h
    obtain ⟨slot', rfl, hslot'⟩ := h'
    exact Value.alike_ref ⟨_, hslot, hslot'⟩
  | datatype d =>
    cases Except.ok.inj (h.symm.trans h')
    exact Value.alike_of_refs (Datatype.refs_extract h)

theorem Property.Reads.alike {f : Property} {v v' : Value} (h : f.Reads env m view v)
    (h' : f.Reads env m' view v') : v.Alike (m.SameKey m') v' := by
  obtain ⟨hops, items, hwalk, hitems, hv⟩ := h
  obtain ⟨hops', items', hwalk', hitems', hv'⟩ := h'
  cases hwalk.symm.trans hwalk'
  have halike := hitems.of_left hitems' fun hop _ v v' h h' => h.alike h'
  split at hv
  · rw [if_pos ‹_›] at hv'
    rw [hv, hv']
    exact Value.alike_list halike
  · rw [if_neg ‹_›] at hv'
    rw [hv, hv'] at halike
    cases halike with
    | cons h _ => exact h

theorem Property.Fills.related {f : Property} {r r' : Record} (h : f.Fills env m view r)
    (h' : f.Fills env m' view r') : Record.Related (Value.Alike (m.SameKey m')) r r' := by
  obtain ⟨v, rfl, hv, _⟩ := h
  obtain ⟨v', rfl, hv', _⟩ := h'
  exact .cons ⟨rfl, hv.alike hv'⟩ .nil

theorem related_mergeFields_of_like {B : SlotId → SlotId → Prop} {ws ws' : List Value}
    (h : List.Forall₂ (Value.Like B) ws ws') : ∀ {r r' : Record},
      Record.Related (Value.Alike B) r r' →
        Record.Related (Value.Alike B) (ws.foldl mergeFields r) (ws'.foldl mergeFields r') := by
  induction h with
  | nil => exact id
  | cons hw _ ih =>
    intro r r' hr
    refine ih ?_
    obtain ⟨fields, fields', rfl, rfl, hfields⟩ | ⟨hw, hw', _⟩ := hw
    · exact hr.merge hfields
    · rwa [Setting.Represented.mergeFields_of_ne hw, Setting.Represented.mergeFields_of_ne hw']

end alike

namespace Schema

variable {options : Options} {g : Graph} {schema : Schema} {C : Contribution} {view view' : View}
  {m m' : Memo} {v v' : Value}

section classes

variable (hm : schema.setting.Finished C view m) (hm' : schema.setting.Finished C view m')
  (hlit : view.LexicallyDistinct) (hv : view.Near view')
include hm hm' hlit hv

theorem related_entries {f : Property} {r r' : Record}
    (h : f.Fills schema.setting.environment m view' r ∨ r = [] ∧ f.minCount = 0 ∧
      ¬ f.Satisfied schema.setting.environment view'.graph
        (schema.setting.acceptance view.graph).gfp.pairs view'.focus)
    (h' : f.Fills schema.setting.environment m' view' r' ∨ r' = [] ∧ f.minCount = 0 ∧
      ¬ f.Satisfied schema.setting.environment view'.graph
        (schema.setting.acceptance view.graph).gfp.pairs view'.focus) :
    Record.Related (Value.Alike (m.SameKey m')) r r' := by
  obtain h | ⟨rfl, _, hrejected⟩ := h
  · obtain h' | ⟨_, _, hrejected⟩ := h'
    · exact h.related h'
    · exact absurd ((h.satisfied hv).mono (Calls.pairs_mono (hm.calls_subset_gfp hlit))) hrejected
  · obtain h' | ⟨rfl, _, _⟩ := h'
    · exact absurd ((h'.satisfied hv).mono (Calls.pairs_mono (hm'.calls_subset_gfp hlit))) hrejected
    · exact .nil

theorem like_registered {shapes : List Shape} {cls : Iri} {q : Program}
    (hq : Registered shapes cls q)
    (h : q.Gives schema.setting (schema.setting.acceptance view.graph).gfp C m view' v)
    (h' : q.Gives schema.setting (schema.setting.acceptance view.graph).gfp C m' view' v') :
    v.Like (m.SameKey m') v' := by
  cases hq with
  | cbd =>
    cases h
    cases h'
    exact Value.like_of_refs rfl
  | pathLens =>
    cases h with
    | path hread =>
      cases h' with
      | path hread' =>
        cases hread.symm.trans hread'
        exact Value.like_of_refs rfl
  | context =>
    cases h
    cases h'
    exact Value.like_of_refs rfl
  | typedExtract =>
    cases h with
    | untyped htypes =>
      cases h' with
      | untyped _ => exact Value.like_of_refs rfl
      | typed htypes' _ => exact absurd htypes htypes'
    | typed htypes hslot =>
      cases h' with
      | untyped htypes' => exact absurd htypes' htypes
      | typed _ hslot' => exact Value.like_ref ⟨_, hslot, hslot'⟩
  | shape _ =>
    cases h with
    | shape hentries =>
      cases h' with
      | shape hentries' =>
        refine .inl ⟨_, _, rfl, rfl, (Record.related_flatten ?_).ofList⟩
        exact hentries.of_left hentries' fun f _ r r' hr hr' =>
          related_entries hm hm' hlit hv hr hr'

theorem like_firstOf {shapes : List Shape} {cls : Iri} {ps : List Program}
    (hps : ∀ q ∈ ps, Registered shapes cls q)
    (h : (Program.firstOf ps).Gives schema.setting (schema.setting.acceptance view.graph).gfp C m
      view' v)
    (h' : (Program.firstOf ps).Gives schema.setting (schema.setting.acceptance view.graph).gfp C m'
      view' v') : v.Like (m.SameKey m') v' := by
  induction ps with
  | nil => cases h
  | cons p ps ih =>
    cases h with
    | first h =>
      cases h' with
      | first h' => exact like_registered hm hm' hlit hv (hps p List.mem_cons_self) h h'
      | later hrejected _ =>
        exact absurd ((h.accepted hv).mono (hm.calls_subset_gfp hlit)) hrejected
    | later hrejected h =>
      cases h' with
      | first h' => exact absurd ((h'.accepted hv).mono (hm'.calls_subset_gfp hlit)) hrejected
      | later _ h' => exact ih (fun q hq => hps q (.tail _ hq)) h h'

theorem like_class (ho : options.Plain) (hc : compile options g = some (.ok schema)) {cls : Iri}
    {p : Program} (hp : schema.setting.program? (.ofClass cls) = some p)
    (h : p.Gives schema.setting (schema.setting.acceptance view.graph).gfp C m view' v)
    (h' : p.Gives schema.setting (schema.setting.acceptance view.graph).gfp C m' view' v') :
    v.Like (m.SameKey m') v' := by
  obtain ⟨ps, rfl, hps⟩ := registered_of_program? ho hc hp
  exact like_firstOf hm hm' hlit hv hps h h'

end classes

section merging

variable (hm : schema.setting.Finished Merging view m)
  (hm' : schema.setting.Finished Merging view m') (hlit : view.LexicallyDistinct)
include hm hm' hlit

theorem like_contribution (ho : options.Plain) (hc : compile options g = some (.ok schema))
    (hv : view.Near view') {cls : Iri} {w w' : Value} (h : Merging m view' cls w)
    (h' : Merging m' view' cls w') : w.Like (m.SameKey m') w' := by
  by_cases hcls : cls = Rdfl.typedExtract
  · rw [h.1 hcls, h'.1 hcls]
    exact Value.like_of_refs rfl
  · obtain ⟨slot, hslot, hw⟩ := h.2 hcls
    obtain ⟨slot', hslot', hw'⟩ := h'.2 hcls
    obtain ⟨p, u, hu, hp, hgives⟩ := hm.gives_of_distinct hlit hv.2 hslot
    obtain ⟨p', u', hu', hp', hgives'⟩ := hm'.gives_of_distinct hlit hv.2 hslot'
    cases hw.symm.trans hu
    cases hw'.symm.trans hu'
    cases hp.symm.trans hp'
    have hnear : view.Near ⟨view'.focus, view.graph⟩ := ⟨rfl, hv.2⟩
    exact like_class hm hm' hlit hnear ho hc hp hgives hgives'

theorem like_dispatch (ho : options.Plain) (hc : compile options g = some (.ok schema))
    (hv : view.Near view')
    (h : Program.dispatch.Gives schema.setting (schema.setting.acceptance view.graph).gfp Merging m
      view' v)
    (h' : Program.dispatch.Gives schema.setting (schema.setting.acceptance view.graph).gfp Merging
      m' view' v') : v.Like (m.SameKey m') v' := by
  cases h with
  | single happlicable hslot =>
    cases h' with
    | single happlicable' hslot' =>
      cases happlicable.symm.trans happlicable'
      exact Value.like_ref ⟨_, hslot, hslot'⟩
    | merged hlen _ =>
      rw [happlicable] at hlen
      exact absurd hlen (by simp)
  | merged hlen hws =>
    cases h' with
    | single happlicable' _ =>
      rw [happlicable'] at hlen
      exact absurd hlen (by simp)
    | merged _ hws' =>
      refine .inl ⟨_, _, rfl, rfl, related_mergeFields_of_like ?_ .nil⟩
      exact hws.of_left hws' fun cls _ w w' hw hw' =>
        like_contribution hm hm' hlit ho hc hv hw.2 hw'.2

theorem like_of_sameKey (ho : options.Plain) (hc : compile options g = some (.ok schema))
    {slot slot' : SlotId} (h : m.SameKey m' slot slot') :
    ∃ v v', m.slot? slot = some (.ready v) ∧ m'.slot? slot' = some (.ready v') ∧
      v.Like (m.SameKey m') v' := by
  obtain ⟨key, hslot, hslot'⟩ := h
  obtain ⟨r, _, node, _, hnode, rfl⟩ := hm.tidy.keyed key slot hslot
  obtain ⟨p, v, hv, hp, hgives⟩ := hm.gives_of_distinct hlit hnode hslot
  obtain ⟨p', v', hv', hp', hgives'⟩ := hm'.gives_of_distinct hlit hnode hslot'
  cases hp.symm.trans hp'
  refine ⟨v, v', hv, hv', ?_⟩
  have hnear : view.Near ⟨node, view.graph⟩ := ⟨rfl, hnode⟩
  cases r with
  | ofClass cls => exact like_class hm hm' hlit hnear ho hc hp hgives hgives'
  | procedure name =>
    rw [program?_procedure ho hc] at hp
    cases hp
  | dispatch =>
    cases hp
    exact like_dispatch hm hm' hlit ho hc hnear hgives hgives'

/-- References to slots of one key unfold to the same at every depth. -/
theorem cutOff_eq (ho : options.Plain) (hc : compile options g = some (.ok schema))
    {slot slot' : SlotId} (h : m.SameKey m' slot slot') (depth : Nat) :
    ∃ w, m.cutOff depth (.ref slot) = some w ∧ m'.cutOff depth (.ref slot') = some w := by
  refine Memo.cutOff_eq (fun slot slot' h => ?_) depth (Value.alike_ref h)
  obtain ⟨v, v', hv, hv', hlike⟩ := like_of_sameKey hm hm' hlit ho hc h
  exact ⟨v, v', hv, hv', hlike.alike⟩

end merging

end Schema
end ShaclExtract
