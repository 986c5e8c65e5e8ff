import ShaclExtract.Proofs.Memo.Pairing
import ShaclExtract.Proofs.Schema.Correspondence

/-!
# ShaclExtract.Proofs.Schema.Alongside

Routines of a schema run at two views with two memos. If the views that are invoked one beside the
other match (`Schema.Parallel`), and the memos go together, then both runs end or none does; they
fail with the same failure or give values that go together, and leave memos that do
(`Schema.ends_invoke`).
-/

namespace ShaclExtract

namespace Pairing

/-- Both runs end, with the same failure or with outputs that are related, or none of them does. -/
def Ends (K : Pairing) {α β : Type} (A : α → β → Prop) (o : Option (Except Failure α × RunState))
    (o' : Option (Except Failure β × RunState)) : Prop :=
  Option.Rel (fun a b => Correspondence.Results (fun _ => A) () a.1 b.1 ∧
    K.memos a.2.memo b.2.memo ∧ a.2.counters = b.2.counters) o o'

def Transforms (K : Pairing) (S : Setting) : Prop :=
  ∀ room bound, (K.beside room bound).Transforms S .memoized .memoized

def Merges (K : Pairing) : Prop := ∀ room bound, (K.beside room bound).Merges .memoized .memoized

theorem ends_of_corresponds {K : Pairing} {α β : Type} {A : α → β → Prop}
    {x : Action RunState α} {y : Action RunState β} {room room' : Finset MemoKey}
    {bound bound' : Nat}
    (hx : (K.beside room bound).Corresponds (fun _ => True) (fun _ => A) x y)
    (hy : (K.flip.beside room' bound').Corresponds (fun _ => True) (fun _ b a => A a b) y x)
    {s t : RunState} (hst : (K.beside room bound).states s t)
    (hts : (K.flip.beside room' bound').states t s) : K.Ends A (x s) (y t) := by
  cases hxs : x s with
  | some a =>
    obtain ⟨r', t', hyt, ⟨hmemos, hcounters, -⟩, -, hr⟩ := hx s a.1 a.2 t hst trivial hxs
    rw [hyt]
    exact .some ⟨hr, hmemos, hcounters⟩
  | none =>
    cases hyt : y t with
    | none => exact .none
    | some b =>
      obtain ⟨_, _, h, _⟩ := hy t b.1 b.2 s hts trivial hyt
      cases hxs.symm.trans h

/-- With nothing to look up, there is as much room as there are keys. -/
theorem states_empty {K : Pairing} {room : Finset MemoKey} {bound : Nat} (hroom : room.card < bound)
    {m m' : Memo} (h : K.memos m m') (hm : m'.Bounded) (counters : Counters) :
    (K.beside room bound).states ⟨m, counters⟩ ⟨m', counters⟩ :=
  ⟨h, rfl, hm, Nat.lt_of_le_of_lt (Finset.card_le_card (Finset.filter_subset _ _)) hroom⟩

end Pairing

namespace Schema

variable {options : Options} {g : Graph} {schema : Schema}

theorem Matches.symm {r : Routine} {view view' : View} (h : schema.Matches r view view') :
    schema.Matches r view' view where
  focus := h.focus.symm
  types := h.types.symm
  description hr := (h.description hr).symm
  context hr := (h.context hr).symm
  path hr := (h.path hr).symm
  walk sh hsh f hf := (h.walk sh hsh f hf).symm
  datatype sh hsh f hf d hd node hnode := by
    obtain ⟨hops, hwalk, hmem⟩ := hnode
    exact (h.datatype sh hsh f hf d hd node
      ⟨hops, (h.walk sh hsh f hf).symm.trans hwalk, hmem⟩).symm

theorem Invokes.of_matches {r r' : Routine} {view view' : View} {node : Term}
    (hv : schema.Matches r view view') (h : schema.Invokes (r, view') (r', view'.refocus node)) :
    schema.Invokes (r, view) (r', view.refocus node) := by
  have hfocus := hv.focus
  cases view with
  | mk focus graph =>
    cases view' with
    | mk focus' graph' =>
      obtain rfl : focus' = focus := hfocus
      cases h with
      | typed => exact .typed
      | dispatch hcls =>
        rw [Setting.applicable_eq _ hv.types] at hcls
        exact .dispatch hcls
      | property hsh hf hcls hnode =>
        obtain ⟨hops, hwalk, hmem⟩ := hnode
        exact .property hsh hf hcls ⟨hops, (hv.walk _ hsh _ hf).symm.trans hwalk, hmem⟩

/-- Routines and views that are run beside each other, and what they invoke beside each other. -/
structure Parallel (schema : Schema) (K : Pairing) (base : View)
    (Q : Routine → View → View → Prop) : Prop where
  reads : ∀ {r view view'}, Q r view view' → schema.Matches r view view'
  near : ∀ {r view view'}, Q r view view' → base.Near view'
  key : ∀ {r view view'}, Q r view view' → K.keys (.of (.routine r) view.focus)
  routine : ∀ {r view view'}, Q r view view' → ∀ name, r ≠ .procedure name
  invokes : ∀ {r view view' r' node}, Q r view view' →
    schema.Invokes (r, view) (r', view.refocus node) →
      Q r' (view.refocus node) (view'.refocus node)
  transforms : K.Transforms schema.setting
  merges : ∀ {view view'}, Q .dispatch view view' → K.Merges

theorem Parallel.flip {K : Pairing} {base base' : View} {Q : Routine → View → View → Prop}
    (h : schema.Parallel K base Q) (hnear : ∀ {r view view'}, Q r view view' → base'.Near view)
    (htransforms : K.flip.Transforms schema.setting)
    (hmerges : ∀ {view view'}, Q .dispatch view view' → K.flip.Merges) :
    schema.Parallel K.flip base' fun r view view' => Q r view' view where
  reads hq := (h.reads hq).symm
  near hq := hnear hq
  key hq := by
    rw [(h.reads hq).focus]
    exact h.key hq
  routine hq := h.routine hq
  invokes hq hnext := h.invokes hq (hnext.of_matches (h.reads hq))
  transforms := htransforms
  merges hq := hmerges hq

/-- Routines that are run beside each other correspond, whatever depth the first is given. -/
theorem Parallel.corresponds_invoke {K : Pairing} {base : View} {Q : Routine → View → View → Prop}
    (h : schema.Parallel K base Q) (ho : options.custom = [])
    (hc : compile options g = some (.ok schema)) (depth : Nat) : ∀ bound r view view',
      Q r view view' →
        (K.beside (schema.setting.keys base) bound).Corresponds (fun _ => True) (fun _ => K.values)
          (schema.setting.invoke .memoized depth r view)
          (schema.setting.invoke .memoized bound r view') := by
  induction depth with
  | zero =>
    intro bound r view view' _ s result s' t _ _ hrun
    cases hrun
  | succ depth ih =>
    intro bound r view view' hq
    cases bound with
    | zero =>
      rintro s result s' t ⟨-, -, -, hroom⟩
      exact absurd hroom (Nat.not_lt_zero _)
    | succ bound =>
      cases hp : schema.setting.program? r with
      | none =>
        rw [Setting.invoke_of_none _ hp, Setting.invoke_of_none _ hp]
        exact .answer fun _ _ => rfl
      | some p =>
        rw [Setting.invoke_of_program _ hp, Setting.invoke_of_program _ hp]
        have hfocus := (h.reads hq).focus
        refine Pairing.corresponds_shared hfocus (h.key hq) ?_ ?_
        · rw [← hfocus]
          exact Setting.mem_keys hp (h.near hq)
        · refine corresponds_program ho hc (fun _ ht => ht) (h.transforms _ bound) hp
            (h.routine hq) ?_ (h.reads hq) fun r' node hnext => ih bound r' _ _ (h.invokes hq hnext)
          rintro rfl
          exact h.merges hq _ bound

theorem ends_invoke (ho : options.custom = []) (hc : compile options g = some (.ok schema))
    {K : Pairing} {base base' : View} {Q : Routine → View → View → Prop}
    (h : schema.Parallel K base' Q) (h' : schema.Parallel K.flip base fun r v v' => Q r v' v)
    {depth depth' : Nat} {r : Routine} {view view' : View} (hq : Q r view view') {s t : RunState}
    (hst : (K.beside (schema.setting.keys base') depth').states s t)
    (hts : (K.flip.beside (schema.setting.keys base) depth).states t s) :
    K.Ends K.values (schema.setting.invoke .memoized depth r view s)
      (schema.setting.invoke .memoized depth' r view' t) :=
  Pairing.ends_of_corresponds (h.corresponds_invoke ho hc depth depth' r view view' hq)
    (h'.corresponds_invoke ho hc depth' depth r view' view hq) hst hts

end Schema
end ShaclExtract
