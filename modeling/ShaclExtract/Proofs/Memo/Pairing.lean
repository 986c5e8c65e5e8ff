import ShaclExtract.Proofs.Dialogue.Termination
import ShaclExtract.Proofs.Extractor.Correspondence

/-!
# ShaclExtract.Proofs.Memo.Pairing

Two memoized runs side by side. A `Pairing` says which memos go together, and which slots of the one
go with which slots of the other, such that memos still go together when the same is done to both. A
shared run then corresponds to a shared run whenever what they run does
(`Pairing.corresponds_shared`).

The second run may be given less depth than the first one. What bounds its nesting is its memo: for
as long as there are fewer keys without a slot than there is depth, it has enough of it.
-/

namespace ShaclExtract

theorem RunState.grows_refl (s : RunState) : s.memo.Grows s.memo := .refl s.memo

theorem RunState.grows_trans {s s' s'' : RunState} (h : s.memo.Grows s'.memo)
    (h' : s'.memo.Grows s''.memo) : s.memo.Grows s''.memo := h.trans h'

structure Pairing where
  memos : Memo → Memo → Prop
  slots : SlotId → SlotId → Prop
  values : Value → Value → Prop
  /-- The keys that are looked up. -/
  keys : MemoKey → Prop
  of_refs : ∀ {v}, v.refs = [] → values v v
  ref : ∀ {slot slot'}, slots slot slot' → values (.ref slot) (.ref slot')
  list : ∀ {vs ws}, List.Forall₂ values vs ws → values (.list vs) (.list ws)
  record : ∀ {r r'}, Record.Related values r r' → values (.record r) (.record r')
  next : ∀ {m m'}, memos m m' → slots m.next m'.next
  lookup : ∀ {m m' key}, memos m m' → keys key → Option.Rel slots (m.lookup key) (m'.lookup key)
  reserve : ∀ {m m' key}, memos m m' → memos (m.reserve key) (m'.reserve key)
  settle : ∀ {m m' slot slot' v w}, memos m m' → slots slot slot' → values v w →
    memos (m.settle slot v) (m'.settle slot' w)
  failFrom : ∀ {m m' slot slot'}, memos m m' → slots slot slot' →
    memos (m.failFrom slot) (m'.failFrom slot')

namespace Pairing

def flip (K : Pairing) : Pairing where
  memos m m' := K.memos m' m
  slots slot slot' := K.slots slot' slot
  values v w := K.values w v
  keys := K.keys
  of_refs := K.of_refs
  ref := K.ref
  list h := K.list h.flip
  record h := K.record h.flip
  next := K.next
  lookup {m m' key} h hkey := by
    have hrel := K.lookup h hkey
    cases hm : m.lookup key <;> cases hm' : m'.lookup key <;> rw [hm, hm'] at hrel <;>
      cases hrel
    · exact .none
    · exact .some ‹_›
  reserve := K.reserve
  settle := K.settle
  failFrom := K.failFrom

def same : Pairing where
  memos := Eq
  slots := Eq
  values := Eq
  keys _ := True
  of_refs _ := rfl
  ref h := congrArg Value.ref h
  list h := by rw [List.forall₂_eq_eq_eq] at h; rw [h]
  record h := by rw [Record.related_eq h]
  next h := congrArg Memo.next h
  lookup {m m' key} h _ := by
    subst h
    cases m.lookup key with
    | none => exact .none
    | some slot => exact .some rfl
  reserve h := by rw [h]
  settle h hslot hv := by rw [h, hslot, hv]
  failFrom h hslot := by rw [h, hslot]

/-- The memos go together, and the second has fewer than `bound` of the keys left to reserve. -/
def beside (K : Pairing) (room : Finset MemoKey) (bound : Nat) :
    Correspondence RunState RunState where
  states s t := K.memos s.memo t.memo ∧ s.counters = t.counters ∧ t.memo.Bounded ∧
    (t.memo.missing room).card < bound
  grows t t' := t.memo.Grows t'.memo
  values _ := K.values
  refl := RunState.grows_refl
  trans := @RunState.grows_trans
  kept _ h := h
  of_refs := K.of_refs
  list := K.list
  record := K.record

variable {K : Pairing} {room : Finset MemoKey} {bound : Nat} {x y : Extractor RunState View Value}
  {id : ExtractorId} {view view' : View}

theorem corresponds_shared (hfocus : view'.focus = view.focus)
    (hkey : K.keys (.of id view.focus)) (hroom : .of id view.focus ∈ room)
    (hx : (K.beside room bound).Corresponds (fun _ => True) (K.beside room bound).values (x view)
      (y view')) :
    (K.beside room (bound + 1)).Corresponds (fun _ => True) (K.beside room (bound + 1)).values
      (Memo.shared id x view) (Memo.shared id y view') := by
  rintro s r s' t ⟨hmemos, hcounters, hbounded, hcard⟩ - hrun
  have hrel := K.lookup hmemos hkey
  obtain ⟨slot, hk, rfl, rfl⟩ | ⟨hk, r₁, s₁, hrun₁, hend⟩ := Memo.shared_cases hrun
  · cases hk' : t.memo.lookup (.of id view.focus) with
    | none => rw [hk, hk'] at hrel; cases hrel
    | some slot' =>
      rw [hk, hk'] at hrel
      cases hrel with
      | some hslot =>
        exact ⟨_, t, Memo.shared_of_lookup y (hfocus ▸ hk'), ⟨hmemos, hcounters, hbounded, hcard⟩,
          .refl _, K.ref hslot⟩
  · cases hk' : t.memo.lookup (.of id view.focus) with
    | some slot' => rw [hk, hk'] at hrel; cases hrel
    | none =>
      have hcard' := Memo.missing_reserve_lt hk' hroom
      obtain ⟨r₂, t₁, hrun₂, ⟨hmemos₁, hcounters₁, hbounded₁, -⟩, hg, hr⟩ :=
        hx { s with memo := s.memo.reserve (.of id view.focus) } r₁ s₁
          { t with memo := t.memo.reserve (.of id view.focus) }
          ⟨K.reserve hmemos, hcounters, (Memo.extends_reserve hk').bounded hbounded, by
            dsimp only
            omega⟩ trivial hrun₁
      rw [← hfocus] at hk' hrun₂ hg
      obtain ⟨v, rfl, rfl, rfl⟩ | ⟨e, rfl, rfl, rfl⟩ := hend
      · obtain ⟨_, ⟨⟩, _⟩ | ⟨_, w, ⟨⟩, rfl, hvw⟩ := hr.cases
        have hg' := hg.settle hk' w
        exact ⟨_, _, Memo.shared_of_ok hk' hrun₂, ⟨K.settle hmemos₁ (K.next hmemos) hvw,
          hcounters₁, hg'.extension.bounded hbounded,
          Nat.lt_of_le_of_lt (Finset.card_le_card (hg'.extension.missing_subset room)) hcard⟩,
          hg', K.ref (K.next hmemos)⟩
      · obtain ⟨_, ⟨⟩, rfl⟩ | ⟨_, _, ⟨⟩, _⟩ := hr.cases
        have hg' := Memo.Grows.failFrom hbounded hg
        exact ⟨_, _, Memo.shared_of_error hk' hrun₂, ⟨K.failFrom hmemos₁ (K.next hmemos),
          hcounters₁, hg'.extension.bounded hbounded,
          Nat.lt_of_le_of_lt (Finset.card_le_card (hg'.extension.missing_subset room)) hcard⟩,
          hg', rfl⟩

end Pairing
end ShaclExtract
