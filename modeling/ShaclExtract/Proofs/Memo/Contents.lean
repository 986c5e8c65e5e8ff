import ShaclExtract.Proofs.Memo.References

/-!
# ShaclExtract.Proofs.Memo.Contents

What the slots of a memo hold.

* `Memo.KeptBy`: another memo still has all entries and values. `Extends` says more about what was
  there and nothing about a slot that is filled later.
* `Memo.Holds T`: the value of every slot that has a key is as `T` says. When `T` is kept along with
  entries and values, only the value that a run puts in its own slot has to be looked at
  (`shared_holds`).
* `Memo.Regular`: different keys have different slots, none of which has failed.
* `Memo.Grows`: a memo is extended, and no further slot is pending.
-/

namespace ShaclExtract
namespace Memo

variable {m m' m'' : Memo} {key : MemoKey}

/-! ## entries and values that stay -/

structure KeptBy (m m' : Memo) : Prop where
  entries : ∀ key slot, m.lookup key = some slot → m'.lookup key = some slot
  values : ∀ id v, m.slot? id = some (.ready v) → m'.slot? id = some (.ready v)

theorem KeptBy.refl (m : Memo) : m.KeptBy m := ⟨fun _ _ h => h, fun _ _ h => h⟩

theorem KeptBy.trans (h : m.KeptBy m') (h' : m'.KeptBy m'') : m.KeptBy m'' :=
  ⟨fun key slot hk => h'.entries key slot (h.entries key slot hk),
    fun id v hv => h'.values id v (h.values id v hv)⟩

theorem Extends.keptBy (h : m.Extends m') : m.KeptBy m' :=
  ⟨fun _ _ hk => h.lookup hk, fun _ _ hv => h.slot? hv⟩

theorem slot?_settle_of_ne {id t : SlotId} (h : t ≠ id) (v : Value) :
    (m.settle id v).slot? t = m.slot? t := by
  have hne : id.index ≠ t.index := by
    rintro heq
    cases t
    cases heq
    exact h rfl
  rw [slot?, slots_settle, List.getElem?_set_ne hne, slot?]

theorem keptBy_settle {id : SlotId} (hid : m.slot? id = some .pending) (v : Value) :
    m.KeptBy (m.settle id v) := by
  refine ⟨fun _ _ hk => hk, fun t w hw => ?_⟩
  have hne : t ≠ id := by
    rintro rfl
    cases hid.symm.trans hw
  rw [slot?_settle_of_ne hne]
  exact hw

theorem pending_of_extends_reserve (h : (m.reserve key).Extends m') :
    m'.slot? m.next = some .pending :=
  h.slot? (by rw [slot?_reserve, if_pos rfl])

theorem slot?_settle_next (h : (m.reserve key).Extends m') (v : Value) :
    (m'.settle m.next v).slot? m.next = some (.ready v) := by
  have hlt := (List.getElem?_eq_some_iff.1 (pending_of_extends_reserve h)).1
  rw [slot?_settle hlt, if_pos rfl]

theorem lookup_settle_next (h : (m.reserve key).Extends m') (v : Value) :
    (m'.settle m.next v).lookup key = some m.next := by
  rw [lookup_settle]
  exact h.lookup (by rw [lookup_reserve, if_pos rfl])

/-! ## what the values are -/

/-- A property of slots that is kept along with entries and values. -/
def Lasting (T : Memo → MemoKey → SlotId → Value → Prop) : Prop :=
  ∀ m m' key slot v, m.KeptBy m' → T m key slot v → T m' key slot v

def Holds (T : Memo → MemoKey → SlotId → Value → Prop) (m : Memo) : Prop :=
  ∀ key slot v, m.lookup key = some slot → m.slot? slot = some (.ready v) → T m key slot v

variable {T : Memo → MemoKey → SlotId → Value → Prop}

theorem holds_empty : empty.Holds T := by
  intro key slot v hk
  cases hk

theorem Holds.reserve (hT : Lasting T) (h : m.Holds T) (hk : m.lookup key = none) :
    (m.reserve key).Holds T := by
  intro k slot v hslot hv
  rw [slot?_reserve] at hv
  split at hv
  · cases hv
  · rename_i hne
    rw [lookup_reserve] at hslot
    split at hslot
    · cases hslot
      exact absurd rfl hne
    · exact hT _ _ _ _ _ (extends_reserve hk).keptBy (h k slot v hslot hv)

theorem Holds.settle (hT : Lasting T) (hm : m.Bounded) (hext : (m.reserve key).Extends m')
    (h : m'.Holds T) {v : Value} (hv : T (m'.settle m.next v) key m.next v) :
    (m'.settle m.next v).Holds T := by
  intro k slot w hslot hw
  rw [lookup_settle] at hslot
  by_cases hs : slot = m.next
  · subst hs
    obtain rfl := eq_of_lookup_next hm hext hslot
    rw [slot?_settle_next hext] at hw
    cases hw
    exact hv
  · rw [slot?_settle_of_ne hs] at hw
    have hkept := keptBy_settle (pending_of_extends_reserve hext) v
    exact hT _ _ _ _ _ hkept (h k slot w hslot hw)

theorem Holds.of_index_eq (hT : Lasting T) (h : m.Holds T) (hm : m.Bounded)
    (hindex : m'.index = m.index) {added : List Slot} (hslots : m'.slots = m.slots ++ added) :
    m'.Holds T := by
  have hlookup : ∀ k, m'.lookup k = m.lookup k := fun k => by simp only [lookup, hindex]
  intro k slot v hslot hv
  rw [hlookup] at hslot
  rw [slot?, hslots, List.getElem?_append_left (lookup_lt hm hslot)] at hv
  refine hT _ _ _ _ _ ⟨fun k slot hk => (hlookup k).trans hk, fun id w hw => ?_⟩
    (h k slot v hslot hv)
  have hlt := (List.getElem?_eq_some_iff.1 hw).1
  rw [slot?, hslots, List.getElem?_append_left hlt]
  exact hw

theorem Holds.failFrom (hT : Lasting T) (h : m.Holds T) (hm : m.Bounded)
    (hext : (m.reserve key).Extends m') : (m'.failFrom m.next).Holds T := by
  have hfail := failFrom_of_extends hm hext
  exact h.of_index_eq hT hm (by rw [hfail]) (by rw [hfail])

/-- What a run does within its own slot decides what the memo holds afterwards. -/
theorem shared_holds (hT : Lasting T) {id : ExtractorId} {x : Extractor RunState View Value}
    {view : View} {s s' : RunState} {r : Except Failure Value} (hs : s.memo.Bounded)
    (hx : Extending (x view)) (h : shared id x view s = some (r, s')) (hold : s.memo.Holds T)
    (hbody : ∀ r₁ s₁, s.memo.lookup (.of id view.focus) = none →
      x view { s with memo := s.memo.reserve (.of id view.focus) } = some (r₁, s₁) →
      (s.memo.reserve (.of id view.focus)).Holds T →
      s₁.memo.Holds T ∧ ∀ v, r₁ = .ok v →
        T (s₁.memo.settle s.memo.next v) (.of id view.focus) s.memo.next v) :
    s'.memo.Holds T := by
  obtain ⟨slot, _, _, rfl⟩ | ⟨hk, r₁, s₁, hrun, hend⟩ := shared_cases h
  · exact hold
  · have hext := hx _ _ _ hrun ((extends_reserve hk).bounded hs)
    obtain ⟨hholds, hvalue⟩ := hbody r₁ s₁ hk hrun (hold.reserve hT hk)
    obtain ⟨v, rfl, _, rfl⟩ | ⟨e, rfl, _, rfl⟩ := hend
    · exact hholds.settle hT hs hext (hvalue v rfl)
    · exact hold.failFrom hT hs hext

/-! ## keys and slots -/

structure Regular (m : Memo) : Prop where
  separate : ∀ key key' slot, m.lookup key = some slot → m.lookup key' = some slot → key = key'
  live : ∀ key slot, m.lookup key = some slot → m.Live slot

theorem regular_empty : empty.Regular where
  separate key key' slot hk := by cases hk
  live key slot hk := by cases hk

theorem Regular.reserve (h : m.Regular) (hm : m.Bounded) : (m.reserve key).Regular where
  separate k k' slot hk hk' := by
    have hold : ∀ k, m.lookup k ≠ some m.next := fun k hk => Nat.lt_irrefl _ (lookup_lt hm hk)
    rw [lookup_reserve] at hk hk'
    split at hk
    · rename_i heq
      cases hk
      split at hk'
      · rename_i heq'
        exact heq.symm.trans heq'
      · exact absurd hk' (hold k')
    · split at hk'
      · cases hk'
        exact absurd hk (hold k)
      · exact h.separate k k' slot hk hk'
  live k slot hk := by
    rw [live_reserve]
    rw [lookup_reserve] at hk
    split at hk
    · cases hk
      exact .inl rfl
    · exact .inr (h.live k slot hk)

theorem Regular.settle (h : m'.Regular) (hext : (m.reserve key).Extends m') (v : Value) :
    (m'.settle m.next v).Regular where
  separate := h.separate
  live k slot hk :=
    (live_settle ⟨_, pending_of_extends_reserve hext, by simp⟩ v slot).2 (h.live k slot hk)

theorem Regular.failFrom (h : m.Regular) (hm : m.Bounded) (hext : (m.reserve key).Extends m') :
    (m'.failFrom m.next).Regular := by
  rw [failFrom_of_extends hm hext]
  refine ⟨h.separate, fun k slot hk => ?_⟩
  obtain ⟨c, hc, hne⟩ := h.live k slot hk
  have hlt := (List.getElem?_eq_some_iff.1 hc).1
  exact ⟨c, by rw [slot?, List.getElem?_append_left hlt]; exact hc, hne⟩

theorem shared_regular {id : ExtractorId} {x : Extractor RunState View Value} {view : View}
    {s s' : RunState} {r : Except Failure Value} (hs : s.memo.Bounded) (hx : Extending (x view))
    (h : shared id x view s = some (r, s')) (hold : s.memo.Regular)
    (hbody : ∀ r₁ s₁, s.memo.lookup (.of id view.focus) = none →
      x view { s with memo := s.memo.reserve (.of id view.focus) } = some (r₁, s₁) →
      s₁.memo.Regular) : s'.memo.Regular := by
  obtain ⟨slot, _, _, rfl⟩ | ⟨hk, r₁, s₁, hrun, hend⟩ := shared_cases h
  · exact hold
  · have hext := hx _ _ _ hrun ((extends_reserve hk).bounded hs)
    obtain ⟨v, _, _, rfl⟩ | ⟨e, _, _, rfl⟩ := hend
    · exact (hbody r₁ s₁ hk hrun).settle hext v
    · exact hold.failFrom hs hext

/-! ## pending slots -/

/-- The key has a slot that is not filled yet. -/
def Unfinished (m : Memo) (key : MemoKey) : Prop :=
  ∃ slot, m.lookup key = some slot ∧ m.slot? slot = some .pending

theorem unfinished_reserve (m : Memo) (key : MemoKey) : (m.reserve key).Unfinished key :=
  ⟨m.next, by rw [lookup_reserve, if_pos rfl], by rw [slot?_reserve, if_pos rfl]⟩

theorem Unfinished.of_reserve {k : MemoKey} (h : (m.reserve key).Unfinished k) (hm : m.Bounded) :
    k = key ∨ m.Unfinished k := by
  obtain ⟨slot, hslot, hp⟩ := h
  rw [lookup_reserve] at hslot
  split at hslot
  · exact .inl (Eq.symm ‹_›)
  · rw [slot?_reserve, if_neg] at hp
    · exact .inr ⟨slot, hslot, hp⟩
    · rintro rfl
      exact Nat.lt_irrefl _ (lookup_lt hm hslot)

theorem Extends.unfinished (h : m.Extends m') (hk : m.Unfinished key) : m'.Unfinished key := by
  obtain ⟨slot, hslot, hp⟩ := hk
  exact ⟨slot, h.lookup hslot, h.slot? hp⟩

/-- What a run that has ended does to a memo. -/
structure Grows (m m' : Memo) : Prop where
  extension : m.Extends m'
  finished : ∀ id, m'.slot? id = some .pending → m.slot? id = some .pending

theorem Grows.refl (m : Memo) : m.Grows m := ⟨.refl m, fun _ h => h⟩

theorem Grows.trans (h : m.Grows m') (h' : m'.Grows m'') : m.Grows m'' :=
  ⟨h.extension.trans h'.extension, fun id hid => h.finished id (h'.finished id hid)⟩

theorem Grows.unfinished (h : m.Grows m') (hkey : m'.Unfinished key) : m.Unfinished key := by
  obtain ⟨slot, hslot, hp⟩ := hkey
  have hold := h.finished slot hp
  exact ⟨slot, h.extension.lookup_of_lt hslot (List.getElem?_eq_some_iff.1 hold).1, hold⟩

theorem Grows.settle (hk : m.lookup key = none) (h : (m.reserve key).Grows m') (v : Value) :
    m.Grows (m'.settle m.next v) := by
  refine ⟨extends_settle hk h.extension v, fun id hid => ?_⟩
  have hne : id ≠ m.next := by
    rintro rfl
    cases (slot?_settle_next h.extension v).symm.trans hid
  rw [slot?_settle_of_ne hne] at hid
  have hres := h.finished id hid
  rwa [slot?_reserve, if_neg hne] at hres

theorem Grows.failFrom (hm : m.Bounded) (h : (m.reserve key).Grows m') :
    m.Grows (m'.failFrom m.next) := by
  rw [failFrom_of_extends hm h.extension]
  refine ⟨⟨_, [], rfl, by simp⟩, fun id hid => ?_⟩
  by_cases hlt : id.index < m.slots.length
  · rwa [slot?, List.getElem?_append_left hlt] at hid
  · rw [slot?, List.getElem?_append_right (by omega), List.getElem?_replicate] at hid
    split at hid <;> cases hid

def Growing {ο : Type} (x : RunState → Option (Except Failure ο × RunState)) : Prop :=
  ∀ s r s', x s = some (r, s') → s.memo.Bounded → s.memo.Grows s'.memo

theorem shared_growing {id : ExtractorId} {x : Extractor RunState View Value} {view : View}
    (hx : Growing (x view)) : Growing (shared id x view) := by
  intro s r s' h hs
  obtain ⟨slot, _, _, rfl⟩ | ⟨hk, r₁, s₁, hrun, hend⟩ := shared_cases h
  · exact .refl _
  · have hg := hx _ _ _ hrun ((extends_reserve hk).bounded hs)
    obtain ⟨v, _, _, rfl⟩ | ⟨e, _, _, rfl⟩ := hend
    · exact hg.settle hk v
    · exact hg.failFrom hs

end Memo
end ShaclExtract
