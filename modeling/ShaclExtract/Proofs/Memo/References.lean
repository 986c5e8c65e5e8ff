import ShaclExtract.Proofs.Memo.Growth

/-!
# ShaclExtract.Proofs.Memo.References

References in values, and memos without dangling ones. A memo is `Sound` if its index is a bijection
between keys and the slots that are pending or ready, and if no ready slot refers to a slot that has
failed or does not exist.

Soundness alone is not kept when a run is taken back: a ready slot that stays might refer to a slot
that goes. What excludes it is the order of runs. A slot that is ready while a later one is
unfinished was settled before that one was reserved, so all its references are older
(`Memo.Settled`), and `Sound.failFrom` needs only this.
-/

namespace ShaclExtract

namespace Value

mutual

def refs : Value → List SlotId
  | .ref slot => [slot]
  | .list items => refsOfItems items
  | .record fields => refsOfFields fields
  | _ => []

def refsOfItems : List Value → List SlotId
  | [] => []
  | v :: vs => refs v ++ refsOfItems vs

def refsOfFields : List (String × Value) → List SlotId
  | [] => []
  | (_, v) :: fields => refs v ++ refsOfFields fields

end

theorem refsOfItems_eq_flatMap : ∀ vs : List Value, refsOfItems vs = vs.flatMap refs
  | [] => rfl
  | v :: vs => by simp [refsOfItems, refsOfItems_eq_flatMap vs]

theorem refsOfFields_eq_flatMap : ∀ fields : List (String × Value),
    refsOfFields fields = fields.flatMap fun f => f.2.refs
  | [] => rfl
  | (_, v) :: fields => by simp [refsOfFields, refsOfFields_eq_flatMap fields]

end Value

def Record.refs (r : Record) : List SlotId := r.flatMap fun f => f.2.refs

@[simp] theorem Value.refs_ref (slot : SlotId) : (Value.ref slot).refs = [slot] := rfl

@[simp] theorem Value.refs_list (vs : List Value) : (Value.list vs).refs = vs.flatMap refs :=
  refsOfItems_eq_flatMap vs

@[simp] theorem Value.refs_record (r : Record) : (Value.record r).refs = r.refs :=
  refsOfFields_eq_flatMap r

def resultRefs : Except Failure Value → List SlotId
  | .ok v => v.refs
  | .error _ => []

namespace Record

@[simp] theorem refs_nil : Record.refs [] = [] := rfl

@[simp] theorem refs_cons (f : String × Value) (r : Record) :
    Record.refs (f :: r) = f.2.refs ++ Record.refs r := rfl

theorem refs_insert (r : Record) (name : String) (v : Value) :
    (r.insert name v).refs ⊆ v.refs ++ r.refs := by
  induction r with
  | nil => simp [insert]
  | cons f r ih =>
    obtain ⟨n, w⟩ := f
    intro t ht
    unfold insert at ht
    split at ht
    · simp only [refs_cons, List.mem_append] at ht ⊢
      rcases ht with ht | ht
      · exact .inl ht
      · exact .inr (.inr ht)
    · split at ht
      · simpa using ht
      · simp only [refs_cons, List.mem_append] at ht ⊢
        rcases ht with ht | ht
        · exact .inr (.inl ht)
        · exact (List.mem_append.1 (ih ht)).imp id .inr

theorem refs_merge (old new : Record) : (Record.merge old new).refs ⊆ new.refs ++ old.refs := by
  induction new generalizing old with
  | nil => simp [merge]
  | cons f new ih =>
    intro t ht
    have h : t ∈ Record.refs new ++ (old.insert f.1 f.2).refs := ih (old.insert f.1 f.2) ht
    simp only [refs_cons, List.append_assoc, List.mem_append] at h ⊢
    rcases h with h | h
    · exact .inr (.inl h)
    · rcases List.mem_append.1 (refs_insert old f.1 f.2 h) with h | h
      · exact .inl h
      · exact .inr (.inr h)

theorem refs_ofList (fields : List (String × Value)) :
    (ofList fields).refs ⊆ Record.refs fields := by
  have h := refs_merge [] fields
  rwa [refs_nil, List.append_nil] at h

end Record

namespace Memo

/-- The slot is there and has not failed. -/
def Live (m : Memo) (id : SlotId) : Prop := ∃ c, m.slot? id = some c ∧ c ≠ .failed

structure Sound (m : Memo) : Prop where
  /-- A key has at most one entry. -/
  keys : (m.index.map Prod.fst).Nodup
  /-- A slot has at most one key. -/
  slots : (m.index.map Prod.snd).Nodup
  /-- The slots that have a key are those that are pending or ready. -/
  indexed : ∀ id, id ∈ m.index.map Prod.snd ↔ m.Live id
  /-- The references in a ready slot lead to slots that are pending or ready. -/
  closed : ∀ id v, m.slot? id = some (.ready v) → ∀ t ∈ v.refs, m.Live t

/-- The ready slots before `id` refer only to slots before it. -/
def Settled (m : Memo) (id : SlotId) : Prop :=
  ∀ r v, m.slot? r = some (.ready v) → r.index < id.index → ∀ t ∈ v.refs, t.index < id.index

theorem Live.pending_or_ready {m : Memo} {id : SlotId} (h : m.Live id) :
    m.slot? id = some .pending ∨ ∃ v, m.slot? id = some (.ready v) := by
  obtain ⟨c, hc, hne⟩ := h
  cases c with
  | pending => exact .inl hc
  | ready v => exact .inr ⟨v, hc⟩
  | failed => exact absurd rfl hne

theorem Live.lt {m : Memo} {id : SlotId} (h : m.Live id) : id.index < m.slots.length := by
  obtain ⟨c, hc, _⟩ := h
  exact (List.getElem?_eq_some_iff.1 hc).1

theorem sound_empty : empty.Sound where
  keys := List.nodup_nil
  slots := List.nodup_nil
  indexed id := by simp [Live, slot?, empty]
  closed id v h := by simp [slot?, empty] at h

theorem Sound.live_of_lookup {m : Memo} (hm : m.Sound) {key : MemoKey} {slot : SlotId}
    (h : m.lookup key = some slot) : m.Live slot :=
  (hm.indexed slot).1 (List.mem_map_of_mem (f := Prod.snd) (Table.mem_of_lookup h))

/-! ## the slots after each operation -/

theorem slot?_reserve (m : Memo) (key : MemoKey) (id : SlotId) :
    (m.reserve key).slot? id = if id = m.next then some .pending else m.slot? id := by
  obtain ⟨i⟩ := id
  simp only [slot?, slots_reserve]
  by_cases h : i = m.slots.length
  · subst h
    simp [next]
  · rw [if_neg (by simpa [next] using h)]
    by_cases hlt : i < m.slots.length
    · rw [List.getElem?_append_left hlt]
    · rw [List.getElem?_eq_none (by simp; omega), List.getElem?_eq_none (by omega)]

theorem slot?_settle {m : Memo} {id : SlotId} (hid : id.index < m.slots.length) (v : Value)
    (t : SlotId) : (m.settle id v).slot? t = if t = id then some (.ready v) else m.slot? t := by
  obtain ⟨i⟩ := id
  obtain ⟨j⟩ := t
  simp only [slot?, slots_settle, SlotId.mk.injEq, List.getElem?_set]
  by_cases h : i = j
  · subst h
    simp [show i < m.slots.length from hid]
  · simp [h, Ne.symm h]

theorem slot?_failFrom {m : Memo} {start : SlotId} (hs : start.index ≤ m.slots.length)
    (t : SlotId) :
    (m.failFrom start).slot? t =
      if t.index < start.index then m.slot? t
      else if t.index < m.slots.length then some .failed else none := by
  simp only [slot?, failFrom]
  have hlen : (m.slots.take start.index).length = start.index := by
    rw [List.length_take]
    omega
  by_cases h : t.index < start.index
  · rw [if_pos h, List.getElem?_append_left (by omega), List.getElem?_take_of_lt h]
  · rw [if_neg h, List.getElem?_append_right (by omega), List.getElem?_replicate, hlen]
    by_cases h' : t.index < m.slots.length
    · rw [if_pos h', if_pos (by omega)]
    · rw [if_neg h', if_neg (by omega)]

theorem live_reserve (m : Memo) (key : MemoKey) (id : SlotId) :
    (m.reserve key).Live id ↔ id = m.next ∨ m.Live id := by
  simp only [Live, slot?_reserve]
  by_cases h : id = m.next
  · simp [h]
  · simp [h]

theorem live_settle {m : Memo} {id : SlotId} (hid : m.Live id) (v : Value) (t : SlotId) :
    (m.settle id v).Live t ↔ m.Live t := by
  by_cases h : t = id
  · subst h
    simp only [hid, iff_true]
    exact ⟨.ready v, by simp [slot?_settle hid.lt], by simp⟩
  · simp only [Live, slot?_settle hid.lt, if_neg h]

theorem live_failFrom {m : Memo} {start : SlotId} (hs : start.index ≤ m.slots.length)
    (t : SlotId) : (m.failFrom start).Live t ↔ m.Live t ∧ t.index < start.index := by
  simp only [Live, slot?_failFrom hs]
  by_cases h : t.index < start.index
  · simp [h]
  · simp only [h, if_false, and_false, iff_false]
    rintro ⟨c, hc, hne⟩
    split at hc
    · cases hc
      exact hne rfl
    · cases hc

/-! ## soundness after each operation -/

theorem Sound.reserve {m : Memo} (hm : m.Sound) {key : MemoKey} (hk : m.lookup key = none) :
    (m.reserve key).Sound where
  keys := by
    rw [index_reserve, List.map_cons, List.nodup_cons]
    exact ⟨Table.lookup_eq_none_iff.1 hk, hm.keys⟩
  slots := by
    rw [index_reserve, List.map_cons, List.nodup_cons]
    refine ⟨fun hmem => ?_, hm.slots⟩
    have := ((hm.indexed _).1 hmem).lt
    simp at this
  indexed id := by
    rw [live_reserve, index_reserve, List.map_cons, List.mem_cons, hm.indexed]
  closed id v h t ht := by
    rw [slot?_reserve] at h
    split at h
    · cases h
    · exact (live_reserve m key t).2 (.inr (hm.closed id v h t ht))

theorem Sound.settle {m : Memo} (hm : m.Sound) {id : SlotId} (hid : m.Live id) {v : Value}
    (hv : ∀ t ∈ v.refs, m.Live t) : (m.settle id v).Sound where
  keys := hm.keys
  slots := hm.slots
  indexed t := by
    rw [live_settle hid, index_settle, hm.indexed]
  closed r w h t ht := by
    rw [live_settle hid]
    rw [slot?_settle hid.lt] at h
    split at h
    · cases h
      exact hv t ht
    · exact hm.closed r w h t ht

theorem Sound.failFrom {m : Memo} (hm : m.Sound) {start : SlotId}
    (hs : start.index ≤ m.slots.length) (hold : m.Settled start) : (m.failFrom start).Sound where
  keys := (List.filter_sublist.map Prod.fst).nodup hm.keys
  slots := (List.filter_sublist.map Prod.snd).nodup hm.slots
  indexed id := by
    rw [live_failFrom hs, ← hm.indexed]
    simp only [Memo.failFrom, List.mem_map, List.mem_filter, decide_eq_true_eq]
    constructor
    · rintro ⟨e, ⟨he, hlt⟩, rfl⟩
      exact ⟨⟨e, he, rfl⟩, hlt⟩
    · rintro ⟨⟨e, he, rfl⟩, hlt⟩
      exact ⟨e, ⟨he, hlt⟩, rfl⟩
  closed r v h t ht := by
    rw [slot?_failFrom hs] at h
    split at h
    · rename_i hr
      exact (live_failFrom hs t).2 ⟨hm.closed r v h t ht, hold r v h hr t ht⟩
    · split at h <;> cases h

theorem Sound.resolve {m : Memo} (hm : m.Sound) {v : Value} (hv : ∀ t ∈ v.refs, m.Live t) :
    ∀ t ∈ (m.resolve v).refs, m.Live t := by
  have hfollow : ∀ (bound : Nat) (v : Value), (∀ t ∈ v.refs, m.Live t) →
      ∀ t ∈ (m.follow bound v).refs, m.Live t := by
    intro bound
    induction bound with
    | zero => intro v _ t ht; cases ht
    | succ bound ih =>
      intro v hv
      unfold follow
      split
      · rename_i slot heq
        cases heq
      · rename_i b slot heq
        cases heq
        split
        · rename_i w hw
          exact ih w (hm.closed slot w hw)
        · intro t ht
          cases ht
      · exact hv
  exact hfollow _ v hv

/-- A reference is met by going from a value to the slots it refers to, and on from there. -/
inductive Leads (m : Memo) : Value → SlotId → Prop where
  | here {v : Value} {t : SlotId} : t ∈ v.refs → Leads m v t
  | through {v w : Value} {t u : SlotId} :
      t ∈ v.refs → m.slot? t = some (.ready w) → Leads m w u → Leads m v u

theorem Sound.leads {m : Memo} (hm : m.Sound) {v : Value} (hv : ∀ t ∈ v.refs, m.Live t)
    {u : SlotId} (h : m.Leads v u) : m.Live u := by
  induction h with
  | here ht => exact hv _ ht
  | through _ hw _ ih => exact ih (hm.closed _ _ hw)

end Memo
end ShaclExtract
