import ShaclExtract.Strategy

/-!
# ShaclExtract.Proofs.Memo.Growth

How sharing changes a memo. `Memo.Extends` says that a memo came out of another one by adding slots
and entries: nothing that was there has changed, and the new entries are for new keys and lead to
new slots. A shared run extends the memo whenever what it runs does (`shared_extends`).

`failFrom_of_extends` is the reason: taking back the slot that was reserved for a run removes
exactly the entries that were made since, however many runs were nested in it.
-/

namespace ShaclExtract
namespace Memo

/-- Every entry leads to a slot that exists. -/
def Bounded (m : Memo) : Prop := ∀ e ∈ m.index, e.2.index < m.slots.length

/-- Slots and entries were added, and nothing else happened. -/
def Extends (m m' : Memo) : Prop :=
  ∃ slots entries, m' = ⟨m.slots ++ slots, entries ++ m.index⟩ ∧
    ∀ e ∈ entries, m.lookup e.1 = none ∧ m.slots.length ≤ e.2.index ∧
      e.2.index < m.slots.length + slots.length

def Extending {ο : Type} (x : RunState → Option (Except Failure ο × RunState)) : Prop :=
  ∀ s r s', x s = some (r, s') → s.memo.Bounded → s.memo.Extends s'.memo

theorem bounded_empty : empty.Bounded := by
  intro e he
  cases he

/-! ## reserving and settling -/

@[simp] theorem slots_reserve (m : Memo) (key : MemoKey) :
    (m.reserve key).slots = m.slots ++ [.pending] := rfl

@[simp] theorem index_reserve (m : Memo) (key : MemoKey) :
    (m.reserve key).index = (key, m.next) :: m.index := rfl

@[simp] theorem index_settle (m : Memo) (id : SlotId) (v : Value) :
    (m.settle id v).index = m.index := rfl

@[simp] theorem slots_settle (m : Memo) (id : SlotId) (v : Value) :
    (m.settle id v).slots = m.slots.set id.index (.ready v) := rfl

@[simp] theorem index_next (m : Memo) : m.next.index = m.slots.length := rfl

theorem lookup_reserve (m : Memo) (key k : MemoKey) :
    (m.reserve key).lookup k = if key = k then some m.next else m.lookup k := rfl

@[simp] theorem lookup_settle (m : Memo) (id : SlotId) (v : Value) (k : MemoKey) :
    (m.settle id v).lookup k = m.lookup k := rfl

theorem lookup_lt {m : Memo} (hm : m.Bounded) {key : MemoKey} {slot : SlotId}
    (h : m.lookup key = some slot) : slot.index < m.slots.length :=
  hm _ (Table.mem_of_lookup h)

/-! ## extensions -/

namespace Extends

theorem refl (m : Memo) : m.Extends m := ⟨[], [], by simp, by simp⟩

theorem lookup {m m' : Memo} (h : m.Extends m') {key : MemoKey} {slot : SlotId}
    (hk : m.lookup key = some slot) : m'.lookup key = some slot := by
  obtain ⟨slots, entries, rfl, he⟩ := h
  have hnew : Table.lookup entries key = none := by
    rw [Table.lookup_eq_none_iff, List.mem_map]
    rintro ⟨e, hmem, rfl⟩
    rw [(he e hmem).1] at hk
    cases hk
  show Table.lookup (entries ++ m.index) key = some slot
  rw [Table.lookup_append, hnew, Option.none_or]
  exact hk

theorem lookup_of_lt {m m' : Memo} (h : m.Extends m') {key : MemoKey} {slot : SlotId}
    (hk : m'.lookup key = some slot) (hlt : slot.index < m.slots.length) :
    m.lookup key = some slot := by
  obtain ⟨slots, entries, rfl, he⟩ := h
  cases hnew : Table.lookup entries key with
  | none => rwa [Memo.lookup, Table.lookup_append, hnew, Option.none_or] at hk
  | some slot' =>
    have hlow := (he _ (Table.mem_of_lookup hnew)).2.1
    rw [Memo.lookup, Table.lookup_append, hnew, Option.some_or] at hk
    cases hk
    dsimp only at hlow
    omega

theorem lookup_none {m m' : Memo} (h : m.Extends m') {key : MemoKey}
    (hk : m'.lookup key = none) : m.lookup key = none := by
  cases hm : m.lookup key with
  | none => rfl
  | some slot =>
    rw [h.lookup hm] at hk
    cases hk

theorem slot? {m m' : Memo} (h : m.Extends m') {id : SlotId} {c : Slot}
    (hc : m.slot? id = some c) : m'.slot? id = some c := by
  obtain ⟨slots, entries, rfl, _⟩ := h
  obtain ⟨hlt, _⟩ := List.getElem?_eq_some_iff.1 hc
  show (m.slots ++ slots)[id.index]? = some c
  rw [List.getElem?_append_left hlt]
  exact hc

theorem bounded {m m' : Memo} (h : m.Extends m') (hm : m.Bounded) : m'.Bounded := by
  obtain ⟨slots, entries, rfl, he⟩ := h
  intro e hmem
  rw [List.length_append]
  rcases List.mem_append.1 hmem with hmem | hmem
  · exact (he e hmem).2.2
  · have := hm e hmem
    omega

theorem trans {m m' m'' : Memo} (h : m.Extends m') (h' : m'.Extends m'') : m.Extends m'' := by
  have hnone : ∀ key, m'.lookup key = none → m.lookup key = none := fun key => h.lookup_none
  obtain ⟨slots, entries, rfl, he⟩ := h
  obtain ⟨slots', entries', rfl, he'⟩ := h'
  refine ⟨slots ++ slots', entries' ++ entries, by simp, ?_⟩
  intro e hmem
  rw [List.length_append]
  rcases List.mem_append.1 hmem with hmem | hmem
  · obtain ⟨hk, hlo, hhi⟩ := he' e hmem
    rw [List.length_append] at hlo hhi
    exact ⟨hnone _ hk, by omega, by omega⟩
  · obtain ⟨hk, hlo, hhi⟩ := he e hmem
    exact ⟨hk, hlo, by omega⟩

end Extends

theorem extends_reserve {m : Memo} {key : MemoKey} (h : m.lookup key = none) :
    m.Extends (m.reserve key) := by
  refine ⟨[.pending], [(key, m.next)], rfl, ?_⟩
  intro e he
  rw [List.mem_singleton] at he
  subst he
  simp [h]

theorem eq_of_lookup_next {m m' : Memo} (hm : m.Bounded) {key k : MemoKey}
    (h : (m.reserve key).Extends m') (hk : m'.lookup k = some m.next) : k = key := by
  obtain ⟨slots, entries, rfl, he⟩ := h
  have hmem := Table.mem_of_lookup hk
  rcases List.mem_append.1 hmem with hmem | hmem
  · have hlow := (he _ hmem).2.1
    simp only [slots_reserve, List.length_append, List.length_singleton, index_next] at hlow
    omega
  · rcases List.mem_cons.1 hmem with heq | hmem
    · exact (Prod.mk.inj heq).1
    · have := hm _ hmem
      simp at this

/-- The slot that was reserved last is filled, whatever was added since. -/
theorem extends_settle {m m' : Memo} {key : MemoKey} (hk : m.lookup key = none)
    (h : (m.reserve key).Extends m') (v : Value) : m.Extends (m'.settle m.next v) := by
  obtain ⟨slots, entries, rfl, he⟩ := (extends_reserve hk).trans h
  obtain ⟨slots', _, heq, _⟩ := h
  have hs : m.slots ++ slots = (m.slots ++ [.pending]) ++ slots' := congrArg Memo.slots heq
  rw [List.append_assoc] at hs
  have hs' : slots = [.pending] ++ slots' := List.append_cancel_left hs
  refine ⟨.ready v :: slots', entries, ?_, ?_⟩
  · simp [settle, hs']
  · subst hs'
    simpa using he

/-- Taking back the slot that was reserved last takes back all entries made since. -/
theorem failFrom_of_extends {m m' : Memo} {key : MemoKey} (hm : m.Bounded)
    (h : (m.reserve key).Extends m') :
    m'.failFrom m.next =
      ⟨m.slots ++ List.replicate (m'.slots.length - m.slots.length) .failed, m.index⟩ := by
  obtain ⟨slots, entries, rfl, he⟩ := h
  have hnew : entries.filter (fun e => e.2.index < m.next.index) = [] := by
    rw [List.filter_eq_nil_iff]
    intro e hmem hlt
    have hlo := (he e hmem).2.1
    have hhi : e.2.index < m.slots.length := of_decide_eq_true hlt
    simp only [slots_reserve, List.length_append] at hlo
    omega
  have hold : m.index.filter (fun e => e.2.index < m.next.index) = m.index := by
    rw [List.filter_eq_self]
    intro e hmem
    exact decide_eq_true (hm e hmem)
  have hindex : (entries ++ (m.reserve key).index).filter (fun e => e.2.index < m.next.index) =
      m.index := by
    rw [List.filter_append, hnew, index_reserve, List.filter_cons_of_neg (by simp), hold]
    rfl
  simp only [failFrom, hindex]
  simp

/-! ## a shared run -/

/-- What a shared run can do: answer with the slot that is there, or run in a reserved slot and
settle it or take it back. -/
theorem shared_cases {id : ExtractorId} {x : Extractor RunState View Value} {view : View}
    {s s' : RunState} {r : Except Failure Value} (h : shared id x view s = some (r, s')) :
    (∃ slot, s.memo.lookup (.of id view.focus) = some slot ∧ r = .ok (.ref slot) ∧ s' = s) ∨
    s.memo.lookup (.of id view.focus) = none ∧ ∃ r₁ s₁,
      x view { s with memo := s.memo.reserve (.of id view.focus) } = some (r₁, s₁) ∧
      ((∃ v, r₁ = .ok v ∧ r = .ok (.ref s.memo.next) ∧
          s' = { s₁ with memo := s₁.memo.settle s.memo.next v }) ∨
        ∃ e, r₁ = .error e ∧ r = .error e ∧
          s' = { s₁ with memo := s₁.memo.failFrom s.memo.next }) := by
  simp only [shared] at h
  split at h
  · rename_i slot hs
    cases h
    exact .inl ⟨slot, hs, rfl, rfl⟩
  · rename_i hn
    refine .inr ⟨hn, ?_⟩
    split at h
    · cases h
    · rename_i v s₁ hx
      cases h
      exact ⟨_, _, hx, .inl ⟨v, rfl, rfl, rfl⟩⟩
    · rename_i e s₁ hx
      cases h
      exact ⟨_, _, hx, .inr ⟨e, rfl, rfl, rfl⟩⟩

theorem shared_of_lookup {id : ExtractorId} (x : Extractor RunState View Value) {view : View}
    {s : RunState} {slot : SlotId} (h : s.memo.lookup (.of id view.focus) = some slot) :
    shared id x view s = some (.ok (.ref slot), s) := by
  simp [shared, h]

theorem shared_of_ok {id : ExtractorId} {x : Extractor RunState View Value} {view : View}
    {s s₁ : RunState} {v : Value} (hk : s.memo.lookup (.of id view.focus) = none)
    (h : x view { s with memo := s.memo.reserve (.of id view.focus) } = some (.ok v, s₁)) :
    shared id x view s =
      some (.ok (.ref s.memo.next), { s₁ with memo := s₁.memo.settle s.memo.next v }) := by
  simp only [shared, hk, h]

theorem shared_of_error {id : ExtractorId} {x : Extractor RunState View Value} {view : View}
    {s s₁ : RunState} {e : Failure} (hk : s.memo.lookup (.of id view.focus) = none)
    (h : x view { s with memo := s.memo.reserve (.of id view.focus) } = some (.error e, s₁)) :
    shared id x view s =
      some (.error e, { s₁ with memo := s₁.memo.failFrom s.memo.next }) := by
  simp only [shared, hk, h]

/-- A failed run leaves the entries and the slots it found, and fails every slot it added. -/
theorem shared_error {id : ExtractorId} {x : Extractor RunState View Value} {view : View}
    {s s' : RunState} {e : Failure} (hs : s.memo.Bounded)
    (hx : Extending (x view))
    (h : shared id x view s = some (.error e, s')) :
    s'.memo.index = s.memo.index ∧
      ∃ n, s'.memo.slots = s.memo.slots ++ List.replicate n .failed := by
  obtain ⟨slot, _, hr, _⟩ | ⟨hk, r₁, s₁, hrun, ⟨v, _, hr, _⟩ | ⟨e', _, _, rfl⟩⟩ := shared_cases h
  · cases hr
  · cases hr
  · have hext := hx _ _ _ hrun ((extends_reserve hk).bounded hs)
    simp only [failFrom_of_extends hs hext]
    exact ⟨trivial, _, rfl⟩

theorem shared_ok {id : ExtractorId} {x : Extractor RunState View Value} {view : View}
    {s s' : RunState} {v : Value} (hs : s.memo.Bounded)
    (hx : Extending (x view))
    (h : shared id x view s = some (.ok v, s')) :
    ∃ slot, v = .ref slot ∧ s'.memo.lookup (.of id view.focus) = some slot := by
  obtain ⟨slot, hk, hr, rfl⟩ | ⟨hk, r₁, s₁, hrun, ⟨w, _, hr, rfl⟩ | ⟨e', _, hr, _⟩⟩ :=
    shared_cases h
  · cases hr
    exact ⟨slot, rfl, hk⟩
  · cases hr
    have hext := hx _ _ _ hrun ((extends_reserve hk).bounded hs)
    refine ⟨_, rfl, ?_⟩
    simp only [lookup_settle]
    exact hext.lookup (by simp [lookup_reserve])
  · cases hr

theorem shared_extends {id : ExtractorId} {x : Extractor RunState View Value} {view : View}
    (hx : Extending (x view)) : Extending (shared id x view) := by
  intro s r s' h hs
  obtain ⟨slot, _, _, rfl⟩ | ⟨hk, r₁, s₁, hrun, hend⟩ := shared_cases h
  · exact Extends.refl _
  · have hext := hx _ _ _ hrun ((extends_reserve hk).bounded hs)
    obtain ⟨v, _, _, rfl⟩ | ⟨e, _, _, rfl⟩ := hend
    · exact extends_settle hk hext v
    · simp only [failFrom_of_extends hs hext]
      exact ⟨_, [], rfl, by simp⟩

end Memo
end ShaclExtract
