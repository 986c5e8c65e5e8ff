import ShaclExtract.Proofs.Memo.Chains

/-!
# ShaclExtract.Proofs.Memo.Resolution

Where references lead and what a value resolves to. Following references from a value arrives at a
value that is no reference, or at a slot without value, or goes on for ever (`Memo.arrives_cases`).
The value resolves to the value that is arrived at, and to pending if there is none
(`Memo.resolve_to_end`).

The contents of the slots are arbitrary here, so that slots may refer to each other, to themselves
or to no slot at all.
-/

namespace ShaclExtract
namespace Memo

variable {m : Memo} {v w u : Value} {n : Nat} {ids : List SlotId}

/-- Following so many references from the one value arrives at the other. -/
inductive Arrives (m : Memo) : Nat → Value → Value → Prop where
  | stay (v : Value) : Arrives m 0 v v
  | follow {n : Nat} {id : SlotId} {v w : Value} : m.slot? id = some (.ready v) →
      Arrives m n v w → Arrives m (n + 1) (.ref id) w

/-- The slot is pending, has failed, or is not there. -/
def Valueless (m : Memo) (id : SlotId) : Prop :=
  m.slot? id = some .pending ∨ m.slot? id = some .failed ∨ m.slot? id = none

theorem ready_or_valueless (m : Memo) (id : SlotId) :
    (∃ v, m.slot? id = some (.ready v)) ∨ m.Valueless id := by
  rcases h : m.slot? id with _ | _ | v | _
  · exact .inr (.inr (.inr h))
  · exact .inr (.inl h)
  · exact .inl ⟨v, rfl⟩
  · exact .inr (.inr (.inl h))

theorem Valueless.not_ready {id : SlotId} (h : m.Valueless id) : m.slot? id ≠ some (.ready v) := by
  rcases h with h | h | h <;> simp [h]

theorem Arrives.step {id : SlotId} (h : m.Arrives n v (.ref id))
    (hslot : m.slot? id = some (.ready w)) : m.Arrives (n + 1) v w := by
  generalize hr : Value.ref id = r at h
  induction h with
  | stay r =>
    subst hr
    exact .follow hslot (.stay w)
  | follow hslot' _ ih => exact .follow hslot' (ih hr)

/-- References lead to a value, or to a slot without value, or on for ever. -/
theorem arrives_cases (m : Memo) (v : Value) :
    (∃ n w, m.Arrives n v w ∧ ∀ id, w ≠ .ref id) ∨
      (∃ n id, m.Arrives n v (.ref id) ∧ m.Valueless id) ∨ ∀ n, ∃ w, m.Arrives n v w := by
  by_cases hfurther : ∀ n w, m.Arrives n v w → ∃ u, m.Arrives (n + 1) v u
  · refine .inr (.inr fun n => ?_)
    induction n with
    | zero => exact ⟨v, .stay v⟩
    | succ n ih =>
      obtain ⟨w, hw⟩ := ih
      exact hfurther n w hw
  · push Not at hfurther
    obtain ⟨n, w, hw, hlast⟩ := hfurther
    by_cases href : ∃ id, w = .ref id
    · obtain ⟨id, rfl⟩ := href
      rcases m.ready_or_valueless id with ⟨u, hslot⟩ | hid
      · exact absurd (hw.step hslot) (hlast u)
      · exact .inr (.inl ⟨n, id, hw, hid⟩)
    · exact .inl ⟨n, w, hw, fun id hid => href ⟨id, hid⟩⟩

/-! ## chains -/

theorem Arrives.chain (h : m.Arrives n v w) (hw : ∀ id, w ≠ .ref id) : ∃ ids, m.Chain v ids w := by
  induction h with
  | stay v => exact ⟨[], .stop hw⟩
  | follow hslot _ ih =>
    obtain ⟨ids, hchain⟩ := ih hw
    exact ⟨_, .follow hslot hchain⟩

theorem Chain.from_arrives (h : m.Chain v ids u) (harrive : m.Arrives n v w) :
    ∃ ids', m.Chain w ids' u ∧ ids'.length + n = ids.length := by
  induction harrive generalizing ids with
  | stay v => exact ⟨ids, h, rfl⟩
  | follow hslot _ ih =>
    cases h with
    | stop hv => exact absurd rfl (hv _)
    | follow hslot' h =>
      cases hslot.symm.trans hslot'
      obtain ⟨ids', hchain, hlen⟩ := ih h
      exact ⟨ids', hchain, by rw [List.length_cons, ← hlen, Nat.add_assoc]⟩

/-! ## resolving -/

theorem Arrives.resolve_eq (h : m.Arrives n v w) (hw : ∀ id, w ≠ .ref id) : m.resolve v = w := by
  obtain ⟨ids, hchain⟩ := h.chain hw
  exact hchain.resolve_eq

theorem Arrives.resolve_of_valueless {id : SlotId} (h : m.Arrives n v (.ref id))
    (hid : m.Valueless id) : m.resolve v = .pending := by
  refine resolve_of_no_chain fun ids u hchain => ?_
  obtain ⟨ids', hrest, -⟩ := hchain.from_arrives h
  cases hrest with
  | stop hv => exact hv id rfl
  | follow hslot _ => exact hid.not_ready hslot

theorem resolve_of_endless (h : ∀ n, ∃ w, m.Arrives n v w) : m.resolve v = .pending := by
  refine resolve_of_no_chain fun ids u hchain => ?_
  obtain ⟨w, hw⟩ := h (ids.length + 1)
  obtain ⟨ids', -, hlen⟩ := hchain.from_arrives hw
  omega

theorem resolve_not_ref (m : Memo) (v : Value) (id : SlotId) : m.resolve v ≠ .ref id := by
  rcases m.arrives_cases v with ⟨n, w, h, hw⟩ | ⟨n, slot, h, hslot⟩ | h
  · rw [h.resolve_eq hw]
    exact hw id
  · rw [h.resolve_of_valueless hslot]
    nofun
  · rw [resolve_of_endless h]
    nofun

theorem resolve_resolve (m : Memo) (v : Value) : m.resolve (m.resolve v) = m.resolve v :=
  (Arrives.stay _).resolve_eq (m.resolve_not_ref v)

/-- A bound that is larger than the number of slots cuts off nothing. -/
theorem follow_eq_resolve (m : Memo) (v : Value) {bound : Nat} (h : m.slots.length < bound) :
    m.follow bound v = m.resolve v := by
  rcases m.follow_pending_or_chain bound v with hbound | ⟨ids, hchain⟩
  · rcases m.follow_pending_or_chain (m.slots.length + 1) v with hp | ⟨ids, hchain⟩
    · exact hbound.trans hp.symm
    · exact hchain.follow_eq (Nat.lt_of_le_of_lt hchain.length_le h)
  · exact hchain.resolve_eq.symm

/-- A value resolves to the value that references lead to from it, over however many slots. It
resolves to pending if they lead to a slot without value, or never end. To resolve again changes
nothing, and neither would a larger bound on the references that are followed. -/
theorem resolve_to_end (m : Memo) (v : Value) :
    (∀ n w, m.Arrives n v w → (∀ id, w ≠ .ref id) → m.resolve v = w) ∧
      (∀ n id, m.Arrives n v (.ref id) → m.Valueless id → m.resolve v = .pending) ∧
      ((∀ n, ∃ w, m.Arrives n v w) → m.resolve v = .pending) ∧
      m.resolve (m.resolve v) = m.resolve v ∧
      ∀ bound, m.slots.length < bound → m.follow bound v = m.resolve v := by
  refine ⟨fun n w h hw => h.resolve_eq hw, fun n id h hid => h.resolve_of_valueless hid,
    resolve_of_endless, m.resolve_resolve v, fun bound h => m.follow_eq_resolve v h⟩

def throughAll : Memo := ⟨[.ready (.ref ⟨2⟩), .ready (.integer 7), .ready (.ref ⟨1⟩)], []⟩

/-- Two slots that refer to each other, and one that refers to a slot that failed. -/
def astray : Memo :=
  ⟨[.ready (.ref ⟨1⟩), .ready (.ref ⟨0⟩), .ready (.ref ⟨3⟩), .failed], []⟩

theorem arrives_astray (n : Nat) :
    (∃ w, astray.Arrives n (.ref ⟨0⟩) w) ∧ ∃ w, astray.Arrives n (.ref ⟨1⟩) w := by
  induction n with
  | zero => exact ⟨⟨_, .stay _⟩, _, .stay _⟩
  | succ n ih =>
    obtain ⟨⟨w, hw⟩, u, hu⟩ := ih
    exact ⟨⟨u, .follow rfl hu⟩, w, .follow rfl hw⟩

/-- The chain through all slots is followed to its end, though with a bound that is smaller by one
it would be cut off. What goes astray is pending, in a slot that failed or for ever. -/
theorem resolve_to_end_throughAll :
    (throughAll.Arrives 3 (.ref ⟨0⟩) (.integer 7) ∧ (∀ id, Value.integer 7 ≠ .ref id) ∧
      throughAll.resolve (.ref ⟨0⟩) = .integer 7 ∧ throughAll.follow 3 (.ref ⟨0⟩) = .pending) ∧
    (astray.Arrives 1 (.ref ⟨2⟩) (.ref ⟨3⟩) ∧ astray.Valueless ⟨3⟩ ∧
      astray.resolve (.ref ⟨2⟩) = .pending) ∧
    (∀ n, ∃ w, astray.Arrives n (.ref ⟨0⟩) w) ∧ astray.resolve (.ref ⟨0⟩) = .pending := by
  have hall : throughAll.Arrives 3 (.ref ⟨0⟩) (.integer 7) :=
    .follow rfl (.follow rfl (.follow rfl (.stay _)))
  have hfailed : astray.Arrives 1 (.ref ⟨2⟩) (.ref ⟨3⟩) := .follow rfl (.stay _)
  have hvalueless : astray.Valueless ⟨3⟩ := .inr (.inl rfl)
  have hendless : ∀ n, ∃ w, astray.Arrives n (.ref ⟨0⟩) w := fun n => (arrives_astray n).1
  have hinteger : ∀ id, Value.integer 7 ≠ .ref id := by nofun
  exact ⟨⟨hall, hinteger, (resolve_to_end throughAll _).1 3 _ hall hinteger, rfl⟩,
    ⟨hfailed, hvalueless, (resolve_to_end astray _).2.1 1 _ hfailed hvalueless⟩, hendless,
    (resolve_to_end astray _).2.2.1 hendless⟩

end Memo
end ShaclExtract
