import Mathlib.Data.List.Perm.Subperm
import ShaclExtract.Proofs.Memo.Growth

/-!
# ShaclExtract.Proofs.Memo.Chains

Chains of references. Resolving a value follows references from slot to slot, with the number of
slots as a bound. A chain that comes to an end uses no slot twice: where a chain goes on from a slot
does not depend on how it came there, so a slot that is met again leads round for ever. Hence the
bound is never what ends the chain (`Chain.resolve_eq`).
-/

namespace ShaclExtract
namespace Memo

variable {m : Memo} {v u : Value} {ids : List SlotId}

/-- The references from `v` lead through the slots `ids` to `u`, which is no reference. -/
inductive Chain (m : Memo) : Value → List SlotId → Value → Prop where
  | stop {v : Value} : (∀ id, v ≠ .ref id) → Chain m v [] v
  | follow {id : SlotId} {v u : Value} {ids : List SlotId} : m.slot? id = some (.ready v) →
      Chain m v ids u → Chain m (.ref id) (id :: ids) u

namespace Chain

theorem not_ref (h : m.Chain v ids u) : ∀ id, u ≠ .ref id := by
  induction h with
  | stop h => exact h
  | follow _ _ ih => exact ih

theorem unique {u' : Value} {ids' : List SlotId} (h : m.Chain v ids u) (h' : m.Chain v ids' u') :
    ids = ids' ∧ u = u' := by
  induction h generalizing ids' with
  | stop hv =>
    cases h' with
    | stop _ => exact ⟨rfl, rfl⟩
    | follow _ _ => exact absurd rfl (hv _)
  | follow hslot _ ih =>
    cases h' with
    | stop hv => exact absurd rfl (hv _)
    | follow hslot' h' =>
      cases hslot.symm.trans hslot'
      obtain ⟨rfl, rfl⟩ := ih h'
      exact ⟨rfl, rfl⟩

theorem from_mem (h : m.Chain v ids u) {id : SlotId} (hid : id ∈ ids) :
    ∃ ids', m.Chain (.ref id) (id :: ids') u ∧ ids'.length < ids.length := by
  induction h with
  | stop _ => cases hid
  | follow hslot h ih =>
    rcases List.mem_cons.1 hid with rfl | hid
    · exact ⟨_, .follow hslot h, Nat.lt_succ_self _⟩
    · obtain ⟨ids', hchain, hlt⟩ := ih hid
      exact ⟨ids', hchain, Nat.lt_succ_of_lt hlt⟩

theorem nodup (h : m.Chain v ids u) : ids.Nodup := by
  induction h with
  | stop _ => exact List.nodup_nil
  | @follow id v u ids hslot h ih =>
    refine List.nodup_cons.2 ⟨fun hid => ?_, ih⟩
    obtain ⟨ids', hchain, hlt⟩ := h.from_mem hid
    obtain ⟨heq, _⟩ := (Chain.follow hslot h).unique hchain
    rw [(List.cons.inj heq).2] at hlt
    exact Nat.lt_irrefl _ hlt

theorem index_lt (h : m.Chain v ids u) : ∀ id ∈ ids, id.index < m.slots.length := by
  induction h with
  | stop _ => simp
  | follow hslot _ ih => exact List.forall_mem_cons.2 ⟨(List.getElem?_eq_some_iff.1 hslot).1, ih⟩

theorem length_le (h : m.Chain v ids u) : ids.length ≤ m.slots.length := by
  have hinj : ∀ a b : SlotId, a ≠ b → a.index ≠ b.index := by
    rintro ⟨a⟩ ⟨b⟩ hne rfl
    exact hne rfl
  have hnodup : (ids.map SlotId.index).Nodup := List.pairwise_map.2 (h.nodup.imp (hinj _ _))
  have hsub : ids.map SlotId.index ⊆ List.range m.slots.length := by
    intro i hi
    obtain ⟨id, hid, rfl⟩ := List.mem_map.1 hi
    exact List.mem_range.2 (h.index_lt id hid)
  simpa using (List.subperm_of_subset hnodup hsub).length_le

theorem follow_eq (h : m.Chain v ids u) {bound : Nat} (hb : ids.length < bound) :
    m.follow bound v = u := by
  induction h generalizing bound with
  | @stop v hv =>
    obtain ⟨n, rfl⟩ : ∃ n, bound = n + 1 := ⟨bound - 1, by simp only [List.length_nil] at hb; omega⟩
    cases v with
    | ref id => exact absurd rfl (hv id)
    | _ => rfl
  | follow hslot _ ih =>
    obtain ⟨n, rfl⟩ : ∃ n, bound = n + 1 := ⟨bound - 1, by omega⟩
    rw [Memo.follow, hslot]
    exact ih (Nat.lt_of_succ_lt_succ hb)

theorem resolve_eq (h : m.Chain v ids u) : m.resolve v = u :=
  h.follow_eq (Nat.lt_succ_of_le h.length_le)

end Chain

/-- What resolves to anything but pending is at the start of a chain. -/
theorem follow_pending_or_chain (m : Memo) (bound : Nat) (v : Value) :
    m.follow bound v = .pending ∨ ∃ ids, m.Chain v ids (m.follow bound v) := by
  induction bound generalizing v with
  | zero => exact .inl rfl
  | succ bound ih =>
    cases v with
    | ref id =>
      simp only [follow]
      split
      · rename_i v hslot
        exact (ih v).imp_right fun ⟨ids, h⟩ => ⟨id :: ids, .follow hslot h⟩
      · exact .inl rfl
    | _ => exact .inr ⟨[], .stop (by simp)⟩

theorem resolve_of_no_chain (h : ∀ ids u, ¬ m.Chain v ids u) : m.resolve v = .pending :=
  (m.follow_pending_or_chain _ v).resolve_right fun ⟨ids, hchain⟩ => h ids _ hchain

theorem not_chain_of_loop {a b : SlotId} (ha : m.slot? a = some (.ready (.ref b)))
    (hb : m.slot? b = some (.ready (.ref a))) (ids : List SlotId) (u : Value) :
    ¬ m.Chain (.ref a) ids u := by
  intro h
  cases h with
  | stop hv => exact hv a rfl
  | follow hslot h =>
    cases ha.symm.trans hslot
    cases h with
    | stop hv => exact hv b rfl
    | follow hslot' h =>
      cases hb.symm.trans hslot'
      obtain ⟨hids, _⟩ := h.unique (.follow hslot (.follow hslot' h))
      have hlen := congrArg List.length hids
      simp only [List.length_cons] at hlen
      omega

theorem resolve_ref {slot : SlotId} (h : m.slot? slot = some (.ready v)) (hv : ∀ id, v ≠ .ref id) :
    m.resolve (.ref slot) = v :=
  (Chain.follow h (.stop hv)).resolve_eq

theorem resolve_ref_of_pending {slot : SlotId} (h : m.slot? slot = some .pending) :
    m.resolve (.ref slot) = .pending := by
  simp only [resolve, Memo.follow, h]

end Memo
end ShaclExtract
