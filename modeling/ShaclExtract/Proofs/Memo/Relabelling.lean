import ShaclExtract.Proofs.Memo.Unfolding
import ShaclExtract.Proofs.Rdf.Relabelling
import ShaclExtract.Strategy

/-!
# ShaclExtract.Proofs.Memo.Relabelling

Values and memos with other labels for blank nodes. A relabelled value has the terms and quads of
the value relabelled and is the same otherwise; what was text stays as it is, even if it was a label
once. A relabelled memo has the relabelled values in its slots and finds the same slots for the
relabelled nodes, so all that is done to a memo can be done to the relabelled one.
-/

namespace ShaclExtract

section definitions

variable (f : String ↪ String)

namespace Value

mutual

def relabelled : Value → Value
  | .term t => .term (t.relabelled f)
  | .quads g => .quads (g.relabelled f)
  | .list items => .list (relabelledItems items)
  | .record fields => .record (relabelledFields fields)
  | v => v

def relabelledItems : List Value → List Value
  | [] => []
  | v :: vs => relabelled v :: relabelledItems vs

def relabelledFields : List (String × Value) → List (String × Value)
  | [] => []
  | (name, v) :: fields => (name, relabelled v) :: relabelledFields fields

end

/-- The second value is the first one, relabelled. -/
abbrev Relabels (v w : Value) : Prop := w = v.relabelled f

end Value

def Slot.relabelled : Slot → Slot
  | .ready v => .ready (v.relabelled f)
  | c => c

/-- Only the lexical form of a blank node is its label. -/
def MemoKey.relabelled (key : MemoKey) : MemoKey :=
  match key.kind with
  | .blank => { key with lexical := f key.lexical }
  | _ => key

def Memo.relabelled (m : Memo) : Memo :=
  ⟨m.slots.map (Slot.relabelled f), m.index.map fun e => (e.1.relabelled f, e.2)⟩

def RunState.relabelled (s : RunState) : RunState := { s with memo := s.memo.relabelled f }

end definitions

variable {f : String ↪ String}

/-! ## values -/

namespace Value

theorem relabelledItems_eq {vs ws : List Value}
    (h : List.Forall₂ (Relabels f) vs ws) : ws = relabelledItems f vs := by
  induction h with
  | nil => rfl
  | cons hv _ ih => rw [relabelledItems, hv, ih]

theorem relabelledFields_eq {r r' : Record}
    (h : Record.Related (Relabels f) r r') : r' = relabelledFields f r := by
  induction h with
  | nil => rfl
  | @cons p q _ _ hpq _ ih =>
    rw [relabelledFields, ← hpq.2, hpq.1, ← ih]

theorem related_relabelledFields (r : Record) :
    Record.Related (Relabels f) r (relabelledFields f r) := by
  induction r with
  | nil => exact .nil
  | cons p r ih => exact .cons ⟨rfl, rfl⟩ ih

end Value

/-! ## memos -/

theorem MemoKey.of_relabelled (id : ExtractorId) (node : Term) :
    of id (node.relabelled f) = (of id node).relabelled f := by
  cases node <;> rfl

theorem MemoKey.relabelled_injective : Function.Injective (relabelled f) := by
  rintro ⟨id, kind, lexical⟩ ⟨id', kind', lexical'⟩ h
  cases kind <;> cases kind' <;> simp_all [relabelled]

namespace Memo

theorem lookup_relabelled (m : Memo) (key : MemoKey) :
    (m.relabelled f).lookup (key.relabelled f) = m.lookup key := by
  rw [lookup, lookup, relabelled]
  induction m.index with
  | nil => rfl
  | cons e index ih =>
    simp only [List.map_cons, Table.lookup, MemoKey.relabelled_injective.eq_iff, ih]

theorem next_relabelled (m : Memo) : (m.relabelled f).next = m.next := by
  rw [next, relabelled, List.length_map, next]

theorem slot?_relabelled (m : Memo) (slot : SlotId) :
    (m.relabelled f).slot? slot = (m.slot? slot).map (Slot.relabelled f) := List.getElem?_map

theorem reserve_relabelled (m : Memo) (key : MemoKey) :
    (m.relabelled f).reserve (key.relabelled f) = (m.reserve key).relabelled f := by
  rw [reserve, next_relabelled, reserve, relabelled, relabelled, List.map_append]
  rfl

theorem settle_relabelled (m : Memo) (slot : SlotId) (v : Value) :
    (m.relabelled f).settle slot (v.relabelled f) = (m.settle slot v).relabelled f := by
  simp only [settle, relabelled, List.map_set, Slot.relabelled]

theorem failFrom_relabelled (m : Memo) (slot : SlotId) :
    (m.relabelled f).failFrom slot = (m.failFrom slot).relabelled f := by
  simp only [failFrom, relabelled, List.length_map, List.map_append, List.map_take,
    List.map_replicate, List.filter_map]
  rfl

theorem follow_relabelled (m : Memo) (bound : Nat) (v : Value) :
    (m.relabelled f).follow bound (v.relabelled f) = (m.follow bound v).relabelled f := by
  induction bound generalizing v with
  | zero => rfl
  | succ bound ih =>
    cases v with
    | ref slot =>
      simp only [Value.relabelled, follow, slot?_relabelled]
      rcases m.slot? slot with _ | _ | w | _
      · rfl
      · rfl
      · exact ih w
      · rfl
    | _ => rfl

theorem resolve_relabelled (m : Memo) (v : Value) :
    (m.relabelled f).resolve (v.relabelled f) = (m.resolve v).relabelled f := by
  rw [resolve, follow_relabelled, relabelled, List.length_map, resolve]

end Memo
end ShaclExtract
