import ShaclExtract.Proofs.Memo.Pairing
import ShaclExtract.Proofs.Memo.Rendering

/-!
# ShaclExtract.Proofs.Memo.Renumbering

A memo on top of another one. The slots of the upper memo come behind those of the lower one, so
their numbers, and all references to them, are raised by the size of the lower one (`Memo.above`).
For keys that the lower memo has no slot for, whatever is done to the upper memo alone can be done
to both, one on top of the other, and comes to the same (`Memo.raising`).
-/

namespace ShaclExtract

def SlotId.raised (n : Nat) (slot : SlotId) : SlotId := ⟨n + slot.index⟩

theorem SlotId.raised_injective (n : Nat) : Function.Injective (raised n) := by
  rintro ⟨i⟩ ⟨j⟩ h
  injection h with h
  exact congrArg SlotId.mk (Nat.add_left_cancel h)

namespace Value

mutual

def renumbered (f : SlotId → SlotId) : Value → Value
  | .list items => .list (renumberedItems f items)
  | .record fields => .record (renumberedFields f fields)
  | .ref slot => .ref (f slot)
  | v => v

def renumberedItems (f : SlotId → SlotId) : List Value → List Value
  | [] => []
  | v :: vs => renumbered f v :: renumberedItems f vs

def renumberedFields (f : SlotId → SlotId) : List (String × Value) → List (String × Value)
  | [] => []
  | (name, v) :: fields => (name, renumbered f v) :: renumberedFields f fields

end

variable {f : SlotId → SlotId}

mutual

theorem renumbered_of_refs : ∀ v : Value, v.refs = [] → v.renumbered f = v
  | .list items, h => by rw [renumbered, renumberedItems_of_refs items h]
  | .record fields, h => by rw [renumbered, renumberedFields_of_refs fields h]
  | .ref slot, h => by cases h
  | .null, _ | .bool _, _ | .integer _, _ | .float _, _ | .text _, _ | .dateTime _, _
  | .term _, _ | .quads _, _ | .path _, _ | .pending, _ => rfl

theorem renumberedItems_of_refs : ∀ vs : List Value, refsOfItems vs = [] →
    renumberedItems f vs = vs
  | [], _ => rfl
  | v :: vs, h => by
    obtain ⟨hv, hvs⟩ := List.append_eq_nil_iff.1 h
    rw [renumberedItems, renumbered_of_refs v hv, renumberedItems_of_refs vs hvs]

theorem renumberedFields_of_refs : ∀ r : List (String × Value), refsOfFields r = [] →
    renumberedFields f r = r
  | [], _ => rfl
  | (_, v) :: r, h => by
    obtain ⟨hv, hr⟩ := List.append_eq_nil_iff.1 h
    rw [renumberedFields, renumbered_of_refs v hv, renumberedFields_of_refs r hr]

end

theorem renumberedItems_eq {vs ws : List Value}
    (h : List.Forall₂ (fun v w => w = v.renumbered f) vs ws) : ws = renumberedItems f vs := by
  induction h with
  | nil => rfl
  | cons hv _ ih => rw [renumberedItems, hv, ih]

theorem renumberedFields_eq {r r' : Record}
    (h : Record.Related (fun v w => w = v.renumbered f) r r') : r' = renumberedFields f r := by
  induction h with
  | nil => rfl
  | @cons p q _ _ hpq _ ih =>
    rw [renumberedFields, ← hpq.2, hpq.1, ← ih]

mutual

theorem toJsonWith_renumbered (reference : SlotId → Json) : ∀ v : Value,
    (v.renumbered f).toJsonWith reference = v.toJsonWith fun slot => reference (f slot)
  | .list items => by
    rw [renumbered, toJsonWith, toJsonWith, itemsToJson_renumbered reference items]
  | .record fields => by
    rw [renumbered, toJsonWith, toJsonWith, fieldsToJson_renumbered reference fields]
  | .ref _ | .null | .bool _ | .integer _ | .float _ | .text _ | .dateTime _ | .term _
  | .quads _ | .path _ | .pending => rfl

theorem itemsToJson_renumbered (reference : SlotId → Json) : ∀ vs : List Value,
    itemsToJson reference (renumberedItems f vs) = itemsToJson (fun slot => reference (f slot)) vs
  | [] => rfl
  | v :: vs => by
    rw [renumberedItems, itemsToJson, itemsToJson, toJsonWith_renumbered reference v,
      itemsToJson_renumbered reference vs]

theorem fieldsToJson_renumbered (reference : SlotId → Json) : ∀ r : List (String × Value),
    fieldsToJson reference (renumberedFields f r) =
      fieldsToJson (fun slot => reference (f slot)) r
  | [] => rfl
  | (name, v) :: r => by
    rw [renumberedFields, fieldsToJson, fieldsToJson, toJsonWith_renumbered reference v,
      fieldsToJson_renumbered reference r]

end

end Value

def Slot.renumbered (f : SlotId → SlotId) : Slot → Slot
  | .ready v => .ready (v.renumbered f)
  | c => c

namespace Memo

/-- The memo on top of another one. -/
def above (base m : Memo) : Memo where
  slots := base.slots ++ m.slots.map (Slot.renumbered (.raised base.slots.length))
  index := m.index.map (fun e => (e.1, e.2.raised base.slots.length)) ++ base.index

variable {base m : Memo}

theorem above_empty (base : Memo) : base.above empty = base := by
  simp [above, empty]

theorem next_above (base m : Memo) : (base.above m).next = m.next.raised base.slots.length := by
  simp [above, next, SlotId.raised]

theorem slot?_above (base m : Memo) (slot : SlotId) :
    (base.above m).slot? (slot.raised base.slots.length) =
      (m.slot? slot).map (Slot.renumbered (.raised base.slots.length)) := by
  simp only [slot?, above, SlotId.raised]
  rw [List.getElem?_append_right (Nat.le_add_right _ _), Nat.add_sub_cancel_left, List.getElem?_map]

theorem lookup_above {key : MemoKey} (h : base.lookup key = none) :
    (base.above m).lookup key = (m.lookup key).map (.raised base.slots.length) := by
  have hbase : Table.lookup base.index key = none := h
  rw [lookup, lookup, above, Table.lookup_append, hbase, Option.or_none]
  induction m.index with
  | nil => rfl
  | cons e index ih =>
    simp only [List.map_cons, Table.lookup]
    split
    · rfl
    · exact ih

theorem reserve_above (base m : Memo) (key : MemoKey) :
    (base.above m).reserve key = base.above (m.reserve key) := by
  rw [reserve, next_above, reserve, above, above]
  simp [Slot.renumbered]

theorem settle_above (base m : Memo) (slot : SlotId) (v : Value) :
    (base.above m).settle (slot.raised base.slots.length)
      (v.renumbered (.raised base.slots.length)) = base.above (m.settle slot v) := by
  simp only [settle, above, SlotId.raised]
  rw [List.set_append_right _ _ (Nat.le_add_right _ _), Nat.add_sub_cancel_left, List.map_set]
  rfl

theorem failFrom_above (hb : base.Bounded) (m : Memo) (slot : SlotId) :
    (base.above m).failFrom (slot.raised base.slots.length) = base.above (m.failFrom slot) := by
  have hold : base.index.filter (fun e => e.2.index < (slot.raised base.slots.length).index) =
      base.index :=
    List.filter_eq_self.2 fun e he => decide_eq_true (Nat.lt_add_right _ (hb e he))
  refine congrArg₂ Memo.mk ?_ ?_
  · simp only [above, SlotId.raised, List.take_length_add_append, List.length_append,
      List.length_map, Nat.add_sub_add_left, List.map_append, List.map_take, List.map_replicate,
      List.append_assoc, failFrom]
    rfl
  · rw [above, List.filter_append, hold, List.filter_map]
    simp only [Function.comp_def, SlotId.raised, Nat.add_lt_add_iff_left]
    rfl

/-- What is done to the lower memo when the upper one is there. -/
theorem settle_below {slot : SlotId} (h : slot.index < base.slots.length) (m : Memo) (v : Value) :
    (base.above m).settle slot v = (base.settle slot v).above m := by
  simp only [settle, above, List.length_set]
  rw [List.set_append_left _ _ h]

/-- A memo goes with itself on top of the other one. -/
def raising (base : Memo) (hb : base.Bounded) : Pairing where
  memos m m' := m' = base.above m
  slots slot slot' := slot' = slot.raised base.slots.length
  values v w := w = v.renumbered (.raised base.slots.length)
  keys key := base.lookup key = none
  of_refs h := (Value.renumbered_of_refs _ h).symm
  ref h := congrArg Value.ref h
  list h := by rw [Value.renumbered, Value.renumberedItems_eq h]
  record h := by rw [Value.renumbered, Value.renumberedFields_eq h]
  next h := by rw [h, next_above]
  lookup {m m' key} h hkey := by
    rw [h, lookup_above hkey]
    cases m.lookup key with
    | none => exact .none
    | some slot => exact .some rfl
  reserve h := by rw [h, reserve_above]
  settle h hslot hv := by rw [h, hslot, hv, settle_above]
  failFrom h hslot := by rw [h, hslot, failFrom_above hb]

/-! ## rendering -/

/-- Renders a reference, with a given way to mark one that is nested in itself. -/
def slotToJsonMarking (mark : SlotId → Json) (m : Memo) : Nat → List SlotId → SlotId → Json
  | 0, _, _ => .null
  | depth + 1, around, slot =>
    if slot ∈ around then mark slot
    else
      match m.slot? slot with
      | some (.ready v) => v.toJsonWith (slotToJsonMarking mark m depth (slot :: around))
      | _ => .null

def toJsonMarking (mark : SlotId → Json) (m : Memo) (v : Value) : Json :=
  v.toJsonWith (m.slotToJsonMarking mark (m.slots.length + 1) [])

theorem slotToJsonMarking_backReference (m : Memo) (depth : Nat) : ∀ around slot,
    m.slotToJsonMarking backReference depth around slot = m.slotToJson depth around slot := by
  induction depth with
  | zero => exact fun _ _ => rfl
  | succ depth ih =>
    intro around slot
    by_cases hmem : slot ∈ around
    · simp only [slotToJsonMarking, slotToJson, if_pos hmem]
    · rcases hslot : m.slot? slot with _ | _ | v | _ <;>
        simp only [slotToJsonMarking, slotToJson, if_neg hmem, hslot, funext (ih (slot :: around))]

theorem toJson_eq (m : Memo) (v : Value) : m.toJson v = m.toJsonMarking backReference v := by
  have hroot : m.toJson v = v.toJsonWith (m.slotToJson (m.slots.length + 1) []) :=
    m.rendering_slotToJson.toJson_eq v
  rw [hroot, toJsonMarking, funext (m.slotToJsonMarking_backReference _ _)]

/-- On top of another memo, the same is rendered with the raised names. Slots of the lower memo that
the rendering is nested in are never met. -/
theorem slotToJson_above (mark : SlotId → Json) {below : List SlotId}
    (hbelow : ∀ slot ∈ below, slot.index < base.slots.length) (m : Memo) (depth : Nat) :
    ∀ around slot, (base.above m).slotToJsonMarking mark depth
        (around.map (.raised base.slots.length) ++ below) (slot.raised base.slots.length) =
      m.slotToJsonMarking (fun slot => mark (slot.raised base.slots.length)) depth around slot := by
  induction depth with
  | zero => exact fun _ _ => rfl
  | succ depth ih =>
    intro around slot
    have hnot : slot.raised base.slots.length ∉ below := by
      intro hmem
      have hlt := hbelow _ hmem
      simp only [SlotId.raised] at hlt
      omega
    have hmem : slot.raised base.slots.length ∈
        around.map (.raised base.slots.length) ++ below ↔ slot ∈ around := by
      rw [List.mem_append, or_iff_left hnot, List.mem_map_of_injective (SlotId.raised_injective _)]
    simp only [slotToJsonMarking, hmem, slot?_above]
    split
    · rfl
    · rcases m.slot? slot with _ | _ | v | _
      · rfl
      · rfl
      · simp only [Option.map_some, Slot.renumbered, Value.toJsonWith_renumbered]
        rw [← List.cons_append, ← List.map_cons, funext (ih (slot :: around))]
      · rfl

end Memo
end ShaclExtract
