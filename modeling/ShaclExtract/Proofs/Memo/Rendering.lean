import ShaclExtract.Proofs.Memo.References
import ShaclExtract.Rendering
import ShaclExtract.Search

/-!
# ShaclExtract.Proofs.Memo.Rendering

What an extracted value is rendered as. The account of the slots that a reference is nested in is
kept in one set for the whole value, but wherever the rendering of a part ends, the set is what it
was before (`Memo.render_eq`). So each reference is rendered with those followed on the way to it
and no others, which determines the rendering (`Memo.Rendering`), and a slot that is shared but not
nested in itself is rendered in full wherever it occurs.

Slots on the way are different slots of the memo, so the number of those that are not on the way
(`Memo.unfollowed`) shrinks from one to the next and bounds the depth.
-/

namespace ShaclExtract

namespace Value

variable {σ : Type} {reference : SlotId → σ → Option (Json × σ)} {f f' : SlotId → Json} {s : σ}

mutual

theorem render_of_unchanged (h : ∀ slot, reference slot s = some (f slot, s)) :
    ∀ v : Value, v.render reference s = some (v.toJsonWith f, s)
  | .list items => by
    rw [render, renderItems_of_unchanged h items, toJsonWith]
  | .record fields => by
    rw [render, renderFields_of_unchanged h fields, toJsonWith]
  | .ref slot => h slot
  | .null | .bool _ | .integer _ | .float _ | .text _ | .dateTime _ | .term _ | .quads _
  | .path _ | .pending => rfl

theorem renderItems_of_unchanged (h : ∀ slot, reference slot s = some (f slot, s)) :
    ∀ vs : List Value, renderItems reference vs s = some (itemsToJson f vs, s)
  | [] => rfl
  | v :: vs => by
    rw [renderItems, render_of_unchanged h v]
    simp only [renderItems_of_unchanged h vs, itemsToJson]

theorem renderFields_of_unchanged (h : ∀ slot, reference slot s = some (f slot, s)) :
    ∀ r : List (String × Value), renderFields reference r s = some (fieldsToJson f r, s)
  | [] => rfl
  | (name, v) :: r => by
    rw [renderFields, render_of_unchanged h v]
    simp only [renderFields_of_unchanged h r, fieldsToJson]

end

mutual

/-- Only the rendering of the references in a value counts. -/
theorem toJsonWith_congr : ∀ v : Value, (∀ slot ∈ v.refs, f slot = f' slot) →
    v.toJsonWith f = v.toJsonWith f'
  | .list items, h => by rw [toJsonWith, toJsonWith, itemsToJson_congr items h]
  | .record fields, h => by rw [toJsonWith, toJsonWith, fieldsToJson_congr fields h]
  | .ref slot, h => h slot (List.mem_singleton_self slot)
  | .null, _ | .bool _, _ | .integer _, _ | .float _, _ | .text _, _ | .dateTime _, _
  | .term _, _ | .quads _, _ | .path _, _ | .pending, _ => rfl

theorem itemsToJson_congr : ∀ vs : List Value, (∀ slot ∈ refsOfItems vs, f slot = f' slot) →
    itemsToJson f vs = itemsToJson f' vs
  | [], _ => rfl
  | v :: vs, h => by
    obtain ⟨hv, hvs⟩ := List.forall_mem_append.1 h
    rw [itemsToJson, itemsToJson, toJsonWith_congr v hv, itemsToJson_congr vs hvs]

theorem fieldsToJson_congr : ∀ r : List (String × Value),
    (∀ slot ∈ refsOfFields r, f slot = f' slot) → fieldsToJson f r = fieldsToJson f' r
  | [], _ => rfl
  | (name, v) :: r, h => by
    obtain ⟨hv, hr⟩ := List.forall_mem_append.1 h
    rw [fieldsToJson, fieldsToJson, toJsonWith_congr v hv, fieldsToJson_congr r hr]

end

end Value

namespace Memo

variable {m : Memo} {slot : SlotId} {followed : List SlotId} {v w : Value}

/-! ## depth -/

/-- Renders a reference nested in the slots `around`. -/
def slotToJson (m : Memo) : Nat → List SlotId → SlotId → Json
  | 0, _, _ => .null
  | depth + 1, around, s =>
    if s ∈ around then backReference s
    else
      match m.slot? s with
      | some (.ready v) => v.toJsonWith (slotToJson m depth (s :: around))
      | _ => .null

/-- A reference is rendered the same if the content of its slot is, unless it has been followed. -/
theorem reference_congr {followed' : List SlotId} {f f' : Value → Json}
    (hmem : slot ∈ followed ↔ slot ∈ followed')
    (h : slot ∉ followed → ∀ w, m.slot? slot = some (.ready w) → f w = f' w) :
    (if slot ∈ followed then backReference slot
      else
        match m.slot? slot with
        | some (.ready w) => f w
        | _ => .null) =
      if slot ∈ followed' then backReference slot
      else
        match m.slot? slot with
        | some (.ready w) => f' w
        | _ => .null := by
  by_cases hfollowed : slot ∈ followed
  · rw [if_pos hfollowed, if_pos (hmem.1 hfollowed)]
  · rw [if_neg hfollowed, if_neg (mt hmem.2 hfollowed)]
    rcases hslot : m.slot? slot with _ | _ | w | _
    · rfl
    · rfl
    · exact h hfollowed w hslot
    · rfl

/-- The slots of the memo that no reference on the way leads to. -/
def unfollowed (m : Memo) (followed : List SlotId) : List SlotId :=
  ((List.range m.slots.length).map SlotId.mk).filter fun s => s ∉ followed

theorem length_unfollowed_le (m : Memo) (followed : List SlotId) :
    (m.unfollowed followed).length ≤ m.slots.length := by
  simpa [unfollowed] using List.length_filter_le (fun s => decide (s ∉ followed))
    ((List.range m.slots.length).map SlotId.mk)

theorem length_unfollowed_cons (hslot : m.slot? slot = some (.ready w)) (hnew : slot ∉ followed) :
    (m.unfollowed (slot :: followed)).length < (m.unfollowed followed).length := by
  have hmem : slot ∈ m.unfollowed followed := by
    obtain ⟨hlt, -⟩ := List.getElem?_eq_some_iff.1 hslot
    exact List.mem_filter.2 ⟨List.mem_map.2 ⟨slot.index, List.mem_range.2 hlt, rfl⟩, by simpa⟩
  have hrest : m.unfollowed (slot :: followed) =
      (m.unfollowed followed).filter fun s => s ≠ slot := by
    rw [unfollowed, unfollowed, List.filter_filter]
    exact List.filter_congr fun s _ => by simp
  rw [hrest]
  exact Search.length_filter_ne_lt hmem

theorem renderSlot_eq (m : Memo) (depth : Nat) : ∀ (followed : List SlotId) (slot : SlotId),
    (m.unfollowed followed).length < depth →
      m.renderSlot depth slot followed = some (m.slotToJson depth followed slot, followed) := by
  induction depth with
  | zero => exact fun _ _ h => absurd h (Nat.not_lt_zero _)
  | succ depth ih =>
    intro followed slot hdepth
    by_cases hmem : slot ∈ followed
    · rw [renderSlot, slotToJson, if_pos hmem, if_pos hmem]
    · rw [renderSlot, slotToJson, if_neg hmem, if_neg hmem]
      rcases hslot : m.slot? slot with _ | _ | w | _
      · simp only [List.erase_cons_head]
      · simp only [List.erase_cons_head]
      · have hless := length_unfollowed_cons hslot hmem
        have hinner := Value.render_of_unchanged
          (fun t => ih (slot :: followed) t (by omega)) w
        simp only [hinner, List.erase_cons_head]
      · simp only [List.erase_cons_head]

theorem slotToJson_depth (m : Memo) (depth : Nat) : ∀ (depth' : Nat) (followed : List SlotId),
    (m.unfollowed followed).length < depth → (m.unfollowed followed).length < depth' →
      m.slotToJson depth followed = m.slotToJson depth' followed := by
  induction depth with
  | zero => exact fun _ _ h => absurd h (Nat.not_lt_zero _)
  | succ depth ih =>
    intro depth' followed hdepth hdepth'
    obtain ⟨depth', rfl⟩ := Nat.exists_eq_add_of_lt (Nat.zero_lt_of_lt hdepth')
    rw [Nat.zero_add] at hdepth' ⊢
    funext slot
    rw [slotToJson, slotToJson]
    refine reference_congr .rfl fun hnew w hslot => ?_
    have hless := length_unfollowed_cons hslot hnew
    rw [ih depth' (slot :: followed) (by omega) (by omega)]

/-! ## what is rendered -/

/--
Renderings of values, given the references followed on the way to them: one of those is marked, any
other one is rendered as the content of its slot, or null if there is none.
-/
def Rendering (m : Memo) (R : List SlotId → Value → Json) : Prop :=
  ∀ followed v, R followed v = v.toJsonWith fun slot =>
    if slot ∈ followed then backReference slot
    else
      match m.slot? slot with
      | some (.ready w) => R (slot :: followed) w
      | _ => .null

theorem rendering_slotToJson (m : Memo) :
    m.Rendering fun followed v => v.toJsonWith (m.slotToJson (m.slots.length + 1) followed) := by
  intro followed v
  refine Value.toJsonWith_congr v fun slot _ => ?_
  rw [slotToJson]
  refine reference_congr .rfl fun hnew w hslot => ?_
  have hless := length_unfollowed_cons hslot hnew
  have hle := m.length_unfollowed_le followed
  rw [m.slotToJson_depth m.slots.length (m.slots.length + 1) (slot :: followed) (by omega)
    (by omega)]

theorem Rendering.unique {R R' : List SlotId → Value → Json} (h : m.Rendering R)
    (h' : m.Rendering R') : R = R' := by
  have hfollowed : ∀ n followed, (m.unfollowed followed).length < n →
      ∀ v, R followed v = R' followed v := by
    intro n
    induction n with
    | zero => exact fun _ h => absurd h (Nat.not_lt_zero _)
    | succ n ih =>
      intro followed hn v
      rw [h, h']
      refine Value.toJsonWith_congr v fun slot _ => reference_congr .rfl fun hnew w hslot => ?_
      have hless := length_unfollowed_cons hslot hnew
      exact ih _ (by omega) w
  funext followed v
  exact hfollowed _ followed (Nat.lt_succ_self _) v

/-- Whatever is rendered, with the references followed before, the set of them is restored. -/
theorem Rendering.render_eq {R : List SlotId → Value → Json} (h : m.Rendering R) {depth : Nat}
    (hdepth : m.slots.length < depth) (followed : List SlotId) (v : Value) :
    v.render (m.renderSlot depth) followed = some (R followed v, followed) := by
  have hleft := Nat.lt_of_le_of_lt (m.length_unfollowed_le followed) hdepth
  rw [Value.render_of_unchanged (fun slot => m.renderSlot_eq depth followed slot hleft),
    h.unique m.rendering_slotToJson, m.slotToJson_depth depth (m.slots.length + 1) followed hleft
      (Nat.lt_succ_of_le (m.length_unfollowed_le followed))]

theorem Rendering.toJson_eq {R : List SlotId → Value → Json} (h : m.Rendering R) (v : Value) :
    m.toJson v = R [] v := by
  simp only [toJson, h.render_eq (Nat.lt_succ_self m.slots.length)]

theorem Rendering.congr_followed {R : List SlotId → Value → Json} (h : m.Rendering R)
    {followed' : List SlotId} (hmet : ∀ t, m.Leads v t → (t ∈ followed ↔ t ∈ followed')) :
    R followed v = R followed' v := by
  generalize hn : (m.unfollowed followed).length = n
  induction n using Nat.strongRecOn generalizing followed followed' v with
  | ind n ih =>
    rw [h, h followed']
    refine Value.toJsonWith_congr v fun slot hslot =>
      reference_congr (hmet slot (.here hslot)) fun hnew w hcontent => ?_
    have hless := length_unfollowed_cons hcontent hnew
    refine ih _ (hn ▸ hless) (fun t ht => ?_) rfl
    rw [List.mem_cons, List.mem_cons, hmet t (.through hslot hcontent ht)]

/--
For any memo there is one rendering of values that marks the references followed on the way, and it
is what values are rendered as: the depth is never used up, and the set of slots is left as it was
found. Where no reference leads back to a slot on the way, a value is rendered as at the root.
-/
theorem toJson_of_rendering (m : Memo) :
    ∃ R, m.Rendering R ∧ (∀ R', m.Rendering R' → R' = R) ∧
      (∀ depth, m.slots.length < depth → ∀ visiting v,
        v.render (m.renderSlot depth) visiting = some (R visiting v, visiting)) ∧
      (∀ v, m.toJson v = R [] v) ∧
      ∀ followed v, (∀ t ∈ followed, ¬ m.Leads v t) → R followed v = R [] v := by
  have h := m.rendering_slotToJson
  refine ⟨_, h, fun R' h' => h'.unique h, fun depth hdepth => h.render_eq hdepth, h.toJson_eq,
    fun followed v hfar => h.congr_followed fun t ht => ?_⟩
  exact ⟨fun hmem => absurd ht (hfar t hmem), fun hmem => absurd hmem List.not_mem_nil⟩

/-- A slot in itself, one that is met twice, one without value, and one that is not there. -/
def sharing : Memo :=
  ⟨[.ready (.record [("left", .ref ⟨1⟩), ("right", .ref ⟨1⟩), ("self", .ref ⟨0⟩)]),
    .ready (.list [.ref ⟨2⟩, .ref ⟨3⟩]), .pending], []⟩

theorem toJson_sharing :
    (∃ R, sharing.Rendering R ∧ R [⟨0⟩] (.ref ⟨1⟩) = R [] (.ref ⟨1⟩)) ∧
    sharing.slots.length < 4 ∧
    (Value.ref ⟨0⟩).render (sharing.renderSlot 4) [] = some (sharing.toJson (.ref ⟨0⟩), []) ∧
    sharing.toJson (.ref ⟨0⟩) =
      .object [("left", .array [.null, .null]), ("right", .array [.null, .null]),
        ("self", backReference ⟨0⟩)] := by
  obtain ⟨R, hR, -, hrender, hroot, hshared⟩ := toJson_of_rendering sharing
  have hlength : sharing.slots.length < 4 := by decide
  have hfar : ∀ t ∈ [SlotId.mk 0], ¬ sharing.Leads (.ref ⟨1⟩) t := by
    intro t ht h
    obtain rfl := List.mem_singleton.1 ht
    cases h with
    | here hmem => cases List.mem_singleton.1 hmem
    | through hmem hcontent hrest =>
      obtain rfl := List.mem_singleton.1 hmem
      cases hcontent
      cases hrest with
      | here hmem => exact absurd hmem (by decide)
      | through hmem hcontent _ =>
        rcases List.mem_cons.1 hmem with rfl | hmem
        · cases hcontent
        · obtain rfl := List.mem_singleton.1 hmem
          cases hcontent
  refine ⟨⟨R, hR, hshared _ _ hfar⟩, hlength, ?_, rfl⟩
  rw [hrender 4 hlength, hroot]

end Memo
end ShaclExtract
