import Mathlib.Data.List.Forall2
import ShaclExtract.Proofs.Memo.Chains
import ShaclExtract.Proofs.Memo.Contents
import ShaclExtract.Proofs.Memo.References

/-!
# ShaclExtract.Proofs.Memo.Unfolding

Values with every reference replaced by the value in its slot, and so on. On data that leads back to
itself this has no end, so a depth bounds how many references may be nested (`Memo.unfold`); what a
value unfolds to does not depend on the depth (`UnfoldsTo.unique`), and stays what it is while the
memo grows (`UnfoldsTo.kept`).
-/

namespace ShaclExtract

namespace Value

mutual

/-- The value with its references replaced; none if one of them has no replacement. -/
def replaced (replacement? : SlotId → Option Value) : Value → Option Value
  | .list items => (replacedItems replacement? items).map .list
  | .record fields => (replacedFields replacement? fields).map .record
  | .ref slot => replacement? slot
  | v => some v

def replacedItems (replacement? : SlotId → Option Value) : List Value → Option (List Value)
  | [] => some []
  | v :: vs =>
    match replaced replacement? v, replacedItems replacement? vs with
    | some w, some ws => some (w :: ws)
    | _, _ => none

def replacedFields (replacement? : SlotId → Option Value) :
    List (String × Value) → Option (List (String × Value))
  | [] => some []
  | (name, v) :: fields =>
    match replaced replacement? v, replacedFields replacement? fields with
    | some w, some rest => some ((name, w) :: rest)
    | _, _ => none

end

end Value

/-- The records have the same names in the same order, and the values of each name correspond. -/
def Record.Related (A : Value → Value → Prop) (r r' : Record) : Prop :=
  List.Forall₂ (fun p q => p.1 = q.1 ∧ A p.2 q.2) r r'

namespace Record

variable {A : Value → Value → Prop} {r r' : Record}

theorem related_eq (h : Related Eq r r') : r = r' := by
  have heq : List.Forall₂ Eq r r' := h.imp fun _ _ hpq => Prod.ext hpq.1 hpq.2
  rwa [List.forall₂_eq_eq_eq] at heq

theorem Related.flip (h : Related A r r') : Related (fun v w => A w v) r' r :=
  (List.Forall₂.flip h).imp fun _ _ hpq => ⟨hpq.1.symm, hpq.2⟩

theorem Related.insert (h : Related A r r') (name : String) {v v' : Value} (hv : A v v') :
    Related A (r.insert name v) (r'.insert name v') := by
  induction h with
  | nil => exact .cons ⟨rfl, hv⟩ .nil
  | @cons p q r r' hpq h ih =>
    obtain ⟨n, w⟩ := p
    obtain ⟨n', w'⟩ := q
    obtain ⟨rfl, hw⟩ := hpq
    unfold Record.insert
    split
    · exact .cons ⟨rfl, hv⟩ h
    · split
      · exact .cons ⟨rfl, hv⟩ (.cons ⟨rfl, hw⟩ h)
      · exact .cons ⟨rfl, hw⟩ ih

theorem Related.merge {new new' : Record} (h : Related A r r') (hnew : Related A new new') :
    Related A (r.merge new) (r'.merge new') := by
  induction hnew generalizing r r' with
  | nil => exact h
  | @cons p q new new' hpq _ ih =>
    obtain ⟨n, w⟩ := p
    obtain ⟨n', w'⟩ := q
    obtain ⟨rfl, hw⟩ := hpq
    exact ih (h.insert n hw)

theorem Related.ofList (h : Related A r r') : Related A (ofList r) (ofList r') := merge .nil h

theorem related_flatten {rs rs' : List Record} (h : List.Forall₂ (Related A) rs rs') :
    Related A rs.flatten rs'.flatten := by
  induction h with
  | nil => exact .nil
  | cons hr _ ih => exact List.rel_append hr ih

end Record

namespace Value

variable {f f' : SlotId → Option Value}

theorem replacedItems_eq_some : ∀ {vs ws : List Value},
    replacedItems f vs = some ws ↔ List.Forall₂ (fun v w => v.replaced f = some w) vs ws
  | [], ws => by simp [replacedItems, eq_comm]
  | v :: vs, ws => by
    rw [List.forall₂_cons_left_iff]
    simp only [← replacedItems_eq_some, replacedItems]
    cases v.replaced f <;> cases replacedItems f vs <;> simp [eq_comm]

theorem replacedFields_eq_some : ∀ {r r' : Record},
    replacedFields f r = some r' ↔ Record.Related (fun v w => v.replaced f = some w) r r'
  | [], r' => by simp [replacedFields, Record.Related, eq_comm]
  | (name, v) :: r, r' => by
    rw [Record.Related, List.forall₂_cons_left_iff]
    have ih : ∀ r', replacedFields f r = some r' ↔ _ := fun r' => replacedFields_eq_some
    simp only [Record.Related] at ih
    simp only [← ih, replacedFields]
    cases v.replaced f <;> cases replacedFields f r <;> simp [eq_comm]

theorem replaced_list {vs : List Value} {w : Value} :
    (Value.list vs).replaced f = some w ↔
      ∃ ws, w = .list ws ∧ List.Forall₂ (fun v w => v.replaced f = some w) vs ws := by
  simp only [replaced, Option.map_eq_some_iff, replacedItems_eq_some]
  exact exists_congr fun ws => ⟨fun h => ⟨h.2.symm, h.1⟩, fun h => ⟨h.2, h.1.symm⟩⟩

theorem replaced_record {r : Record} {w : Value} :
    (Value.record r).replaced f = some w ↔
      ∃ r' : Record, w = .record r' ∧ Record.Related (fun v w => v.replaced f = some w) r r' := by
  simp only [replaced, Option.map_eq_some_iff, replacedFields_eq_some]
  exact exists_congr fun ws => ⟨fun h => ⟨h.2.symm, h.1⟩, fun h => ⟨h.2, h.1.symm⟩⟩

mutual

theorem replaced_mono (h : ∀ slot w, f slot = some w → f' slot = some w) :
    ∀ v w : Value, v.replaced f = some w → v.replaced f' = some w
  | .list items, w, hw => by
    simp only [replaced, Option.map_eq_some_iff] at hw ⊢
    obtain ⟨ws, hws, rfl⟩ := hw
    exact ⟨ws, replacedItems_mono h items ws hws, rfl⟩
  | .record fields, w, hw => by
    simp only [replaced, Option.map_eq_some_iff] at hw ⊢
    obtain ⟨r, hr, rfl⟩ := hw
    exact ⟨r, replacedFields_mono h fields r hr, rfl⟩
  | .ref slot, w, hw => h slot w hw
  | .null, _, hw | .bool _, _, hw | .integer _, _, hw | .float _, _, hw | .text _, _, hw
  | .dateTime _, _, hw | .term _, _, hw | .quads _, _, hw | .path _, _, hw | .pending, _, hw => hw

theorem replacedItems_mono (h : ∀ slot w, f slot = some w → f' slot = some w) :
    ∀ vs ws : List Value, replacedItems f vs = some ws → replacedItems f' vs = some ws
  | [], _, hws => hws
  | v :: vs, ws, hws => by
    unfold replacedItems at hws ⊢
    cases hv : v.replaced f with
    | none => simp only [hv] at hws; cases hws
    | some w =>
      cases hvs : replacedItems f vs with
      | none => simp only [hv, hvs] at hws; cases hws
      | some us =>
        simp only [hv, hvs] at hws
        simpa only [replaced_mono h v w hv, replacedItems_mono h vs us hvs] using hws

theorem replacedFields_mono (h : ∀ slot w, f slot = some w → f' slot = some w) :
    ∀ r r' : List (String × Value), replacedFields f r = some r' → replacedFields f' r = some r'
  | [], _, hr => hr
  | (name, v) :: r, r', hr => by
    unfold replacedFields at hr ⊢
    cases hv : v.replaced f with
    | none => simp only [hv] at hr; cases hr
    | some w =>
      cases hrest : replacedFields f r with
      | none => simp only [hv, hrest] at hr; cases hr
      | some rest =>
        simp only [hv, hrest] at hr
        simpa only [replaced_mono h v w hv, replacedFields_mono h r rest hrest] using hr

end

mutual

theorem replaced_of_refs : ∀ v : Value, v.refs = [] → v.replaced f = some v
  | .list items, h => by rw [replaced, replacedItems_of_refs items h, Option.map_some]
  | .record fields, h => by rw [replaced, replacedFields_of_refs fields h, Option.map_some]
  | .ref slot, h => by cases h
  | .null, _ | .bool _, _ | .integer _, _ | .float _, _ | .text _, _ | .dateTime _, _
  | .term _, _ | .quads _, _ | .path _, _ | .pending, _ => rfl

theorem replacedItems_of_refs : ∀ vs : List Value, refsOfItems vs = [] →
    replacedItems f vs = some vs
  | [], _ => rfl
  | v :: vs, h => by
    obtain ⟨hv, hvs⟩ := List.append_eq_nil_iff.1 h
    simp only [replacedItems, replaced_of_refs v hv, replacedItems_of_refs vs hvs]

theorem replacedFields_of_refs : ∀ r : List (String × Value), refsOfFields r = [] →
    replacedFields f r = some r
  | [], _ => rfl
  | (_, v) :: r, h => by
    obtain ⟨hv, hr⟩ := List.append_eq_nil_iff.1 h
    simp only [replacedFields, replaced_of_refs v hv, replacedFields_of_refs r hr]

end

mutual

theorem refs_of_replaced (h : ∀ slot w, f slot = some w → w.refs = []) :
    ∀ v w : Value, v.replaced f = some w → w.refs = []
  | .list items, w, hw => by
    simp only [replaced, Option.map_eq_some_iff] at hw
    obtain ⟨ws, hws, rfl⟩ := hw
    exact refs_of_replacedItems h items ws hws
  | .record fields, w, hw => by
    simp only [replaced, Option.map_eq_some_iff] at hw
    obtain ⟨r, hr, rfl⟩ := hw
    exact refs_of_replacedFields h fields r hr
  | .ref slot, w, hw => h slot w hw
  | .null, _, hw | .bool _, _, hw | .integer _, _, hw | .float _, _, hw | .text _, _, hw
  | .dateTime _, _, hw | .term _, _, hw | .quads _, _, hw | .path _, _, hw | .pending, _, hw => by
    cases hw
    rfl

theorem refs_of_replacedItems (h : ∀ slot w, f slot = some w → w.refs = []) :
    ∀ vs ws : List Value, replacedItems f vs = some ws → refsOfItems ws = []
  | [], _, hws => by
    cases hws
    rfl
  | v :: vs, ws, hws => by
    unfold replacedItems at hws
    split at hws
    · rename_i u us hu hus
      cases hws
      exact List.append_eq_nil_iff.2
        ⟨refs_of_replaced h v u hu, refs_of_replacedItems h vs us hus⟩
    · cases hws

theorem refs_of_replacedFields (h : ∀ slot w, f slot = some w → w.refs = []) :
    ∀ r r' : List (String × Value), replacedFields f r = some r' → refsOfFields r' = []
  | [], _, hr => by
    cases hr
    rfl
  | (name, v) :: r, r', hr => by
    unfold replacedFields at hr
    split at hr
    · rename_i u rest hu hrest
      cases hr
      exact List.append_eq_nil_iff.2
        ⟨refs_of_replaced h v u hu, refs_of_replacedFields h r rest hrest⟩
    · cases hr

end

end Value

namespace Memo

variable {m m' : Memo}

/-- The value with references replaced by what is in their slots, nested less than `depth` deep. -/
def unfold (m : Memo) : Nat → Value → Option Value
  | 0, _ => none
  | depth + 1, v =>
    v.replaced fun slot =>
      match m.slot? slot with
      | some (.ready w) => unfold m depth w
      | _ => none

def UnfoldsTo (m : Memo) (v w : Value) : Prop := ∃ depth, m.unfold depth v = some w

theorem unfold_mono (hkept : m.KeptBy m') {depth depth' : Nat} (hle : depth ≤ depth') :
    ∀ v w, m.unfold depth v = some w → m'.unfold depth' v = some w := by
  induction depth generalizing depth' with
  | zero => intro v w h; cases h
  | succ depth ih =>
    intro v w h
    obtain ⟨n, rfl⟩ : ∃ n, depth' = n + 1 := ⟨depth' - 1, by omega⟩
    refine Value.replaced_mono (fun slot u hu => ?_) v w h
    split at hu
    · rename_i u' hslot
      rw [hkept.values _ _ hslot]
      exact ih (by omega) u' u hu
    · cases hu

theorem UnfoldsTo.kept {v w : Value} (h : m.UnfoldsTo v w) (hkept : m.KeptBy m') :
    m'.UnfoldsTo v w := by
  obtain ⟨depth, h⟩ := h
  exact ⟨depth, unfold_mono hkept (Nat.le_refl _) v w h⟩

theorem UnfoldsTo.unique {v w w' : Value} (h : m.UnfoldsTo v w) (h' : m.UnfoldsTo v w') :
    w = w' := by
  obtain ⟨depth, h⟩ := h
  obtain ⟨depth', h'⟩ := h'
  have hmax := unfold_mono (.refl m) (Nat.le_max_left depth depth') v w h
  exact Option.some.inj (hmax.symm.trans (unfold_mono (.refl m) (Nat.le_max_right _ _) v w' h'))

theorem UnfoldsTo.refs {v w : Value} (h : m.UnfoldsTo v w) : w.refs = [] := by
  obtain ⟨depth, h⟩ := h
  induction depth generalizing v w with
  | zero => cases h
  | succ depth ih =>
    refine Value.refs_of_replaced (fun slot u hu => ?_) v w h
    split at hu
    · exact ih hu
    · cases hu

theorem unfoldsTo_of_refs {v : Value} (h : v.refs = []) : m.UnfoldsTo v v :=
  ⟨1, Value.replaced_of_refs v h⟩

theorem unfoldsTo_ref {slot : SlotId} {v w : Value} (hslot : m.slot? slot = some (.ready v))
    (h : m.UnfoldsTo v w) : m.UnfoldsTo (.ref slot) w := by
  obtain ⟨depth, h⟩ := h
  exact ⟨depth + 1, by simp only [unfold, Value.replaced, hslot, h]⟩

theorem exists_depth {α β : Type} {P : Nat → α → β → Prop}
    (hP : ∀ n n' a b, n ≤ n' → P n a b → P n' a b) {as : List α} {bs : List β}
    (h : List.Forall₂ (fun a b => ∃ n, P n a b) as bs) : ∃ n, List.Forall₂ (P n) as bs := by
  induction h with
  | nil => exact ⟨0, .nil⟩
  | cons hab _ ih =>
    obtain ⟨n, hab⟩ := hab
    obtain ⟨n', ih⟩ := ih
    exact ⟨max n n', .cons (hP _ _ _ _ (Nat.le_max_left _ _) hab)
      (ih.imp fun a b => hP _ _ a b (Nat.le_max_right _ _))⟩

theorem unfoldsTo_list {vs ws : List Value} (h : List.Forall₂ m.UnfoldsTo vs ws) :
    m.UnfoldsTo (.list vs) (.list ws) := by
  obtain ⟨depth, h⟩ := exists_depth
    (fun _ _ v w hle hw => unfold_mono (.refl m) hle v w hw) h
  refine ⟨depth + 1, Value.replaced_list.2 ⟨ws, rfl, ?_⟩⟩
  exact h.imp fun v w hw => unfold_mono (.refl m) (Nat.le_succ _) v w hw

theorem unfoldsTo_record {r r' : Record} (h : Record.Related m.UnfoldsTo r r') :
    m.UnfoldsTo (.record r) (.record r') := by
  obtain ⟨depth, h⟩ := exists_depth
    (P := fun n (p q : String × Value) => p.1 = q.1 ∧ m.unfold n p.2 = some q.2)
    (fun _ _ p q hle hw => ⟨hw.1, unfold_mono (.refl m) hle _ _ hw.2⟩)
    (h.imp fun p q hpq => ⟨_, hpq.1, hpq.2.choose_spec⟩)
  refine ⟨depth + 1, Value.replaced_record.2 ⟨r', rfl, ?_⟩⟩
  exact h.imp fun p q hpq => ⟨hpq.1, unfold_mono (.refl m) (Nat.le_succ _) _ _ hpq.2⟩

/-! ## resolving -/

theorem UnfoldsTo.chain {v w : Value} (h : m.UnfoldsTo v w) :
    ∃ ids u, m.Chain v ids u ∧ m.UnfoldsTo u w := by
  obtain ⟨depth, h⟩ := h
  induction depth generalizing v with
  | zero => cases h
  | succ depth ih =>
    by_cases hv : ∃ slot, v = .ref slot
    · obtain ⟨slot, rfl⟩ := hv
      simp only [unfold, Value.replaced] at h
      split at h
      · rename_i u hslot
        obtain ⟨ids, end', hchain, hend⟩ := ih h
        exact ⟨slot :: ids, end', .follow hslot hchain, hend⟩
      · cases h
    · exact ⟨[], v, .stop fun id hid => hv ⟨id, hid⟩, depth + 1, h⟩

theorem UnfoldsTo.resolve {v w : Value} (h : m.UnfoldsTo v w) : m.UnfoldsTo (m.resolve v) w := by
  obtain ⟨ids, u, hchain, hu⟩ := h.chain
  rwa [hchain.resolve_eq]

/-- A value resolves to a record exactly if it unfolds to one. -/
theorem UnfoldsTo.record_or {v w : Value} (h : m.UnfoldsTo v w) :
    (∃ r r' : Record, m.resolve v = .record r ∧ w = .record r' ∧
      Record.Related m.UnfoldsTo r r') ∨
    (∀ r, m.resolve v ≠ .record r) ∧ ∀ r, w ≠ .record r := by
  obtain ⟨ids, u, hchain, depth, hu⟩ := h.chain
  rw [hchain.resolve_eq]
  cases depth with
  | zero => cases hu
  | succ depth =>
    cases u with
    | record r =>
      obtain ⟨r', rfl, hr⟩ := Value.replaced_record.1 hu
      refine .inl ⟨r, r', rfl, rfl, hr.imp fun p q hpq => ⟨hpq.1, depth + 1, ?_⟩⟩
      exact hpq.2
    | list vs =>
      obtain ⟨ws, rfl, _⟩ := Value.replaced_list.1 hu
      exact .inr ⟨by simp, by simp⟩
    | ref slot => exact absurd rfl (hchain.not_ref slot)
    | _ =>
      cases hu
      exact .inr ⟨by simp, by simp⟩

end Memo
end ShaclExtract
