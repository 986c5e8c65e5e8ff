import ShaclExtract.Proofs.Memo.Unfolding

/-!
# ShaclExtract.Proofs.Memo.Likeness

Values in two memos that are the same but for their references. Two values are alike, given which
slots correspond, if replacing corresponding slots by one value makes them equal (`Value.Alike`).
When the contents of corresponding slots are alike in turn, then alike values unfold to the same,
however deep, although on data that leads back to itself neither of them has an end
(`Memo.cutOff_eq`).
-/

namespace List.Forall₂

variable {α β γ : Type} {R : α → β → Prop} {as : List α} {bs : List β}

/-- What the elements that are related have in common, the lists have in common. -/
theorem exists_common {P : α → γ → Prop} {Q : β → γ → Prop} (h : List.Forall₂ R as bs)
    (hR : ∀ a b, R a b → ∃ c, P a c ∧ Q b c) :
    ∃ cs, List.Forall₂ P as cs ∧ List.Forall₂ Q bs cs := by
  induction h with
  | nil => exact ⟨[], .nil, .nil⟩
  | cons hab _ ih =>
    obtain ⟨c, hac, hbc⟩ := hR _ _ hab
    obtain ⟨cs, has, hbs⟩ := ih
    exact ⟨c :: cs, .cons hac has, .cons hbc hbs⟩

theorem of_left {R' : α → γ → Prop} {P : β → γ → Prop} {cs : List γ} (h : List.Forall₂ R as bs)
    (h' : List.Forall₂ R' as cs) (hP : ∀ a ∈ as, ∀ b c, R a b → R' a c → P b c) :
    List.Forall₂ P bs cs := by
  induction h generalizing cs with
  | nil =>
    cases h'
    exact .nil
  | cons hab _ ih =>
    cases h' with
    | cons hac h' =>
      exact .cons (hP _ mem_cons_self _ _ hab hac)
        (ih h' fun a ha => hP a (mem_cons_of_mem _ ha))

end List.Forall₂

namespace ShaclExtract

namespace Value

variable {B : SlotId → SlotId → Prop}

/-- With replacements that agree on corresponding slots, the values become the same. -/
def Alike (B : SlotId → SlotId → Prop) (v v' : Value) : Prop :=
  ∀ f f' : SlotId → Option Value,
    (∀ slot slot', B slot slot' → ∃ w, f slot = some w ∧ f' slot' = some w) →
      ∃ w, v.replaced f = some w ∧ v'.replaced f' = some w

theorem alike_ref {slot slot' : SlotId} (h : B slot slot') : Alike B (.ref slot) (.ref slot') :=
  fun _ _ hf => hf slot slot' h

theorem alike_of_refs {v : Value} (h : v.refs = []) : Alike B v v :=
  fun _ _ _ => ⟨v, replaced_of_refs v h, replaced_of_refs v h⟩

theorem alike_list {vs vs' : List Value} (h : List.Forall₂ (Alike B) vs vs') :
    Alike B (.list vs) (.list vs') := by
  intro f f' hf
  obtain ⟨ws, hvs, hvs'⟩ := h.exists_common fun v v' hv => hv f f' hf
  exact ⟨.list ws, replaced_list.2 ⟨ws, rfl, hvs⟩, replaced_list.2 ⟨ws, rfl, hvs'⟩⟩

theorem alike_record {r r' : Record} (h : Record.Related (Alike B) r r') :
    Alike B (.record r) (.record r') := by
  intro f f' hf
  obtain ⟨ws, hr, hr'⟩ := h.exists_common
    (P := fun (p : String × Value) (q : String × Value) => p.1 = q.1 ∧ p.2.replaced f = some q.2)
    (Q := fun (p : String × Value) (q : String × Value) => p.1 = q.1 ∧ p.2.replaced f' = some q.2)
    fun p p' hp => by
      obtain ⟨w, hw, hw'⟩ := hp.2 f f' hf
      exact ⟨(p.1, w), ⟨rfl, hw⟩, hp.1.symm, hw'⟩
  exact ⟨.record ws, replaced_record.2 ⟨ws, rfl, hr⟩, replaced_record.2 ⟨ws, rfl, hr'⟩⟩

/-- Records that are alike field by field, or other values that are alike. Only records are merged,
so their fields are kept apart here. -/
def Like (B : SlotId → SlotId → Prop) (v v' : Value) : Prop :=
  (∃ r r' : Record, v = .record r ∧ v' = .record r' ∧ Record.Related (Alike B) r r') ∨
    (∀ r, v ≠ .record r) ∧ (∀ r, v' ≠ .record r) ∧ Alike B v v'

theorem Like.alike {v v' : Value} (h : Like B v v') : Alike B v v' := by
  obtain ⟨r, r', rfl, rfl, hr⟩ | ⟨_, _, h⟩ := h
  · exact alike_record hr
  · exact h

theorem like_of_refs {v : Value} (h : v.refs = []) : Like B v v := by
  cases v with
  | record r =>
    refine .inl ⟨r, r, rfl, rfl, List.forall₂_same.2 fun f hf => ⟨rfl, alike_of_refs ?_⟩⟩
    rw [refs_record] at h
    exact List.flatMap_eq_nil_iff.1 h f hf
  | _ => exact .inr ⟨by simp, by simp, alike_of_refs h⟩

theorem like_ref {slot slot' : SlotId} (h : B slot slot') : Like B (.ref slot) (.ref slot') :=
  .inr ⟨by simp, by simp, alike_ref h⟩

end Value

namespace Memo

/-- The value with references replaced by what is in their slots, nested as deep as `depth`, and by
pending below. -/
def cutOff (m : Memo) : Nat → Value → Option Value
  | 0, v => v.replaced fun _ => some .pending
  | depth + 1, v =>
    v.replaced fun slot =>
      match m.slot? slot with
      | some (.ready w) => cutOff m depth w
      | _ => none

/-- If the contents of corresponding slots are alike, alike values are the same at every depth. -/
theorem cutOff_eq {m m' : Memo} {B : SlotId → SlotId → Prop}
    (hB : ∀ slot slot', B slot slot' → ∃ v v', m.slot? slot = some (.ready v) ∧
      m'.slot? slot' = some (.ready v') ∧ v.Alike B v') (depth : Nat) :
    ∀ {v v' : Value}, v.Alike B v' →
      ∃ w, m.cutOff depth v = some w ∧ m'.cutOff depth v' = some w := by
  induction depth with
  | zero => exact fun h => h _ _ fun _ _ _ => ⟨.pending, rfl, rfl⟩
  | succ depth ih =>
    refine fun h => h _ _ fun slot slot' hslot => ?_
    obtain ⟨u, u', hu, hu', halike⟩ := hB slot slot' hslot
    simp only [hu, hu']
    exact ih halike

end Memo
end ShaclExtract
