import Mathlib.Data.List.Forall2
import ShaclExtract.Proofs.Extractor.Action
import ShaclExtract.Proofs.Memo.Contents

/-!
# ShaclExtract.Proofs.Extractor.Outputs

What the outputs of an action are, given the memo that it leaves (`Yields`). Such a fact has to be
kept along with entries and values, because whatever is run afterwards adds to the memo; then it is
known of an output of a combinator from what is known of its parts, and there is one rule for each.
-/

theorem List.Forall₂.exists_of_mem {α β : Type} {R : α → β → Prop} {as : List α} {bs : List β}
    (h : List.Forall₂ R as bs) : ∀ b ∈ bs, ∃ a ∈ as, R a b := by
  induction h with
  | nil => simp
  | cons hab _ ih =>
    intro b hb
    rcases List.mem_cons.1 hb with rfl | hb
    · exact ⟨_, List.mem_cons_self, hab⟩
    · obtain ⟨a, ha, h⟩ := ih b hb
      exact ⟨a, List.mem_cons_of_mem _ ha, h⟩

namespace ShaclExtract

theorem Extractor.forall₂_of_all {σ ι ο γ : Type} {l : List γ} {x : γ → Extractor σ ι ο} {i : ι}
    {os : List ο} {s s' : σ} (h : all (l.map x) i s = some (.ok os, s')) :
    List.Forall₂ (fun c o => ∃ s s', x c i s = some (.ok o, s')) l os := by
  rw [all_map, each_eq_ok_iff] at h
  induction h with
  | nil s => exact .nil
  | cons ho _ ih => exact .cons ⟨_, _, ho⟩ ih

structure Yields {ο : Type} (A : Memo → ο → Prop) (x : Action RunState ο) : Prop where
  extending : Memo.Extending x
  lasting : ∀ m m' a, m.KeptBy m' → A m a → A m' a
  output : ∀ s a s', s.memo.Bounded → x s = some (.ok a, s') → A s'.memo a

namespace Yields

variable {α β ο ι : Type}

theorem mono {A B : Memo → ο → Prop} {x : Action RunState ο} (hx : Yields A x)
    (hB : ∀ m m' a, m.KeptBy m' → B m a → B m' a) (h : ∀ m a, A m a → B m a) : Yields B x :=
  ⟨hx.extending, hB, fun s a s' hs hrun => h _ _ (hx.output s a s' hs hrun)⟩

theorem answer (r : Except Failure ο) : Yields (fun _ a => r = .ok a) (Action.answer r) where
  extending s r' s' h _ := by cases h; exact .refl _
  lasting _ _ _ _ h := h
  output s a s' _ h := by cases h; rfl

theorem bindOk {A : Memo → α → Prop} {B : α → Memo → ο → Prop} {x : Action RunState α}
    {k : α → Action RunState ο} (hx : Yields A x) (hk : ∀ a, Yields (B a) (k a)) :
    Yields (fun m b => ∃ a, A m a ∧ B a m b) (Action.bindOk x k) where
  extending s r s' h hs := by
    obtain ⟨e, _, h₁⟩ | ⟨a, s₁, h₁, h⟩ := Action.bindOk_eq_some_iff.1 h
    · exact hx.extending s _ s' h₁ hs
    · have hext := hx.extending s _ s₁ h₁ hs
      exact hext.trans ((hk a).extending s₁ r s' h (hext.bounded hs))
  lasting m m' b hkept h := by
    obtain ⟨a, ha, hb⟩ := h
    exact ⟨a, hx.lasting m m' a hkept ha, (hk a).lasting m m' b hkept hb⟩
  output s b s' hs h := by
    obtain ⟨a, s₁, h₁, h⟩ := Action.ok_of_bindOk h
    have hext := hx.extending s _ s₁ h₁ hs
    have hrest := (hk a).extending s₁ _ s' h (hext.bounded hs)
    exact ⟨a, hx.lasting _ _ a hrest.keptBy (hx.output s a s₁ hs h₁),
      (hk a).output s₁ b s' (hext.bounded hs) h⟩

theorem bindError {A : Memo → ο → Prop} {x : Action RunState ο} {k : Failure → Action RunState ο}
    (hx : Yields A x) (hk : ∀ e, Yields A (k e)) : Yields A (Action.bindError x k) where
  extending s r s' h hs := by
    obtain ⟨a, _, h₁⟩ | ⟨e, s₁, h₁, h⟩ := Action.bindError_eq_some_iff.1 h
    · exact hx.extending s _ s' h₁ hs
    · have hext := hx.extending s _ s₁ h₁ hs
      exact hext.trans ((hk e).extending s₁ r s' h (hext.bounded hs))
  lasting := hx.lasting
  output s b s' hs h := by
    obtain h | ⟨e, s₁, h₁, h⟩ := Action.ok_of_bindError h
    · exact hx.output s b s' hs h
    · have hext := hx.extending s _ s₁ h₁ hs
      exact (hk e).output s₁ b s' (hext.bounded hs) h

/-! ## combinators -/

theorem map {A : Memo → α → Prop} {x : Extractor RunState ι α} {i : ι} (hx : Yields A (x i))
    (f : α → ο) : Yields (fun m b => ∃ a, A m a ∧ b = f a) (x.map f i) := by
  rw [Extractor.map_apply]
  refine (hx.bindOk fun a => answer (.ok (f a))).mono ?_ ?_
  · rintro m m' b hkept ⟨a, ha, rfl⟩
    exact ⟨a, hx.lasting m m' a hkept ha, rfl⟩
  · rintro m b ⟨a, ha, hb⟩
    cases hb
    exact ⟨a, ha, rfl⟩

theorem mapError {A : Memo → ο → Prop} {x : Extractor RunState ι ο} {i : ι} (hx : Yields A (x i))
    (f : Failure → ι → Failure) : Yields A (x.mapError f i) := by
  rw [Extractor.mapError_apply]
  refine hx.bindError fun e => (answer _).mono hx.lasting ?_
  rintro m a ⟨⟩

theorem cons {A : Memo → ο → Prop} {B : Memo → List ο → Prop} {x : Action RunState ο}
    {xs : Action RunState (List ο)} (hx : Yields A x) (hxs : Yields B xs) :
    Yields (fun m as => ∃ a rest, as = a :: rest ∧ A m a ∧ B m rest)
      (Action.bindOk x fun a => Action.bindOk xs fun as => Action.answer (.ok (a :: as))) := by
  refine (hx.bindOk fun a => hxs.bindOk fun as => answer (.ok (a :: as))).mono ?_ ?_
  · rintro m m' as hkept ⟨a, rest, rfl, ha, hrest⟩
    exact ⟨a, rest, rfl, hx.lasting m m' a hkept ha, hxs.lasting m m' rest hkept hrest⟩
  · rintro m as ⟨a, ha, rest, hrest, heq⟩
    cases heq
    exact ⟨a, rest, rfl, ha, hrest⟩

theorem nil {A : Memo → β → ο → Prop} :
    Yields (fun m as => List.Forall₂ (A m) [] as) (Action.answer (.ok [])) := by
  refine (answer (.ok [])).mono (fun _ _ as _ h => ?_) fun m as h => ?_
  · cases h
    exact .nil
  · cases h
    exact .nil

theorem each {A : Memo → ι → ο → Prop} {is : List ι} {x : Extractor RunState ι ο}
    (h : ∀ i ∈ is, Yields (fun m => A m i) (x i)) :
    Yields (fun m as => List.Forall₂ (A m) is as) (x.each is) := by
  induction is with
  | nil => exact nil
  | cons i is ih =>
    have hi := h i List.mem_cons_self
    have his := ih fun i hi => h i (.tail _ hi)
    rw [Extractor.each_cons]
    refine (hi.cons his).mono (fun m m' as hkept has => ?_) fun m as has => ?_
    · cases has with
      | cons ha hrest => exact .cons (hi.lasting m m' _ hkept ha) (his.lasting m m' _ hkept hrest)
    · obtain ⟨a, rest, rfl, ha, hrest⟩ := has
      exact .cons ha hrest

theorem all {A : Memo → β → ο → Prop} {l : List β} {x : β → Extractor RunState ι ο} {i : ι}
    (h : ∀ b ∈ l, Yields (fun m => A m b) (x b i)) :
    Yields (fun m as => List.Forall₂ (A m) l as) (Extractor.all (l.map x) i) := by
  rw [Extractor.all_map]
  exact each h

theorem firstOfAfter {A : Memo → β → ο → Prop} {l : List β} {x : β → Extractor RunState ι ο} {i : ι}
    (h : ∀ b ∈ l, Yields (fun m => A m b) (x b i)) (last : Failure) :
    Yields (fun m a => ∃ b ∈ l, A m b a) (Extractor.firstOfAfter last (l.map x) i) := by
  have hlasting : ∀ m m' a, m.KeptBy m' → (∃ b ∈ l, A m b a) → ∃ b ∈ l, A m' b a := by
    rintro m m' a hkept ⟨b, hb, ha⟩
    exact ⟨b, hb, (h b hb).lasting m m' a hkept ha⟩
  induction l generalizing last with
  | nil =>
    refine (answer _).mono hlasting ?_
    rintro m a ⟨⟩
  | cons b l ih =>
    rw [List.map_cons, Extractor.firstOfAfter_cons]
    have hl : ∀ b ∈ l, Yields (fun m => A m b) (x b i) := fun b hb => h b (.tail _ hb)
    refine ((h b List.mem_cons_self).mono hlasting fun m a ha => ⟨b, List.mem_cons_self, ha⟩)
      |>.bindError fun e => ?_
    refine (ih hl e ?_).mono hlasting ?_
    · rintro m m' a hkept ⟨b, hb, ha⟩
      exact ⟨b, hb, (hl b hb).lasting m m' a hkept ha⟩
    · rintro m a ⟨b', hb', ha⟩
      exact ⟨b', List.mem_cons_of_mem _ hb', ha⟩

end Yields
end ShaclExtract
