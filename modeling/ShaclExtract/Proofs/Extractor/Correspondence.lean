import ShaclExtract.Proofs.Extractor.Action
import ShaclExtract.Proofs.Memo.Unfolding

/-!
# ShaclExtract.Proofs.Extractor.Correspondence

Two ways to run the same thing, side by side. A `Correspondence` says which states of the two go
together and which values of the second stand for a value of the first. An action of the second
corresponds to one of the first if, whenever the first ends, so does the second: with the same
failure, or with an output that stands for that of the first (`Corresponds`). There is one rule for
each way to combine extractors.

What is known of earlier outputs is a precondition `P` on the state of the second, which has to last
while that state grows.
-/

namespace ShaclExtract

structure Correspondence (σ τ : Type) where
  states : σ → τ → Prop
  /-- What a run may do to the second state. -/
  grows : τ → τ → Prop
  /-- In the given state, the first value is what the second one stands for. -/
  values : τ → Value → Value → Prop
  refl : ∀ t, grows t t
  trans : ∀ {t t' t''}, grows t t' → grows t' t'' → grows t t''
  kept : ∀ {t t' v w}, grows t t' → values t v w → values t' v w
  of_refs : ∀ {t v}, v.refs = [] → values t v v
  list : ∀ {t vs ws}, List.Forall₂ (values t) vs ws → values t (.list vs) (.list ws)
  record : ∀ {t r r'}, Record.Related (values t) r r' → values t (.record r) (.record r')

namespace Correspondence

variable {σ τ α β α' β' γ ι κ : Type} (C : Correspondence σ τ)

def Lasting (P : τ → Prop) : Prop := ∀ {t t'}, C.grows t t' → P t → P t'

/-- The failures are the same, or the outputs correspond. -/
def Results (A : τ → α → β → Prop) (t : τ) : Except Failure α → Except Failure β → Prop
  | .ok a, .ok b => A t a b
  | .error e, .error e' => e = e'
  | _, _ => False

/-- The second action ends as the first one has, from a state `t` to one that goes with `s'`. -/
def Follows (A : τ → α → β → Prop) (t : τ) (r : Except Failure α) (s' : σ)
    (o : Option (Except Failure β × τ)) : Prop :=
  ∃ r' t', o = some (r', t') ∧ C.states s' t' ∧ C.grows t t' ∧ Results A t' r r'

def Corresponds (P : τ → Prop) (A : τ → α → β → Prop) (x : Action σ α) (y : Action τ β) : Prop :=
  ∀ s r s' t, C.states s t → P t → x s = some (r, s') → C.Follows A t r s' (y t)

variable {C} {P Q : τ → Prop} {A : τ → α → β → Prop}

theorem Results.cases {t : τ} {r : Except Failure α} {r' : Except Failure β}
    (h : Results A t r r') : (∃ e, r = .error e ∧ r' = .error e) ∨
      ∃ a b, r = .ok a ∧ r' = .ok b ∧ A t a b := by
  cases r with
  | error e =>
    cases r' with
    | error e' =>
      obtain rfl : e = e' := h
      exact .inl ⟨e, rfl, rfl⟩
    | ok b => exact h.elim
  | ok a =>
    cases r' with
    | error e' => exact h.elim
    | ok b => exact .inr ⟨a, b, rfl, rfl, h⟩

theorem Lasting.and (hP : C.Lasting P) (hQ : C.Lasting Q) : C.Lasting fun t => P t ∧ Q t :=
  fun hg h => ⟨hP hg h.1, hQ hg h.2⟩

theorem lasting_values (v w : Value) : C.Lasting fun t => C.values t v w := fun hg h => C.kept hg h

theorem lasting_related (r r' : Record) :
    C.Lasting fun t => Record.Related (C.values t) r r' :=
  fun hg h => h.imp fun _ _ hpq => ⟨hpq.1, C.kept hg hpq.2⟩

namespace Corresponds

theorem weaken {x : Action σ α} {y : Action τ β} (h : C.Corresponds Q A x y)
    (hPQ : ∀ t, P t → Q t) : C.Corresponds P A x y :=
  fun s r s' t hst hp => h s r s' t hst (hPQ t hp)

/-! ## answering and going on -/

theorem answer {r : Except Failure α} {r' : Except Failure β} (h : ∀ t, P t → Results A t r r') :
    C.Corresponds P A (Action.answer r) (Action.answer r') := by
  intro s r₁ s' t hst hp hx
  cases hx
  exact ⟨r', t, rfl, hst, C.refl t, h t hp⟩

theorem bindOk {x : Action σ α} {y : Action τ β} {k : α → Action σ α'} {k' : β → Action τ β'}
    {B : τ → α' → β' → Prop} (hP : C.Lasting P) (hx : C.Corresponds P A x y)
    (hk : ∀ a b, C.Corresponds (fun t => P t ∧ A t a b) B (k a) (k' b)) :
    C.Corresponds P B (Action.bindOk x k) (Action.bindOk y k') := by
  intro s r s' t hst hp h
  simp only [Action.bindOk, Action.bind] at h ⊢
  split at h
  · cases h
  · rename_i r₁ s₁ h₁
    obtain ⟨r₂, t₁, hy, hst₁, hg, hr⟩ := hx s r₁ s₁ t hst hp h₁
    rw [hy]
    obtain ⟨e, rfl, rfl⟩ | ⟨a, b, rfl, rfl, hab⟩ := hr.cases
    · cases h
      exact ⟨_, t₁, rfl, hst₁, hg, rfl⟩
    · obtain ⟨r', t', hy', hst', hg', hr'⟩ := hk a b s₁ r s' t₁ hst₁ ⟨hP hg hp, hab⟩ h
      exact ⟨r', t', hy', hst', C.trans hg hg', hr'⟩

theorem bindError {x : Action σ α} {y : Action τ β} {k : Failure → Action σ α}
    {k' : Failure → Action τ β} (hP : C.Lasting P) (hx : C.Corresponds P A x y)
    (hk : ∀ e, C.Corresponds P A (k e) (k' e)) :
    C.Corresponds P A (Action.bindError x k) (Action.bindError y k') := by
  intro s r s' t hst hp h
  simp only [Action.bindError, Action.bind] at h ⊢
  split at h
  · cases h
  · rename_i r₁ s₁ h₁
    obtain ⟨r₂, t₁, hy, hst₁, hg, hr⟩ := hx s r₁ s₁ t hst hp h₁
    rw [hy]
    obtain ⟨e, rfl, rfl⟩ | ⟨a, b, rfl, rfl, hab⟩ := hr.cases
    · obtain ⟨r', t', hy', hst', hg', hr'⟩ := hk e s₁ r s' t₁ hst₁ (hP hg hp) h
      exact ⟨r', t', hy', hst', C.trans hg hg', hr'⟩
    · cases h
      exact ⟨_, t₁, rfl, hst₁, hg, hab⟩

/-! ## combinators -/

theorem map {x : Extractor σ ι α} {y : Extractor τ κ β} {f : α → α'} {f' : β → β'}
    {B : τ → α' → β' → Prop} {i : ι} {j : κ} (hP : C.Lasting P) (hx : C.Corresponds P A (x i) (y j))
    (hf : ∀ t a b, A t a b → B t (f a) (f' b)) : C.Corresponds P B (x.map f i) (y.map f' j) := by
  rw [Extractor.map_apply, Extractor.map_apply]
  exact hx.bindOk hP fun a b => answer fun t ht => hf t a b ht.2

theorem mapError {x : Extractor σ ι α} {y : Extractor τ κ β} {f : Failure → ι → Failure}
    {f' : Failure → κ → Failure} {i : ι} {j : κ} (hP : C.Lasting P)
    (hx : C.Corresponds P A (x i) (y j)) (hf : ∀ e, f e i = f' e j) :
    C.Corresponds P A (x.mapError f i) (y.mapError f' j) := by
  rw [Extractor.mapError_apply, Extractor.mapError_apply]
  exact hx.bindError hP fun e => answer fun t _ => hf e

theorem cons {x : Action σ α} {y : Action τ β} {xs : Action σ (List α)} {ys : Action τ (List β)}
    (hP : C.Lasting P) (hA : ∀ a b, C.Lasting fun t => A t a b) (hx : C.Corresponds P A x y)
    (hxs : C.Corresponds P (fun t => List.Forall₂ (A t)) xs ys) :
    C.Corresponds P (fun t => List.Forall₂ (A t))
      (Action.bindOk x fun a => Action.bindOk xs fun as => Action.answer (.ok (a :: as)))
      (Action.bindOk y fun b => Action.bindOk ys fun bs => Action.answer (.ok (b :: bs))) :=
  hx.bindOk hP fun a b => (hxs.weaken fun _ ht => ht.1).bindOk (hP.and (hA a b)) fun _ _ =>
    answer fun _ ht => .cons ht.1.2 ht.2

theorem each {l : List γ} {x : Extractor σ γ α} {y : Extractor τ γ β} (hP : C.Lasting P)
    (hA : ∀ a b, C.Lasting fun t => A t a b) (h : ∀ c ∈ l, C.Corresponds P A (x c) (y c)) :
    C.Corresponds P (fun t => List.Forall₂ (A t)) (x.each l) (y.each l) := by
  induction l with
  | nil => exact answer fun t _ => .nil
  | cons c l ih =>
    rw [Extractor.each_cons, Extractor.each_cons]
    exact cons hP hA (h c List.mem_cons_self) (ih fun c hc => h c (.tail _ hc))

theorem all {l : List γ} {x : γ → Extractor σ ι α} {y : γ → Extractor τ κ β} {i : ι} {j : κ}
    (hP : C.Lasting P) (hA : ∀ a b, C.Lasting fun t => A t a b)
    (h : ∀ c ∈ l, C.Corresponds P A (x c i) (y c j)) :
    C.Corresponds P (fun t => List.Forall₂ (A t)) (Extractor.all (l.map x) i)
      (Extractor.all (l.map y) j) := by
  rw [Extractor.all_map, Extractor.all_map]
  exact each hP hA h

theorem firstOfAfter {l : List γ} {x : γ → Extractor σ ι α} {y : γ → Extractor τ κ β} {i : ι}
    {j : κ} (hP : C.Lasting P) (h : ∀ c ∈ l, C.Corresponds P A (x c i) (y c j)) (last : Failure) :
    C.Corresponds P A (Extractor.firstOfAfter last (l.map x) i)
      (Extractor.firstOfAfter last (l.map y) j) := by
  induction l generalizing last with
  | nil => exact answer fun t _ => rfl
  | cons c l ih =>
    rw [List.map_cons, List.map_cons, Extractor.firstOfAfter_cons, Extractor.firstOfAfter_cons]
    exact (h c List.mem_cons_self).bindError hP fun e => ih (fun c hc => h c (.tail _ hc)) e

end Corresponds
end Correspondence
end ShaclExtract
