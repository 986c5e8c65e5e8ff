import Mathlib.Data.List.Forall2
import Mathlib.Data.Option.Basic
import ShaclExtract.Proofs.Extractor.Action

/-!
# ShaclExtract.Proofs.Extractor.Tandem

Two evaluations that do the same all along. A `Tandem` says which states of the two go together; two
actions are run together (`Tandem.Together`) if, from states that go together, both end or neither
does, both fail or both have outputs that are related, and the states go together afterwards. There
is one rule for each way to combine extractors.

Unlike `Correspondence`, this leaves open which failures there are, so the texts in them may differ,
and the second evaluation ends only where the first one does.
-/

theorem Option.Rel.imp {α β : Type} {r r' : α → β → Prop} {a : Option α} {b : Option β}
    (h : Option.Rel r a b) (hr : ∀ x y, r x y → r' x y) : Option.Rel r' a b := by
  cases h with
  | none => exact .none
  | some h => exact .some (hr _ _ h)

namespace ShaclExtract

variable {σ τ α β α' β' ι κ : Type}

/-- Two failures, or outputs that are related. -/
def Outcomes (A : α → β → Prop) : Except Failure α → Except Failure β → Prop
  | .ok a, .ok b => A a b
  | .error _, .error _ => True
  | _, _ => False

namespace Outcomes

variable {A B : α → β → Prop} {r : Except Failure α} {r' : Except Failure β}

theorem cases (h : Outcomes A r r') :
    (∃ e e', r = .error e ∧ r' = .error e') ∨ ∃ a b, r = .ok a ∧ r' = .ok b ∧ A a b := by
  cases r with
  | error e =>
    cases r' with
    | error e' => exact .inl ⟨e, e', rfl, rfl⟩
    | ok b => exact h.elim
  | ok a =>
    cases r' with
    | error e' => exact h.elim
    | ok b => exact .inr ⟨a, b, rfl, rfl, h⟩

theorem imp (h : Outcomes A r r') (hAB : ∀ a b, A a b → B a b) : Outcomes B r r' := by
  obtain ⟨e, e', rfl, rfl⟩ | ⟨a, b, rfl, rfl, hab⟩ := h.cases
  · trivial
  · exact hAB a b hab

end Outcomes

structure Tandem (σ τ : Type) where
  states : σ → τ → Prop
  /-- What a run may do to the second state. -/
  grows : τ → τ → Prop
  refl : ∀ t, grows t t
  trans : ∀ {t t' t''}, grows t t' → grows t' t'' → grows t t''

namespace Tandem

variable (T : Tandem σ τ)

def Together (A : α → β → Prop) (x : Action σ α) (y : Action τ β) : Prop :=
  ∀ s t, T.states s t →
    Option.Rel (fun p q => Outcomes A p.1 q.1 ∧ T.states p.2 q.2 ∧ T.grows t q.2) (x s) (y t)

namespace Together

variable {T} {A : α → β → Prop} {B : α' → β' → Prop}

theorem imp {A' : α → β → Prop} {x : Action σ α} {y : Action τ β} (h : T.Together A x y)
    (hA : ∀ a b, A a b → A' a b) : T.Together A' x y :=
  fun s t hst => (h s t hst).imp fun _ _ hpq => ⟨hpq.1.imp hA, hpq.2⟩

/-! ## answering and going on -/

theorem endless : T.Together A (fun _ => none) fun _ => none := fun _ _ _ => .none

theorem answer {r : Except Failure α} {r' : Except Failure β} (h : Outcomes A r r') :
    T.Together A (Action.answer r) (Action.answer r') :=
  fun _ t hst => .some ⟨h, hst, T.refl t⟩

theorem bind {x : Action σ α} {y : Action τ β} {k : Except Failure α → Action σ α'}
    {k' : Except Failure β → Action τ β'} (hx : T.Together A x y)
    (hk : ∀ r r', Outcomes A r r' → T.Together B (k r) (k' r')) :
    T.Together B (Action.bind x k) (Action.bind y k') := by
  intro s t hst
  have h := hx s t hst
  simp only [Action.bind]
  cases hs : x s with
  | none =>
    rw [hs] at h
    cases ht : y t with
    | none => exact .none
    | some q =>
      rw [ht] at h
      cases h
  | some p =>
    rw [hs] at h
    cases ht : y t with
    | none =>
      rw [ht] at h
      cases h
    | some q =>
      rw [ht] at h
      cases h with
      | some hpq =>
        obtain ⟨hr, hst', hg⟩ := hpq
        exact (hk _ _ hr _ _ hst').imp fun _ _ h => ⟨h.1, h.2.1, T.trans hg h.2.2⟩

theorem bindOk {x : Action σ α} {y : Action τ β} {k : α → Action σ α'} {k' : β → Action τ β'}
    (hx : T.Together A x y) (hk : ∀ a b, A a b → T.Together B (k a) (k' b)) :
    T.Together B (Action.bindOk x k) (Action.bindOk y k') := by
  refine hx.bind fun r r' hr => ?_
  obtain ⟨e, e', rfl, rfl⟩ | ⟨a, b, rfl, rfl, hab⟩ := hr.cases
  · exact answer trivial
  · exact hk a b hab

theorem bindError {x : Action σ α} {y : Action τ β} {k : Failure → Action σ α}
    {k' : Failure → Action τ β} (hx : T.Together A x y)
    (hk : ∀ e e', T.Together A (k e) (k' e')) :
    T.Together A (Action.bindError x k) (Action.bindError y k') := by
  refine hx.bind fun r r' hr => ?_
  obtain ⟨e, e', rfl, rfl⟩ | ⟨a, b, rfl, rfl, hab⟩ := hr.cases
  · exact hk e e'
  · exact answer hab

/-! ## combinators -/

section combinators

variable {x : Extractor σ ι α} {y : Extractor τ κ β} {i : ι} {j : κ}

theorem andThen {x' : Extractor σ α α'} {y' : Extractor τ β β'} (hx : T.Together A (x i) (y j))
    (h : ∀ a b, A a b → T.Together B (x' a) (y' b)) :
    T.Together B (x.andThen x' i) (y.andThen y' j) := by
  rw [Extractor.andThen_apply, Extractor.andThen_apply]
  exact hx.bindOk h

theorem map {f : α → α'} {f' : β → β'} (hx : T.Together A (x i) (y j))
    (hf : ∀ a b, A a b → B (f a) (f' b)) : T.Together B (x.map f i) (y.map f' j) := by
  rw [Extractor.map_apply, Extractor.map_apply]
  exact hx.bindOk fun a b hab => answer (hf a b hab)

theorem mapError {f : Failure → ι → Failure} {f' : Failure → κ → Failure}
    (hx : T.Together A (x i) (y j)) : T.Together A (x.mapError f i) (y.mapError f' j) := by
  rw [Extractor.mapError_apply, Extractor.mapError_apply]
  exact hx.bindError fun _ _ => answer trivial

theorem cons {x : Action σ α} {y : Action τ β} {xs : Action σ (List α)} {ys : Action τ (List β)}
    (hx : T.Together A x y) (hxs : T.Together (List.Forall₂ A) xs ys) :
    T.Together (List.Forall₂ A)
      (Action.bindOk x fun a => Action.bindOk xs fun as => Action.answer (.ok (a :: as)))
      (Action.bindOk y fun b => Action.bindOk ys fun bs => Action.answer (.ok (b :: bs))) :=
  hx.bindOk fun _ _ hab => hxs.bindOk fun _ _ habs =>
    answer (A := List.Forall₂ A) (.cons hab habs)

theorem each {is : List ι} {js : List κ}
    (h : List.Forall₂ (fun i j => T.Together A (x i) (y j)) is js) :
    T.Together (List.Forall₂ A) (x.each is) (y.each js) := by
  induction h with
  | nil => exact answer (A := List.Forall₂ A) .nil
  | cons hx _ ih =>
    rw [Extractor.each_cons, Extractor.each_cons]
    exact cons hx ih

theorem all {xs : List (Extractor σ ι α)} {ys : List (Extractor τ κ β)}
    (h : List.Forall₂ (fun x y => T.Together A (x i) (y j)) xs ys) :
    T.Together (List.Forall₂ A) (Extractor.all xs i) (Extractor.all ys j) := by
  rw [Extractor.all_eq_each, Extractor.all_eq_each]
  exact each h

theorem firstOfAfter {xs : List (Extractor σ ι α)} {ys : List (Extractor τ κ β)}
    (h : List.Forall₂ (fun x y => T.Together A (x i) (y j)) xs ys) (last last' : Failure) :
    T.Together A (Extractor.firstOfAfter last xs i) (Extractor.firstOfAfter last' ys j) := by
  induction h generalizing last last' with
  | nil => exact answer trivial
  | cons hx _ ih =>
    rw [Extractor.firstOfAfter_cons, Extractor.firstOfAfter_cons]
    exact hx.bindError fun e e' => ih e e'

theorem firstOf {xs : List (Extractor σ ι α)} {ys : List (Extractor τ κ β)}
    (h : List.Forall₂ (fun x y => T.Together A (x i) (y j)) xs ys) :
    T.Together A (Extractor.firstOf xs i) (Extractor.firstOf ys j) :=
  firstOfAfter h .noAlternative .noAlternative

theorem kept {is : List ι} {js : List κ}
    (h : List.Forall₂ (fun i j => T.Together A (x i) (y j)) is js) :
    T.Together (List.Forall₂ A) (x.kept is) (y.kept js) := by
  induction h with
  | nil => exact answer (A := List.Forall₂ A) .nil
  | cons hx _ ih =>
    rw [Extractor.kept_cons, Extractor.kept_cons]
    refine hx.bind fun r r' hr => ?_
    obtain ⟨e, e', rfl, rfl⟩ | ⟨a, b, rfl, rfl, hab⟩ := hr.cases
    · exact ih
    · exact ih.bindOk fun _ _ habs => answer (A := List.Forall₂ A) (.cons hab habs)

theorem only {R : ι → κ → Prop} {is : List ι} {js : List κ} (h : List.Forall₂ R is js) :
    T.Together R ((Extractor.only : Extractor σ (List ι) ι) is)
      ((Extractor.only : Extractor τ (List κ) κ) js) := by
  cases h with
  | nil => exact answer trivial
  | cons hr hrs =>
    cases hrs with
    | nil => exact answer (A := R) hr
    | cons _ _ => exact answer trivial

end combinators
end Together
end Tandem
end ShaclExtract
