import ShaclExtract.Proofs.Extractor.Action
import ShaclExtract.Proofs.Memo.Growth

/-!
# ShaclExtract.Proofs.Extractor.Safety

Actions that never fail, whatever state they are run in (`Safe`). They may not end. There is one
rule for each way to combine extractors; a shared extractor is safe if what it shares is, because
asking for a slot that is there cannot fail.

An alternative that is tried only when a safe one has failed is never tried
(`Safe.bindError_eq`).
-/

namespace ShaclExtract

def Safe {σ ο : Type} (x : Action σ ο) : Prop := ∀ s e s', x s ≠ some (.error e, s')

namespace Safe

variable {σ α β ι ο : Type}

theorem ok (a : ο) : Safe (Action.answer (.ok a) : Action σ ο) := by
  intro s e s' h
  cases h

theorem bindOk {x : Action σ α} {k : α → Action σ ο} (hx : Safe x)
    (hk : ∀ s a s', x s = some (.ok a, s') → Safe (k a)) : Safe (Action.bindOk x k) := by
  intro s e s' h
  obtain ⟨e₁, _, h₁⟩ | ⟨a, s₁, h₁, h⟩ := Action.bindOk_eq_some_iff.1 h
  · exact hx s e₁ s' h₁
  · exact hk s a s₁ h₁ s₁ e s' h

theorem bindError_eq {x : Action σ ο} (hx : Safe x) (k : Failure → Action σ ο) :
    Action.bindError x k = x := by
  funext s
  simp only [Action.bindError, Action.bind]
  cases h : x s with
  | none => rfl
  | some p =>
    obtain ⟨r, s'⟩ := p
    cases r with
    | ok a => rfl
    | error e => exact absurd h (hx s e s')

theorem bindError_left {x : Action σ ο} (hx : Safe x) (k : Failure → Action σ ο) :
    Safe (Action.bindError x k) := by
  rw [hx.bindError_eq]
  exact hx

theorem bindError_right (x : Action σ ο) {k : Failure → Action σ ο} (hk : ∀ e, Safe (k e)) :
    Safe (Action.bindError x k) := by
  intro s e s' h
  obtain ⟨_, ⟨⟩, _⟩ | ⟨e₁, s₁, _, h⟩ := Action.bindError_eq_some_iff.1 h
  exact hk e₁ s₁ e s' h

/-! ## combinators -/

theorem map {x : Extractor σ ι α} {i : ι} (hx : Safe (x i)) (f : α → ο) : Safe (x.map f i) := by
  rw [Extractor.map_apply]
  exact hx.bindOk fun _ a _ _ => ok (f a)

theorem mapError {x : Extractor σ ι ο} {i : ι} (hx : Safe (x i)) (f : Failure → ι → Failure) :
    Safe (x.mapError f i) := by
  rw [Extractor.mapError_apply]
  exact hx.bindError_left _

theorem cons {x : Action σ ο} {xs : Action σ (List ο)} (hx : Safe x) (hxs : Safe xs) :
    Safe (Action.bindOk x fun a => Action.bindOk xs fun as => Action.answer (.ok (a :: as))) :=
  hx.bindOk fun _ a _ _ => hxs.bindOk fun _ as _ _ => ok (a :: as)

theorem each {x : Extractor σ ι ο} {is : List ι} (hx : ∀ i ∈ is, Safe (x i)) :
    Safe (x.each is) := by
  induction is with
  | nil => exact ok []
  | cons i is ih =>
    rw [Extractor.each_cons]
    exact cons (hx i List.mem_cons_self) (ih fun i hi => hx i (.tail _ hi))

theorem all {l : List β} {x : β → Extractor σ ι ο} {i : ι} (hx : ∀ b ∈ l, Safe (x b i)) :
    Safe (Extractor.all (l.map x) i) := by
  rw [Extractor.all_map]
  exact each hx

theorem firstOfAfter {l : List β} {x : β → Extractor σ ι ο} {i : ι} {b : β} (hb : b ∈ l)
    (hx : Safe (x b i)) (last : Failure) : Safe (Extractor.firstOfAfter last (l.map x) i) := by
  induction l generalizing last with
  | nil => cases hb
  | cons c l ih =>
    rw [List.map_cons, Extractor.firstOfAfter_cons]
    rcases List.mem_cons.1 hb with rfl | hb
    · exact hx.bindError_left _
    · exact bindError_right _ fun e => ih hb e

theorem shared {id : ExtractorId} {x : Extractor RunState View Value} {view : View}
    (hx : Safe (x view)) : Safe (Memo.shared id x view) := by
  intro s e s' h
  obtain ⟨slot, _, hr, _⟩ | ⟨_, r, s₁, hrun, ⟨v, _, hr, _⟩ | ⟨e₁, rfl, _, _⟩⟩ :=
    Memo.shared_cases h
  · cases hr
  · cases hr
  · exact hx _ e₁ s₁ hrun

end Safe
end ShaclExtract
