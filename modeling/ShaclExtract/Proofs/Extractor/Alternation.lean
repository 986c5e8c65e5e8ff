import ShaclExtract.Proofs.Extractor.Action

/-!
# ShaclExtract.Proofs.Extractor.Alternation

Alternatives tried in turn. What is run next depends on the last failure only through what is
answered when nothing is left, so alternatives of alternatives are alternatives in a row
(`Extractor.firstOf_firstOf`), and it does not matter how a list of them was put together.

Alternatives that are taken only if their output has elements go on with all that was preferred so
far. Preferring is associative, so a group can start anew and its answer be preferred afterwards
(`Extractor.firstNonemptyAfter_prefer`). A group must not be empty, where it is not the first one:
without alternatives there is a failure of its own, which would replace the failures before.
-/

namespace ShaclExtract

/-! ## preferred answers -/

section prefer

variable {α ε : Type} {best r : Except ε (List α)}

/-- A failure, or a list without elements. -/
def Barren (r : Except ε (List α)) : Prop := ∀ x xs, r ≠ .ok (x :: xs)

theorem barren_error (e : ε) : Barren (.error e : Except ε (List α)) := by
  intro x xs h
  cases h

theorem barren_nil : Barren (.ok [] : Except ε (List α)) := by
  intro x xs h
  cases h

theorem Barren.preferred (hbest : Barren best) (hr : Barren r) : Barren (prefer best r) := by
  rcases best with e | _ | ⟨x, xs⟩
  · exact hr
  · rcases r with e | _ | ⟨y, ys⟩
    · exact barren_nil
    · exact barren_nil
    · exact absurd rfl (hr y ys)
  · exact absurd rfl (hbest x xs)

theorem Barren.prefer_cons (hbest : Barren best) (x : α) (xs : List α) :
    prefer best (.ok (x :: xs)) = .ok (x :: xs) := by
  rcases best with e | _ | ⟨y, ys⟩
  · rfl
  · rfl
  · exact absurd rfl (hbest y ys)

theorem prefer_assoc (a b c : Except ε (List α)) :
    prefer (prefer a b) c = prefer a (prefer b c) := by
  rcases a with _ | _ | _ <;> rcases b with _ | _ | _ <;> rcases c with _ | _ | _ <;> rfl

end prefer

namespace Action

variable {σ ο : Type}

/-- Goes on with an answer without elements; an output with elements is the answer. -/
def bindBarren (a : Action σ (List ο)) (k : Except Failure (List ο) → Action σ (List ο)) :
    Action σ (List ο) :=
  bind a fun r =>
    match r with
    | .ok (x :: xs) => answer (.ok (x :: xs))
    | r => k r

theorem bindBarren_congr {a : Action σ (List ο)} {k l : Except Failure (List ο) → Action σ (List ο)}
    (h : ∀ r, Barren r → k r = l r) : bindBarren a k = bindBarren a l := by
  funext s
  simp only [bindBarren, bind]
  rcases a s with _ | ⟨e | _ | ⟨x, xs⟩, s₁⟩
  · rfl
  · exact congrFun (h _ (barren_error e)) s₁
  · exact congrFun (h _ barren_nil) s₁
  · rfl

theorem bindError_assoc (x : Action σ ο) (k l : Failure → Action σ ο) :
    bindError (bindError x k) l = bindError x fun e => bindError (k e) l := by
  funext s
  simp only [bindError, bind]
  rcases x s with _ | ⟨_ | _, _⟩ <;> rfl

theorem bindError_error (x : Action σ ο) : bindError x (fun e => answer (.error e)) = x := by
  funext s
  simp only [bindError, bind]
  rcases x s with _ | ⟨_ | _, _⟩ <;> rfl

end Action

namespace Extractor

variable {σ ι ο : Type}

theorem firstOfAfter_append (last : Failure) (xs ys : List (Extractor σ ι ο)) (i : ι) :
    firstOfAfter last (xs ++ ys) i =
      Action.bindError (firstOfAfter last xs i) fun e => firstOfAfter e ys i := by
  induction xs generalizing last with
  | nil => rfl
  | cons x xs ih =>
    rw [List.cons_append, firstOfAfter_cons, firstOfAfter_cons, Action.bindError_assoc]
    simp only [ih]

theorem error_of_firstOf_append {xs : List (Extractor σ ι ο)} {x : Extractor σ ι ο} {i : ι}
    {s s' : σ} {e : Failure} (h : firstOf (xs ++ [x]) i s = some (.error e, s')) :
    ∃ s₁, x i s₁ = some (.error e, s') := by
  rw [firstOf, firstOfAfter_append] at h
  obtain ⟨_, ⟨⟩, _⟩ | ⟨e₁, s₁, _, h⟩ := Action.bindError_eq_some_iff.1 h
  rw [firstOfAfter_cons] at h
  obtain ⟨_, ⟨⟩, _⟩ | ⟨e₂, s₂, hx, h⟩ := Action.bindError_eq_some_iff.1 h
  cases h
  exact ⟨s₁, hx⟩

theorem firstOf_firstOf (xs ys : List (Extractor σ ι ο)) :
    firstOf (firstOf xs :: ys) = firstOf (xs ++ ys) := by
  funext i
  simp only [firstOf]
  rw [firstOfAfter_append, firstOfAfter_cons]

theorem firstOf_singleton (x : Extractor σ ι ο) : firstOf [x] = x := by
  funext i
  simp only [firstOf, firstOfAfter_cons, firstOfAfter_nil]
  exact Action.bindError_error (x i)

theorem firstOf_orElse (x y : Extractor σ ι ο) (xs : List (Extractor σ ι ο)) :
    firstOf (x.orElse y :: xs) = firstOf (x :: y :: xs) := firstOf_firstOf [x, y] xs

theorem firstOfAfter_eq_firstOf (last : Failure) (x : Extractor σ ι ο)
    (xs : List (Extractor σ ι ο)) : firstOfAfter last (x :: xs) = firstOf (x :: xs) := by
  funext i
  rw [firstOf, firstOfAfter_cons, firstOfAfter_cons]

theorem firstOf_append_firstOf (xs : List (Extractor σ ι ο)) (y : Extractor σ ι ο)
    (ys : List (Extractor σ ι ο)) :
    firstOf (xs ++ [firstOf (y :: ys)]) = firstOf (xs ++ y :: ys) := by
  funext i
  have hgroup : ∀ e, firstOfAfter e [firstOf (y :: ys)] = firstOfAfter e (y :: ys) := fun e => by
    rw [firstOfAfter_eq_firstOf, firstOf_singleton, firstOfAfter_eq_firstOf]
  simp only [firstOf, firstOfAfter_append] at hgroup ⊢
  simp only [hgroup]

/-! ## alternatives with elements -/

variable {best : Except Failure (List ο)}

theorem firstNonemptyAfter_cons (best : Except Failure (List ο)) (x : Extractor σ ι (List ο))
    (xs : List (Extractor σ ι (List ο))) (i : ι) :
    firstNonemptyAfter best (x :: xs) i =
      Action.bindBarren (x i) fun r => firstNonemptyAfter (prefer best r) xs i := by
  funext s
  simp only [firstNonemptyAfter, Action.bindBarren, Action.bind]
  rcases x i s with _ | ⟨_ | _ | _, _⟩ <;> rfl

/-- What was found before can as well be preferred afterwards. -/
theorem firstNonemptyAfter_prefer (hbest : Barren best) (r : Except Failure (List ο))
    (xs : List (Extractor σ ι (List ο))) (i : ι) :
    firstNonemptyAfter (prefer best r) xs i =
      Action.bind (firstNonemptyAfter r xs i) fun r => Action.answer (prefer best r) := by
  induction xs generalizing r with
  | nil => rfl
  | cons x xs ih =>
    funext s
    simp only [firstNonemptyAfter_cons, Action.bindBarren, Action.bind, prefer_assoc, ih]
    rcases x i s with _ | ⟨_ | _ | ⟨a, as⟩, s₁⟩
    · rfl
    · rfl
    · rfl
    · simp only [Action.answer, hbest.prefer_cons]

theorem firstNonemptyAfter_append (hbest : Barren best) (xs ys : List (Extractor σ ι (List ο)))
    (i : ι) :
    firstNonemptyAfter best (xs ++ ys) i =
      Action.bindBarren (firstNonemptyAfter best xs i) fun r => firstNonemptyAfter r ys i := by
  funext s
  induction xs generalizing best s with
  | nil =>
    simp only [List.nil_append, firstNonemptyAfter, Action.bindBarren, Action.bind]
    rcases best with e | _ | ⟨a, as⟩
    · rfl
    · rfl
    · exact absurd rfl (hbest a as)
  | cons x xs ih =>
    rw [List.cons_append, firstNonemptyAfter_cons, firstNonemptyAfter_cons]
    simp only [Action.bindBarren, Action.bind] at ih ⊢
    rcases x i s with _ | ⟨e | _ | ⟨a, as⟩, s₁⟩
    · rfl
    · exact ih (hbest.preferred (barren_error e)) s₁
    · exact ih (hbest.preferred barren_nil) s₁
    · rfl

theorem firstNonempty_firstNonempty (xs ys : List (Extractor σ ι (List ο))) :
    firstNonempty (firstNonempty xs :: ys) = firstNonempty (xs ++ ys) := by
  funext i
  simp only [firstNonempty]
  rw [firstNonemptyAfter_append (barren_error _), firstNonemptyAfter_cons]
  rfl

theorem firstNonempty_singleton (x : Extractor σ ι (List ο)) : firstNonempty [x] = x := by
  funext i s
  simp only [firstNonempty, firstNonemptyAfter_cons, Action.bindBarren, Action.bind]
  rcases x i s with _ | ⟨_ | _ | _, _⟩ <;> rfl

theorem firstNonemptyAfter_eq (hbest : Barren best) (x : Extractor σ ι (List ο))
    (xs : List (Extractor σ ι (List ο))) (i : ι) :
    firstNonemptyAfter best (x :: xs) i =
      Action.bind (firstNonempty (x :: xs) i) fun r => Action.answer (prefer best r) := by
  funext s
  simp only [firstNonempty, firstNonemptyAfter_cons, Action.bindBarren, Action.bind]
  rcases x i s with _ | ⟨e | _ | ⟨a, as⟩, s₁⟩
  · rfl
  · exact congrFun (firstNonemptyAfter_prefer hbest (.error e) xs i) s₁
  · exact congrFun (firstNonemptyAfter_prefer hbest (.ok []) xs i) s₁
  · simp only [Action.answer, hbest.prefer_cons]

theorem firstNonempty_append_firstNonempty (xs : List (Extractor σ ι (List ο)))
    (y : Extractor σ ι (List ο)) (ys : List (Extractor σ ι (List ο))) :
    firstNonempty (xs ++ [firstNonempty (y :: ys)]) = firstNonempty (xs ++ y :: ys) := by
  funext i
  simp only [firstNonempty, firstNonemptyAfter_append (barren_error _)]
  refine Action.bindBarren_congr fun r hr => ?_
  have hgroup := firstNonemptyAfter_eq hr (firstNonempty (y :: ys)) [] i
  rw [firstNonempty_singleton] at hgroup
  exact hgroup.trans (firstNonemptyAfter_eq hr y ys i).symm

end Extractor
end ShaclExtract
