import ShaclExtract.Extractor

/-!
# ShaclExtract.Proofs.Extractor.Action

An extractor applied to an input is an action on the state. All combinators are made of two things:
actions that answer at once, and `Action.bind`, which goes on with the result of an action. The
equations here unfold each combinator into them, so that a law about answering and going on is a law
about all extractors. One such law is what an answer comes from (`Action.bindOk_eq_some_iff`,
`Action.bindError_eq_some_iff`).

An extractor that is run on one input after the other hands the state on (`Extractor.Runs`), and
several extractors that are run on one input do the same (`Extractor.all_eq_each`).
-/

namespace ShaclExtract

abbrev Action (σ ο : Type) := σ → Option (Except Failure ο × σ)

namespace Action

variable {σ α β ο : Type}

def answer (r : Except Failure ο) : Action σ ο := fun s => some (r, s)

/-- Goes on with the result, be it an output or a failure. -/
def bind (a : Action σ α) (k : Except Failure α → Action σ ο) : Action σ ο := fun s =>
  match a s with
  | none => none
  | some (r, s) => k r s

/-- Goes on with the output; a failure is the answer. -/
def bindOk (a : Action σ α) (k : α → Action σ ο) : Action σ ο :=
  bind a fun r =>
    match r with
    | .ok x => k x
    | .error e => answer (.error e)

/-- Goes on with the failure; an output is the answer. -/
def bindError (a : Action σ ο) (k : Failure → Action σ ο) : Action σ ο :=
  bind a fun r =>
    match r with
    | .ok x => answer (.ok x)
    | .error e => k e

@[simp] theorem bindOk_ok (x : α) (k : α → Action σ ο) : bindOk (answer (.ok x)) k = k x := rfl

@[simp] theorem bindOk_error (e : Failure) (k : α → Action σ ο) :
    bindOk (answer (.error e)) k = answer (.error e) := rfl

theorem bind_eq_some_iff {a : Action σ α} {k : Except Failure α → Action σ ο} {s s' : σ}
    {r : Except Failure ο} : bind a k s = some (r, s') ↔
      ∃ r₁ s₁, a s = some (r₁, s₁) ∧ k r₁ s₁ = some (r, s') := by
  unfold bind
  rcases a s with _ | ⟨r₁, s₁⟩
  · simp
  · constructor
    · exact fun h => ⟨r₁, s₁, rfl, h⟩
    · rintro ⟨r₂, s₂, ⟨⟩, h⟩
      exact h

theorem bindOk_eq_some_iff {a : Action σ α} {k : α → Action σ ο} {s s' : σ}
    {r : Except Failure ο} : bindOk a k s = some (r, s') ↔
      (∃ e, r = .error e ∧ a s = some (.error e, s')) ∨
        ∃ x s₁, a s = some (.ok x, s₁) ∧ k x s₁ = some (r, s') := by
  rw [bindOk, bind_eq_some_iff]
  constructor
  · rintro ⟨e | x, s₁, ha, hk⟩
    · cases hk
      exact .inl ⟨e, rfl, ha⟩
    · exact .inr ⟨x, s₁, ha, hk⟩
  · rintro (⟨e, rfl, ha⟩ | ⟨x, s₁, ha, hk⟩)
    · exact ⟨.error e, s', ha, rfl⟩
    · exact ⟨.ok x, s₁, ha, hk⟩

theorem bindError_eq_some_iff {a : Action σ ο} {k : Failure → Action σ ο} {s s' : σ}
    {r : Except Failure ο} : bindError a k s = some (r, s') ↔
      (∃ o, r = .ok o ∧ a s = some (.ok o, s')) ∨
        ∃ e s₁, a s = some (.error e, s₁) ∧ k e s₁ = some (r, s') := by
  rw [bindError, bind_eq_some_iff]
  constructor
  · rintro ⟨e | o, s₁, ha, hk⟩
    · exact .inr ⟨e, s₁, ha, hk⟩
    · cases hk
      exact .inl ⟨o, rfl, ha⟩
  · rintro (⟨o, rfl, ha⟩ | ⟨e, s₁, ha, hk⟩)
    · exact ⟨.ok o, s', ha, rfl⟩
    · exact ⟨.error e, s₁, ha, hk⟩

theorem ok_of_bindOk {a : Action σ α} {k : α → Action σ ο} {s s' : σ} {o : ο}
    (h : bindOk a k s = some (.ok o, s')) :
    ∃ x s₁, a s = some (.ok x, s₁) ∧ k x s₁ = some (.ok o, s') := by
  obtain ⟨e, he, _⟩ | hok := bindOk_eq_some_iff.1 h
  · cases he
  · exact hok

theorem ok_of_bindError {a : Action σ ο} {k : Failure → Action σ ο} {s s' : σ} {o : ο}
    (h : bindError a k s = some (.ok o, s')) :
    a s = some (.ok o, s') ∨ ∃ e s₁, a s = some (.error e, s₁) ∧ k e s₁ = some (.ok o, s') := by
  obtain ⟨o', ho, ha⟩ | herr := bindError_eq_some_iff.1 h
  · cases ho
    exact .inl ha
  · exact .inr herr

end Action

namespace Extractor

variable {σ ι ο α β : Type}

theorem ofExcept_apply (f : ι → Except Failure ο) (i : ι) :
    (ofExcept f : Extractor σ ι ο) i = Action.answer (f i) := rfl

theorem andThen_apply (x : Extractor σ ι α) (y : Extractor σ α ο) (i : ι) :
    x.andThen y i = Action.bindOk (x i) y := by
  funext s
  simp only [andThen, Action.bindOk, Action.bind]
  rcases x i s with _ | ⟨_ | _, _⟩ <;> rfl

theorem andThen_assoc (x : Extractor σ ι α) (y : Extractor σ α β) (z : Extractor σ β ο) :
    (x.andThen y).andThen z = x.andThen (y.andThen z) := by
  funext i s
  simp only [andThen]
  rcases x i s with _ | ⟨_ | _, _⟩ <;> rfl

theorem map_apply (x : Extractor σ ι α) (f : α → ο) (i : ι) :
    x.map f i = Action.bindOk (x i) fun a => Action.answer (.ok (f a)) := by
  funext s
  simp only [map, Action.bindOk, Action.bind]
  rcases x i s with _ | ⟨_ | _, _⟩ <;> rfl

theorem mapError_apply (x : Extractor σ ι ο) (f : Failure → ι → Failure) (i : ι) :
    x.mapError f i = Action.bindError (x i) fun e => Action.answer (.error (f e i)) := by
  funext s
  simp only [mapError, Action.bindError, Action.bind]
  rcases x i s with _ | ⟨_ | _, _⟩ <;> rfl

theorem firstOfAfter_nil (last : Failure) (i : ι) :
    firstOfAfter last ([] : List (Extractor σ ι ο)) i = Action.answer (.error last) := rfl

theorem firstOfAfter_cons (last : Failure) (x : Extractor σ ι ο) (xs : List (Extractor σ ι ο))
    (i : ι) :
    firstOfAfter last (x :: xs) i = Action.bindError (x i) fun e => firstOfAfter e xs i := by
  funext s
  simp only [firstOfAfter, Action.bindError, Action.bind]
  rcases x i s with _ | ⟨_ | _, _⟩ <;> rfl

theorem orElse_const (x : Extractor σ ι ο) (default : ο) (i : ι) :
    x.orElse (.const default) i = Action.bindError (x i) fun _ => Action.answer (.ok default) := by
  rw [orElse, firstOf, firstOfAfter_cons]
  rfl

theorem map_eq_some_iff {x : Extractor σ ι α} {f : α → ο} {i : ι} {s s' : σ}
    {r : Except Failure ο} : x.map f i s = some (r, s') ↔
      (∃ e, r = .error e ∧ x i s = some (.error e, s')) ∨
        ∃ a, r = .ok (f a) ∧ x i s = some (.ok a, s') := by
  rw [map_apply, Action.bindOk_eq_some_iff]
  refine or_congr_right ⟨?_, ?_⟩
  · rintro ⟨a, s₁, ha, ⟨⟩⟩
    exact ⟨a, rfl, ha⟩
  · rintro ⟨a, rfl, ha⟩
    exact ⟨a, s', ha, rfl⟩

theorem mapError_eq_some_iff {x : Extractor σ ι ο} {f : Failure → ι → Failure} {i : ι} {s s' : σ}
    {r : Except Failure ο} : x.mapError f i s = some (r, s') ↔
      (∃ o, r = .ok o ∧ x i s = some (.ok o, s')) ∨
        ∃ e, r = .error (f e i) ∧ x i s = some (.error e, s') := by
  rw [mapError_apply, Action.bindError_eq_some_iff]
  refine or_congr_right ⟨?_, ?_⟩
  · rintro ⟨e, s₁, he, ⟨⟩⟩
    exact ⟨e, rfl, he⟩
  · rintro ⟨e, rfl, he⟩
    exact ⟨e, s', he, rfl⟩

theorem ok_of_map {x : Extractor σ ι α} {f : α → ο} {i : ι} {s s' : σ} {o : ο}
    (h : x.map f i s = some (.ok o, s')) : ∃ a, x i s = some (.ok a, s') ∧ o = f a := by
  obtain ⟨_, ⟨⟩, _⟩ | ⟨a, ⟨⟩, ha⟩ := map_eq_some_iff.1 h
  exact ⟨a, ha, rfl⟩

theorem all_cons (x : Extractor σ ι ο) (xs : List (Extractor σ ι ο)) (i : ι) :
    all (x :: xs) i =
      Action.bindOk (x i) fun a => Action.bindOk (all xs i) fun as =>
        Action.answer (.ok (a :: as)) := by
  funext s
  simp only [all, Action.bindOk, Action.bind]
  rcases x i s with _ | ⟨_ | _, s₁⟩
  · rfl
  · rfl
  · simp only [Action.bind]
    rcases all xs i s₁ with _ | ⟨_ | _, _⟩ <;> rfl

theorem each_cons (x : Extractor σ ι ο) (i : ι) (is : List ι) :
    x.each (i :: is) =
      Action.bindOk (x i) fun a => Action.bindOk (x.each is) fun as =>
        Action.answer (.ok (a :: as)) := by
  funext s
  simp only [each, Action.bindOk, Action.bind]
  rcases x i s with _ | ⟨_ | _, s₁⟩
  · rfl
  · rfl
  · simp only [Action.bind]
    rcases x.each is s₁ with _ | ⟨_ | _, _⟩ <;> rfl

theorem kept_cons (x : Extractor σ ι ο) (i : ι) (is : List ι) :
    x.kept (i :: is) =
      Action.bind (x i) fun r =>
        match r with
        | .ok a => Action.bindOk (x.kept is) fun as => Action.answer (.ok (a :: as))
        | .error _ => x.kept is := by
  funext s
  simp only [kept, Action.bindOk, Action.bind]
  rcases x i s with _ | ⟨_ | _, s₁⟩
  · rfl
  · rfl
  · simp only [Action.bind]
    rcases x.kept is s₁ with _ | ⟨_ | _, _⟩ <;> rfl

theorem only_singleton (i : ι) : (only : Extractor σ (List ι) ι) [i] = Action.answer (.ok i) := rfl

theorem only_of_length_ne {is : List ι} (h : is.length ≠ 1) :
    (only : Extractor σ (List ι) ι) is =
      Action.answer (.error (.requiredValueMissing is.length)) := by
  match is with
  | [] => rfl
  | [i] => exact absurd rfl h
  | i :: j :: is => rfl

/-! ## one input after the other -/

variable {κ : Type} {x : Extractor σ ι ο} {s s' : σ}

/-- The extractor puts out the outputs for the inputs, one after the other. -/
inductive Runs (x : Extractor σ ι ο) : List ι → σ → List ο → σ → Prop
  | nil (s : σ) : Runs x [] s [] s
  | cons {i : ι} {is : List ι} {o : ο} {os : List ο} {s s₁ s' : σ} :
    x i s = some (.ok o, s₁) → Runs x is s₁ os s' → Runs x (i :: is) s (o :: os) s'

theorem Runs.length_eq {is : List ι} {os : List ο} (h : x.Runs is s os s') :
    os.length = is.length := by
  induction h with
  | nil s => rfl
  | cons _ _ ih => rw [List.length_cons, List.length_cons, ih]

theorem each_eq_ok_iff {is : List ι} {os : List ο} :
    x.each is s = some (.ok os, s') ↔ x.Runs is s os s' := by
  induction is generalizing os s with
  | nil =>
    constructor
    · intro h
      cases h
      exact .nil _
    · rintro ⟨⟩
      rfl
  | cons i is ih =>
    rw [each_cons]
    constructor
    · intro h
      obtain ⟨o, s₁, ho, h⟩ := Action.ok_of_bindOk h
      obtain ⟨rest, s₂, hrest, h⟩ := Action.ok_of_bindOk h
      cases h
      exact .cons ho (ih.1 hrest)
    · rintro (_ | ⟨ho, hrest⟩)
      exact Action.bindOk_eq_some_iff.2 (.inr ⟨_, _, ho,
        Action.bindOk_eq_some_iff.2 (.inr ⟨_, _, ih.2 hrest, rfl⟩)⟩)

theorem length_each {is : List ι} {os : List ο} (h : x.each is s = some (.ok os, s')) :
    os.length = is.length := (each_eq_ok_iff.1 h).length_eq

/-- A failure is that of the first input with one. The inputs behind it are not looked at. -/
theorem each_eq_error_iff {is : List ι} {e : Failure} :
    x.each is s = some (.error e, s') ↔ ∃ before i after os s₁, is = before ++ i :: after ∧
      x.Runs before s os s₁ ∧ x i s₁ = some (.error e, s') := by
  induction is generalizing s with
  | nil => simp [each]
  | cons j is ih =>
    rw [each_cons]
    constructor
    · intro h
      obtain ⟨_, ⟨⟩, he⟩ | ⟨o, s₁, ho, h⟩ := Action.bindOk_eq_some_iff.1 h
      · exact ⟨[], j, is, [], s, rfl, .nil s, he⟩
      obtain ⟨_, ⟨⟩, hrest⟩ | ⟨rest, s₂, hrest, h⟩ := Action.bindOk_eq_some_iff.1 h
      · obtain ⟨before, i, after, os, s₂, rfl, hbefore, he⟩ := ih.1 hrest
        exact ⟨j :: before, i, after, o :: os, s₂, rfl, .cons ho hbefore, he⟩
      · cases h
    · rintro ⟨_ | ⟨k, before⟩, i, after, os, s₁, his, hruns, he⟩
      · cases his
        cases hruns
        exact Action.bindOk_eq_some_iff.2 (.inl ⟨e, rfl, he⟩)
      · cases his
        obtain _ | ⟨ho, hrest⟩ := hruns
        have his := ih.2 ⟨before, i, after, _, s₁, rfl, hrest, he⟩
        exact Action.bindOk_eq_some_iff.2 (.inr ⟨_, _, ho,
          Action.bindOk_eq_some_iff.2 (.inl ⟨e, rfl, his⟩)⟩)

/-- It does not end at the first input where it does not end. -/
theorem each_eq_none_iff {is : List ι} :
    x.each is s = none ↔ ∃ before i after os s₁, is = before ++ i :: after ∧
      x.Runs before s os s₁ ∧ x i s₁ = none := by
  induction is generalizing s with
  | nil => simp [each]
  | cons j is ih =>
    constructor
    · intro h
      unfold each at h
      split at h
      · rename_i hnone
        exact ⟨[], j, is, [], s, rfl, .nil s, hnone⟩
      · cases h
      · rename_i o s₁ ho
        split at h
        · rename_i hrest
          obtain ⟨before, i, after, os, s₂, rfl, hbefore, hnone⟩ := ih.1 hrest
          exact ⟨j :: before, i, after, o :: os, s₂, rfl, .cons ho hbefore, hnone⟩
        · cases h
        · cases h
    · rintro ⟨_ | ⟨k, before⟩, i, after, os, s₁, his, hruns, hnone⟩
      · cases his
        cases hruns
        simp only [each, hnone]
      · cases his
        obtain _ | ⟨ho, hrest⟩ := hruns
        simp only [each, ho, ih.2 ⟨before, i, after, _, s₁, rfl, hrest, hnone⟩]

/-- Extractors that agree on states of a kind, and stay among them, agree on several inputs. -/
theorem each_congr_of_invariant {y : Extractor σ ι ο} {I : σ → Prop}
    (hsame : ∀ i s, I s → x i s = y i s)
    (hstay : ∀ i s o s', I s → x i s = some (.ok o, s') → I s') (is : List ι) (hs : I s) :
    x.each is s = y.each is s := by
  induction is generalizing s with
  | nil => rfl
  | cons i is ih =>
    rcases hx : x i s with _ | ⟨e | o, s₁⟩
    · simp only [each, hx, (hsame i s hs).symm.trans hx]
    · simp only [each, hx, (hsame i s hs).symm.trans hx]
    · simp only [each, hx, (hsame i s hs).symm.trans hx, ih (hstay i s o s₁ hs hx)]

theorem each_map (x : Extractor σ ι ο) (f : κ → ι) (ks : List κ) :
    x.each (ks.map f) = Extractor.each (fun k => x (f k)) ks := by
  induction ks with
  | nil => rfl
  | cons k ks ih => rw [List.map_cons, each_cons, each_cons, ih]

theorem all_eq_each (xs : List (Extractor σ ι ο)) (i : ι) :
    all xs i = Extractor.each (fun (x : Extractor σ ι ο) => x i) xs := by
  induction xs with
  | nil => rfl
  | cons x xs ih => rw [all_cons, each_cons, ih]

theorem all_map (x : κ → Extractor σ ι ο) (ks : List κ) (i : ι) :
    all (ks.map x) i = Extractor.each (fun k => x k i) ks := by
  rw [all_eq_each, each_map]

end Extractor
end ShaclExtract
