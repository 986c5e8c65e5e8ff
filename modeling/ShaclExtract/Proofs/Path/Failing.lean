import ShaclExtract.Path.Walk

/-!
# ShaclExtract.Proofs.Path.Failing

How a walk can fail. A walk hands on the first failure of a step, and an alternative that of its
last branch, so all failures come from the one place that has a failure of its own: an alternative
without branches (`Path.error_of_walk`).
-/

namespace ShaclExtract

namespace Search

variable {α ε : Type} [DecidableEq α] {step : α → Except ε (List α)} {e : ε}

theorem error_of_tryRun {queue unmet : List α} (h : tryRun step queue unmet = .error e) :
    ∃ y, step y = .error e := by
  fun_induction tryRun step queue unmet with
  | case1 unmet => cases h
  | case2 unmet x queue e' he =>
    cases h
    exact ⟨x, he⟩
  | case3 unmet x queue next hnext found e' he ih =>
    cases h
    exact ih he
  | case4 unmet x queue next hnext found rest hrest ih => cases h

theorem error_of_tryReachBeyond {nodes : List α} {x : α}
    (h : tryReachBeyond step nodes x = .error e) : ∃ y, step y = .error e := by
  unfold tryReachBeyond at h
  split at h
  · rename_i he
    cases h
    exact ⟨x, he⟩
  · obtain ⟨y, hy⟩ := error_of_tryRun h
    split at hy
    · cases hy
    · exact ⟨y, hy⟩

end Search

theorem error_of_gather {α β ε : Type} {f : α → Except ε (List β)} {xs : List α} {e : ε}
    (h : gather f xs = .error e) : ∃ x, f x = .error e := by
  induction xs with
  | nil => cases h
  | cons x xs ih =>
    simp only [gather] at h
    split at h
    · rename_i he
      cases h
      exact ⟨x, he⟩
    · split at h
      · rename_i he
        cases h
        exact ih he
      · cases h

namespace Path

mutual

theorem error_of_follow (g : Graph) : ∀ (p : Path) (d : Direction) (x : Term) {e : Failure},
    follow g p d x = .error e → e = .noAlternative
  | .predicate i, .forward, x, e, h => by cases h
  | .predicate i, .backward, x, e, h => by cases h
  | .inverse p, d, x, e, h => error_of_follow g p d.flip x h
  | .sequence ps, d, x, e, h => error_of_followAll g ps d [x] h
  | .alternative ps, d, x, e, h =>
    error_of_choose g ps d x (fun h => (Except.error.inj h).symm) h
  | .zeroOrMore p, d, x, e, h => by
    obtain ⟨y, hy⟩ := Search.error_of_tryRun h
    exact error_of_follow g p d y hy
  | .oneOrMore p, d, x, e, h => by
    obtain ⟨y, hy⟩ := Search.error_of_tryReachBeyond h
    exact error_of_follow g p d y hy
  | .zeroOrOne p, d, x, e, h => by
    simp only [follow, optional] at h
    split at h
    · cases h
    · rename_i he
      cases h
      exact error_of_follow g p d x he

theorem error_of_followAll (g : Graph) : ∀ (ps : List Path) (d : Direction) (xs : List Term)
    {e : Failure}, followAll g ps d xs = .error e → e = .noAlternative
  | [], d, xs, e, h => by
    simp only [followAll] at h
    cases h
  | p :: ps, .forward, xs, e, h => by
    simp only [followAll] at h
    split at h
    · exact error_of_followAll g ps .forward _ h
    · rename_i he
      cases h
      obtain ⟨x, hx⟩ := error_of_gather he
      exact error_of_follow g p .forward x hx
  | p :: ps, .backward, xs, e, h => by
    simp only [followAll] at h
    split at h
    · obtain ⟨x, hx⟩ := error_of_gather h
      exact error_of_follow g p .backward x hx
    · rename_i he
      cases h
      exact error_of_followAll g ps .backward xs he

theorem error_of_choose (g : Graph) : ∀ (ps : List Path) (d : Direction) (x : Term)
    {best : Except Failure (List Term)}, (∀ {e}, best = .error e → e = .noAlternative) →
      ∀ {e : Failure}, choose g ps d x best = .error e → e = .noAlternative
  | [], d, x, best, hbest, e, h => hbest h
  | p :: ps, d, x, best, hbest, e, h => by
    simp only [choose] at h
    split at h
    · cases h
    · refine error_of_choose g ps d x (fun {e'} he => ?_) h
      unfold prefer at he
      split at he
      · cases he
      · cases he
      · cases he
      · exact error_of_follow g p d x he

end

/-- A walk fails only because there is nothing to choose from. -/
theorem error_of_walk {p : Path} {g : Graph} {x : Term} {e : Failure}
    (h : p.walk g x = .error e) : e = .noAlternative := error_of_follow g p .forward x h

end Path

end ShaclExtract
