import ShaclExtract.Path.Walk
import ShaclExtract.Proofs.Search.BreadthFirst

/-!
# ShaclExtract.Proofs.Path.Bounds

Where a walk can lead: every hop is the start or a node of the graph, and so is every focus that is
met from a view by walking again and again (`View.Near`).
-/

namespace ShaclExtract

namespace Path

/-- The nodes that a walk from `x` can reach. -/
def Within (g : Graph) (x y : Term) : Prop := y = x ∨ y ∈ g.terms

theorem within_of_mem_cons {g : Graph} {x y : Term} (h : y ∈ x :: g.terms) : Within g x y :=
  List.mem_cons.1 h

theorem gather_within {g : Graph} {f : Term → Except Failure (List Term)}
    (hf : ∀ x ys, f x = .ok ys → ∀ y ∈ ys, Within g x y) {start : Term} {xs ys : List Term}
    (hxs : ∀ x ∈ xs, Within g start x) (h : gather f xs = .ok ys) :
    ∀ y ∈ ys, Within g start y := by
  induction xs generalizing ys with
  | nil => cases h; simp
  | cons x xs ih =>
    simp only [gather] at h
    split at h
    · cases h
    · rename_i zs hzs
      split at h
      · cases h
      · rename_i ws hws
        cases h
        intro y hy
        rcases List.mem_append.1 hy with hy | hy
        · rcases hf x zs hzs y hy with rfl | hy
          · exact hxs _ List.mem_cons_self
          · exact .inr hy
        · exact ih (fun x hx => hxs x (List.mem_cons_of_mem _ hx)) hws y hy

theorem closure_within {g : Graph} {step : Term → Except Failure (List Term)} {x : Term}
    {ys : List Term} (h : closure step g x = .ok ys) : ∀ y ∈ ys, Within g x y := by
  obtain ⟨rfl, -⟩ := Search.tryReach_eq_ok_iff.1 h
  exact fun y hy => Search.eq_or_mem_of_mem_reach hy

theorem closureBeyond_within {g : Graph} {step : Term → Except Failure (List Term)} {x : Term}
    {ys : List Term} (h : closureBeyond step g x = .ok ys) : ∀ y ∈ ys, Within g x y := by
  obtain ⟨rfl, -⟩ := Search.tryReachBeyond_eq_ok_iff.1 h
  exact fun y hy => within_of_mem_cons (Search.mem_unmet_of_mem_run hy)

theorem optional_within {g : Graph} {step : Term → Except Failure (List Term)} {x : Term}
    (hstep : ∀ ys, step x = .ok ys → ∀ y ∈ ys, Within g x y) {ys : List Term}
    (h : optional step x = .ok ys) : ∀ y ∈ ys, Within g x y := by
  intro y hy
  simp only [optional] at h
  split at h
  · rename_i hops hhops
    cases h
    rcases List.mem_cons.1 hy with rfl | hy
    · exact .inl rfl
    · exact hstep hops hhops y (List.mem_filter.1 hy).1
  · cases h

theorem forall_of_prefer {P : Term → Prop} {best r : Except Failure (List Term)}
    (hbest : ∀ ys, best = .ok ys → ∀ y ∈ ys, P y) (hr : ∀ ys, r = .ok ys → ∀ y ∈ ys, P y) :
    ∀ ys, prefer best r = .ok ys → ∀ y ∈ ys, P y := by
  intro ys h
  unfold prefer at h
  split at h
  · exact hbest ys h
  · cases h; simp
  · exact hr ys h
  · exact hr ys h

mutual

theorem follow_within (g : Graph) : ∀ (p : Path) (d : Direction) (x : Term) (ys : List Term),
    follow g p d x = .ok ys → ∀ y ∈ ys, Within g x y
  | .predicate i, .forward, x, ys, h => by
    cases h
    intro y hy
    obtain ⟨q, hq, _, _, rfl⟩ := Graph.mem_objects.1 hy
    exact .inr (Graph.object_mem_terms hq)
  | .predicate i, .backward, x, ys, h => by
    cases h
    intro y hy
    obtain ⟨q, hq, rfl, _, _⟩ := Graph.mem_subjects.1 hy
    exact .inr (Graph.subject_mem_terms hq)
  | .inverse p, d, x, ys, h => follow_within g p d.flip x ys h
  | .sequence ps, d, x, ys, h =>
    followAll_within g ps d x [x] (by simp [Within]) ys h
  | .alternative ps, d, x, ys, h =>
    choose_within g ps d x (.error .noAlternative) (by simp) ys h
  | .zeroOrMore p, d, x, ys, h => closure_within h
  | .oneOrMore p, d, x, ys, h => closureBeyond_within h
  | .zeroOrOne p, d, x, ys, h => optional_within (fun ys h => follow_within g p d x ys h) h

theorem followAll_within (g : Graph) : ∀ (ps : List Path) (d : Direction) (x : Term)
    (xs : List Term), (∀ y ∈ xs, Within g x y) → ∀ ys, followAll g ps d xs = .ok ys →
      ∀ y ∈ ys, Within g x y
  | [], d, x, xs, hxs, ys, h => by
    simp only [followAll] at h
    cases h
    exact hxs
  | p :: ps, .forward, x, xs, hxs, ys, h => by
    simp only [followAll] at h
    split at h
    · rename_i zs hzs
      exact followAll_within g ps .forward x zs
        (gather_within (fun x ys h => follow_within g p .forward x ys h) hxs hzs) ys h
    · cases h
  | p :: ps, .backward, x, xs, hxs, ys, h => by
    simp only [followAll] at h
    split at h
    · rename_i zs hzs
      exact gather_within (fun x ys h => follow_within g p .backward x ys h)
        (followAll_within g ps .backward x xs hxs zs hzs) h
    · cases h

theorem choose_within (g : Graph) : ∀ (ps : List Path) (d : Direction) (x : Term)
    (best : Except Failure (List Term)), (∀ ys, best = .ok ys → ∀ y ∈ ys, Within g x y) →
      ∀ ys, choose g ps d x best = .ok ys → ∀ y ∈ ys, Within g x y
  | [], d, x, best, hbest, ys, h => hbest ys h
  | p :: ps, d, x, best, hbest, ys, h => by
    simp only [choose] at h
    split at h
    · rename_i z zs hz
      exact follow_within g p d x ys (hz.trans h)
    · exact choose_within g ps d x _
        (forall_of_prefer hbest fun ys h => follow_within g p d x ys h) ys h

end

theorem walk_within {g : Graph} {p : Path} {x : Term} {ys : List Term}
    (h : p.walk g x = .ok ys) : ∀ y ∈ ys, Within g x y := follow_within g p .forward x ys h

theorem within_of_mem_follow (g : Graph) (p : Path) (d : Direction) :
    ∀ a, ∀ b ∈ Search.answered (follow g p d a), b = a ∨ b ∈ g.terms := by
  intro a b hb
  obtain ⟨hops, hhops, hb⟩ := Search.mem_answered.1 hb
  exact follow_within g p d a hops hhops b hb

theorem within_cons_of_mem_follow (g : Graph) (p : Path) (d : Direction) (x : Term) :
    ∀ a, ∀ b ∈ Search.answered (follow g p d a), b = a ∨ b ∈ x :: g.terms :=
  fun a b hb => (within_of_mem_follow g p d a b hb).imp id (List.mem_cons_of_mem x)

end Path

/-! ## views -/

/-- The other view is from the same focus or from a node of the same graph. -/
def View.Near (view view' : View) : Prop :=
  view'.graph = view.graph ∧ Path.Within view.graph view.focus view'.focus

theorem View.Near.refl (view : View) : view.Near view := ⟨rfl, .inl rfl⟩

theorem View.Near.trans {v₁ v₂ v₃ : View} (h₁ : v₁.Near v₂) (h₂ : v₂.Near v₃) : v₁.Near v₃ := by
  refine ⟨h₂.1.trans h₁.1, ?_⟩
  rcases h₂.2 with h | h
  · rw [h]
    exact h₁.2
  · rw [h₁.1] at h
    exact .inr h

theorem View.near_refocus {view : View} {p : Path} {nodes : List Term}
    (h : p.walk view.graph view.focus = .ok nodes) : ∀ v ∈ nodes.map view.refocus, view.Near v := by
  intro v hv
  obtain ⟨node, hnode, rfl⟩ := List.mem_map.1 hv
  exact ⟨rfl, Path.walk_within h node hnode⟩

end ShaclExtract
