import ShaclExtract.Proofs.Search.Reachability

/-!
# ShaclExtract.Proofs.Search.BreadthFirst

The order in which a search lists what it finds.

* `Search.run_append`: a search takes the nodes of its queue as one round and goes on with all that
  their steps discover.
* `Search.pairwise_run`: so a node is listed before another one only if it is no farther from the
  queue, by the number of steps.
* `Search.run_eq_discover`: what is listed behind the queue is discovered by the steps of what is
  listed, in the order of the list.

Steps that may fail find the same, if no step from a node that is found fails
(`Search.tryRun_eq_ok_iff`).
-/

namespace ShaclExtract

open Relation

namespace Search

/-! ## numbers of steps -/

section distance

variable {α : Type} {R R' : α → α → Prop} {starts starts' : List α} {n : Nat} {a b y : α}

/-- A node that is reached in so many steps from one of the starts. -/
inductive Away (R : α → α → Prop) (starts : List α) : Nat → α → Prop where
  | start {x : α} : x ∈ starts → Away R starts 0 x
  | step {n : Nat} {x y : α} : Away R starts n x → R x y → Away R starts (n + 1) y

/-- Whatever number of steps leads to `b`, at least `k` of them, no more lead to `a`. -/
def NoFarther (R : α → α → Prop) (starts : List α) (k : Nat) (a b : α) : Prop :=
  ∀ n, k ≤ n → Away R starts n b → ∃ m, k ≤ m ∧ m ≤ n ∧ Away R starts m a

namespace Away

theorem mono (hR : ∀ a b, R a b → R' a b) (h : Away R starts n y) : Away R' starts n y := by
  induction h with
  | start hx => exact .start hx
  | step _ hxy ih => exact .step ih (hR _ _ hxy)

theorem advance (hnext : ∀ x ∈ starts, ∀ y, R x y → y ∈ starts') :
    ∀ {n : Nat} {y : α}, Away R starts (n + 1) y → Away R starts' n y
  | 0, _, .step (.start hx) hxy => .start (hnext _ hx _ hxy)
  | _ + 1, _, .step hx hxy => .step (hx.advance hnext) hxy

theorem retreat (hnext : ∀ y ∈ starts', ∃ x ∈ starts, R x y) (h : Away R starts' n y) :
    Away R starts (n + 1) y := by
  induction h with
  | start hy =>
    obtain ⟨x, hx, hxy⟩ := hnext _ hy
    exact .step (.start hx) hxy
  | step _ hxy ih => exact .step ih hxy

/-- Steps that stay, or lead to a start, can be left out. -/
theorem shorten (hstarts : ∀ x ∈ starts, x ∈ starts')
    (hR : ∀ a b, R a b → b = a ∨ b ∈ starts' ∨ R' a b) (h : Away R starts n y) :
    ∃ m ≤ n, Away R' starts' m y := by
  induction h with
  | start hx => exact ⟨0, Nat.le_refl 0, .start (hstarts _ hx)⟩
  | @step n x y _ hxy ih =>
    obtain ⟨m, hm, hx⟩ := ih
    rcases hR x y hxy with rfl | hy | hxy'
    · exact ⟨m, Nat.le_succ_of_le hm, hx⟩
    · exact ⟨0, Nat.zero_le _, .start hy⟩
    · exact ⟨m + 1, Nat.succ_le_succ hm, .step hx hxy'⟩

end Away

/-- Nodes in order by steps that can be left out for, or stand for, those of another relation. -/
theorem NoFarther.transfer (hshort : ∀ n y, Away R starts n y → ∃ m ≤ n, Away R' starts' m y)
    (hback : ∀ n y, Away R' starts' n y → Away R starts n y) (h : NoFarther R' starts' 0 a b) :
    NoFarther R starts 0 a b := by
  intro n _ hb
  obtain ⟨m, hm, hb'⟩ := hshort n b hb
  obtain ⟨l, -, hl, ha⟩ := h m (Nat.zero_le m) hb'
  exact ⟨l, Nat.zero_le l, Nat.le_trans hl hm, hback l a ha⟩

theorem NoFarther.retreat (hnext : ∀ x ∈ starts, ∀ y, R x y → y ∈ starts')
    (hfrom : ∀ y ∈ starts', ∃ x ∈ starts, R x y) (h : NoFarther R starts' 0 a b) :
    NoFarther R starts 1 a b := by
  intro n hn hb
  obtain ⟨n, rfl⟩ := Nat.exists_eq_add_of_le' hn
  obtain ⟨m, -, hm, ha⟩ := h n (Nat.zero_le n) (hb.advance hnext)
  exact ⟨m + 1, Nat.le_add_left 1 m, Nat.succ_le_succ hm, ha.retreat hfrom⟩

end distance

section answers

variable {α ε : Type}

/-- The nodes of an answer; a failure has none. -/
def answered : Except ε (List α) → List α
  | .ok ys => ys
  | .error _ => []

theorem mem_answered {r : Except ε (List α)} {y : α} :
    y ∈ answered r ↔ ∃ ys, r = .ok ys ∧ y ∈ ys := by
  cases r <;> simp [answered]

end answers

variable {α ε : Type} [DecidableEq α]

/-! ## rounds -/

theorem discover_append (xs ys unmet : List α) :
    discover (xs ++ ys) unmet =
      ((discover xs unmet).1 ++ (discover ys (discover xs unmet).2).1,
        (discover ys (discover xs unmet).2).2) := by
  induction xs generalizing unmet with
  | nil => rfl
  | cons x xs ih =>
    simp only [List.cons_append, discover]
    split
    · simp only [ih, List.cons_append]
    · exact ih unmet

/-- The nodes in front are taken as one round; what their steps discover joins the end. -/
theorem run_append (step : α → List α) (queue rest unmet : List α) :
    run step (queue ++ rest) unmet =
      queue ++ run step (rest ++ (discover (queue.flatMap step) unmet).1)
        (discover (queue.flatMap step) unmet).2 := by
  induction queue generalizing rest unmet with
  | nil => simp [discover]
  | cons x queue ih =>
    rw [List.cons_append, run, List.append_assoc, ih]
    simp only [List.flatMap_cons, discover_append, List.append_assoc, List.cons_append]

/-- Behind its queue a search lists what the steps of the listed nodes discover. -/
theorem run_eq_discover (step : α → List α) (queue unmet : List α) :
    run step queue unmet =
      queue ++ (discover ((run step queue unmet).flatMap step) unmet).1 := by
  fun_induction run step queue unmet with
  | case1 unmet => rfl
  | case2 unmet x queue found ih =>
    rw [List.flatMap_cons, discover_append, List.cons_append, ← List.append_assoc]
    exact congrArg (x :: ·) ih

/-! ## nearer nodes first -/

theorem NoFarther.round {step : α → List α} {queue unmet : List α} {a b : α}
    (hb : b ∉ queue)
    (h : NoFarther (Onward step (discover (queue.flatMap step) unmet).2)
      (discover (queue.flatMap step) unmet).1 0 a b) :
    NoFarther (Onward step unmet) queue 0 a b := by
  have hfound : ∀ x ∈ queue, ∀ y, Onward step unmet x y →
      y ∈ (discover (queue.flatMap step) unmet).1 := fun x hx y hxy =>
    (mem_discover _ _).2 ⟨List.mem_flatMap.2 ⟨x, hx, hxy.1⟩, hxy.2⟩
  have hfrom : ∀ y ∈ (discover (queue.flatMap step) unmet).1, ∃ x ∈ queue,
      Onward step unmet x y := by
    intro y hy
    obtain ⟨hy, hunmet⟩ := (mem_discover _ _).1 hy
    obtain ⟨x, hx, hxy⟩ := List.mem_flatMap.1 hy
    exact ⟨x, hx, hxy, hunmet⟩
  have hleft : ∀ x y, Onward step unmet x y → y = x ∨
      y ∈ (discover (queue.flatMap step) unmet).1 ∨
      Onward step (discover (queue.flatMap step) unmet).2 x y := by
    intro x y hxy
    by_cases hy : y ∈ queue.flatMap step
    · exact .inr (.inl ((mem_discover _ _).2 ⟨hy, hxy.2⟩))
    · exact .inr (.inr ⟨hxy.1, (mem_discover_unmet _ _).2 ⟨hxy.2, hy⟩⟩)
  have hrest : NoFarther (Onward step unmet) queue 1 a b := by
    refine .retreat hfound hfrom (h.transfer (fun n y hy => hy.shorten (fun _ hx => hx) hleft) ?_)
    exact fun n y hy => hy.mono fun x z hxz => ⟨hxz.1, ((mem_discover_unmet _ _).1 hxz.2).1⟩
  intro n _ hn
  cases n with
  | zero =>
    cases hn with
    | start hmem => exact absurd hmem hb
  | succ n =>
    obtain ⟨m, -, hm, ha⟩ := hrest (n + 1) (Nat.le_add_left 1 n) hn
    exact ⟨m, Nat.zero_le m, hm, ha⟩

/-- A search lists what it finds by the number of steps from its queue. -/
theorem pairwise_run (step : α → List α) (queue unmet : List α) (hq : ∀ q ∈ queue, q ∉ unmet) :
    (run step queue unmet).Pairwise (NoFarther (Onward step unmet) queue 0) := by
  have hround := run_append step queue [] unmet
  rw [List.append_nil, List.nil_append] at hround
  rw [hround, List.pairwise_append]
  have hfirst : ∀ a ∈ queue, ∀ b, NoFarther (Onward step unmet) queue 0 a b :=
    fun a ha b n _ _ => ⟨0, Nat.le_refl 0, Nat.zero_le n, .start ha⟩
  refine ⟨List.pairwise_of_forall_mem_list fun a ha b _ => hfirst a ha b, ?_,
    fun a ha b _ => hfirst a ha b⟩
  by_cases hnone : (discover (queue.flatMap step) unmet).1 = []
  · simp [hnone, run]
  · have hlength := length_discover (queue.flatMap step) unmet
    have hpos := List.length_pos_iff.2 hnone
    have hrest := pairwise_run step (discover (queue.flatMap step) unmet).1
      (discover (queue.flatMap step) unmet).2 not_mem_discover_unmet
    exact hrest.imp_of_mem fun _ hb h => h.round fun hbq => hq _ hbq (mem_unmet_of_mem_run hb)
termination_by unmet.length
decreasing_by omega

theorem pairwise_reach {step : α → List α} {nodes : List α}
    (hstep : ∀ a, ∀ b ∈ step a, b = a ∨ b ∈ nodes) (x : α) :
    (reach step nodes x).Pairwise (NoFarther (fun a b => b ∈ step a) [x] 0) := by
  refine (pairwise_run step [x] _ (by simp)).imp fun h => h.transfer (fun n y hy => ?_)
    fun n y hy => hy.mono fun _ _ hab => hab.1
  refine hy.shorten (fun _ hx => hx) fun a b hb => ?_
  by_cases hbx : b = x
  · exact .inr (.inl (List.mem_singleton.2 hbx))
  · rcases hstep a b hb with hba | hnode
    · exact .inl hba
    · exact .inr (.inr ⟨hb, List.mem_filter.2 ⟨hnode, by simpa using hbx⟩⟩)

theorem pairwise_reachBeyond {step : α → List α} {nodes : List α} {x : α}
    (hstep : ∀ a, ∀ b ∈ step a, b = a ∨ b ∈ nodes) (hx : x ∈ nodes) :
    (reachBeyond step nodes x).Pairwise (NoFarther (fun a b => b ∈ step a) [x] 1) := by
  have hfirst : ∀ b ∈ step x, b ∈ (discover (step x) nodes).1 := fun b hb =>
    (mem_discover _ _).2 ⟨hb, (hstep x b hb).elim (fun h => h ▸ hx) id⟩
  have hback : ∀ b ∈ (discover (step x) nodes).1, ∃ a ∈ [x], b ∈ step a := fun b hb =>
    ⟨x, List.mem_singleton_self x, ((mem_discover _ _).1 hb).1⟩
  refine (pairwise_run (stopAt step x) _ _ not_mem_discover_unmet).imp fun h => .retreat ?_ hback
    (h.transfer (fun n y hy => ?_) fun n y hy => hy.mono fun a b hab => (mem_stopAt.1 hab.1).2)
  · intro a ha b hb
    rw [List.mem_singleton.1 ha] at hb
    exact hfirst b hb
  · refine hy.shorten (fun _ h => h) fun a b hb => ?_
    by_cases hbx : b ∈ step x
    · exact .inr (.inl (hfirst b hbx))
    · have hax : a ≠ x := fun h => hbx (h ▸ hb)
      exact (hstep a b hb).imp id fun hnode =>
        .inr ⟨mem_stopAt.2 ⟨hax, hb⟩, (mem_discover_unmet _ _).2 ⟨hnode, hbx⟩⟩

/-! ## first discovery -/

theorem discover_eq_eraseDups (xs unmet : List α) :
    (discover xs unmet).1 = (xs.filter fun x => x ∈ unmet).eraseDups := by
  induction xs generalizing unmet with
  | nil => rfl
  | cons x xs ih =>
    unfold discover
    split
    · rename_i hx
      have hfilter : xs.filter (fun y => y ∈ unmet.filter fun y => y ≠ x) =
          (xs.filter fun y => y ∈ unmet).filter fun y => !y == x := by
        rw [List.filter_filter]
        exact List.filter_congr fun y _ => by simp [List.mem_filter, and_comm, beq_eq_decide]
      rw [List.filter_cons_of_pos (by simpa using hx), List.eraseDups_cons, ← hfilter, ← ih]
    · rename_i hx
      rw [List.filter_cons_of_neg (by simpa using hx), ih]

/-- A search from one node lists the node and the successors of what it lists, each at its first
occurrence. -/
theorem reach_eq_eraseDups {step : α → List α} {nodes : List α}
    (hstep : ∀ a, ∀ b ∈ step a, b = a ∨ b ∈ nodes) (x : α) :
    reach step nodes x = (x :: (reach step nodes x).flatMap step).eraseDups := by
  have hfilter : ((reach step nodes x).flatMap step).filter
        (fun y => y ∈ nodes.filter fun y => y ≠ x) =
      ((reach step nodes x).flatMap step).filter fun y => !y == x := by
    refine List.filter_congr fun y hy => ?_
    by_cases hyx : y = x
    · simp [hyx]
    · have hreach : y ∈ reach step nodes x := by
        obtain ⟨a, ha, hay⟩ := List.mem_flatMap.1 hy
        exact (mem_reach hstep).2 (((mem_reach hstep).1 ha).tail hay)
      simp [hyx, (eq_or_mem_of_mem_reach hreach).resolve_left hyx]
  have hrun := run_eq_discover step [x] (nodes.filter fun y => y ≠ x)
  rw [discover_eq_eraseDups] at hrun
  rw [List.eraseDups_cons, ← hfilter]
  exact hrun

/-! ## steps that may fail -/

theorem tryRun_eq_ok_iff {step : α → Except ε (List α)} {queue unmet : List α} (ys : List α) :
    tryRun step queue unmet = .ok ys ↔
      ys = run (fun x => answered (step x)) queue unmet ∧ ∀ y ∈ ys, ∃ next, step y = .ok next := by
  fun_induction tryRun step queue unmet generalizing ys with
  | case1 unmet =>
    rw [run, Except.ok.injEq]
    constructor
    · rintro rfl
      exact ⟨rfl, List.forall_mem_nil _⟩
    · exact fun h => h.1.symm
  | case2 unmet x queue e he =>
    refine iff_of_false (by simp) ?_
    rintro ⟨hys, hok⟩
    rw [run] at hys
    obtain ⟨next, hnext⟩ := hok x (hys ▸ List.mem_cons_self)
    cases he.symm.trans hnext
  | case3 unmet x queue next hnext found e he ih =>
    refine iff_of_false (by simp) ?_
    rintro ⟨rfl, hok⟩
    rw [run, hnext] at hok
    cases he.symm.trans ((ih _).2 ⟨rfl, fun y hy => hok y (List.mem_cons_of_mem x hy)⟩)
  | case4 unmet x queue next hnext found rest hrest ih =>
    obtain ⟨hfound, hok⟩ := (ih rest).1 hrest
    have hrun : run (fun x => answered (step x)) (x :: queue) unmet = x :: rest := by
      rw [run, hnext, hfound]
      rfl
    rw [hrun, Except.ok.injEq]
    constructor
    · rintro rfl
      exact ⟨rfl, List.forall_mem_cons.2 ⟨⟨next, hnext⟩, hok⟩⟩
    · exact fun h => h.1.symm

theorem tryReach_eq_ok_iff {step : α → Except ε (List α)} {nodes ys : List α} {x : α} :
    tryReach step nodes x = .ok ys ↔
      ys = reach (fun x => answered (step x)) nodes x ∧ ∀ y ∈ ys, ∃ next, step y = .ok next :=
  tryRun_eq_ok_iff ys

theorem tryReachBeyond_eq_ok_iff {step : α → Except ε (List α)} {nodes ys : List α} {x : α} :
    tryReachBeyond step nodes x = .ok ys ↔
      ys = reachBeyond (fun x => answered (step x)) nodes x ∧
        ∀ y ∈ x :: ys, ∃ next, step y = .ok next := by
  unfold tryReachBeyond reachBeyond
  cases hx : step x with
  | error e => simp [hx]
  | ok next =>
    have hstop : (fun y => answered (if y = x then .ok [] else step y)) =
        stopAt (fun x => answered (step x)) x := by
      funext y
      by_cases hyx : y = x <;> simp [stopAt, hyx, answered]
    have hok : ∀ y, (∃ next, (if y = x then Except.ok [] else step y) = .ok next) ↔
        ∃ next, step y = .ok next := by
      intro y
      by_cases hyx : y = x <;> simp [hyx, hx]
    have hfirst : answered (Except.ok next : Except ε (List α)) = next := rfl
    simp [tryRun_eq_ok_iff, hstop, hok, hx, hfirst]

end Search
end ShaclExtract
