import Mathlib.Data.List.Nodup
import Mathlib.Logic.Relation
import ShaclExtract.Search

/-!
# ShaclExtract.Proofs.Search.Reachability

What a breadth-first search finds: each node that can be reached from its queue through nodes it may
meet, once (`Search.mem_run`, `Search.nodup_run`). From one node these are the nodes in the
reflexive-transitive closure of one step (`Search.mem_reach`) or, with one step at least, in the
transitive closure (`Search.mem_reachBeyond`).

A search depends on no steps but those from nodes that it finds (`Search.tryRun_congr`).
-/

namespace ShaclExtract

open Relation

namespace Search

variable {α : Type} [DecidableEq α] {step : α → List α} {x y : α} {xs unmet : List α}

/-! ## what is discovered -/

theorem mem_discover (xs unmet : List α) :
    y ∈ (discover xs unmet).1 ↔ y ∈ xs ∧ y ∈ unmet := by
  induction xs generalizing unmet with
  | nil => simp [discover]
  | cons x xs ih =>
    unfold discover
    split
    · rename_i hx
      simp only [List.mem_cons, ih, List.mem_filter, ne_eq, decide_eq_true_eq]
      by_cases hyx : y = x
      · simp [hyx, hx]
      · simp [hyx]
    · rename_i hx
      rw [ih, List.mem_cons]
      constructor
      · rintro ⟨hxs, hu⟩
        exact ⟨.inr hxs, hu⟩
      · rintro ⟨rfl | hxs, hu⟩
        · exact absurd hu hx
        · exact ⟨hxs, hu⟩

theorem mem_discover_unmet (xs unmet : List α) :
    y ∈ (discover xs unmet).2 ↔ y ∈ unmet ∧ y ∉ xs := by
  induction xs generalizing unmet with
  | nil => simp [discover]
  | cons x xs ih =>
    unfold discover
    split
    · simp only [ih, List.mem_filter, ne_eq, decide_eq_true_eq, List.mem_cons, not_or, and_assoc]
    · rename_i hx
      rw [ih, List.mem_cons, not_or]
      constructor
      · rintro ⟨hu, hxs⟩
        exact ⟨hu, fun h => hx (h ▸ hu), hxs⟩
      · rintro ⟨hu, -, hxs⟩
        exact ⟨hu, hxs⟩

theorem nodup_discover (xs unmet : List α) : (discover xs unmet).1.Nodup := by
  induction xs generalizing unmet with
  | nil => simp [discover]
  | cons x xs ih =>
    unfold discover
    split
    · refine List.nodup_cons.2 ⟨?_, ih _⟩
      simp [mem_discover]
    · exact ih unmet

/-! ## what is found -/

def Onward (step : α → List α) (unmet : List α) (a b : α) : Prop := b ∈ step a ∧ b ∈ unmet

/-- A way that meets successors of `x` can be started at the last of them. -/
theorem Onward.restart {q : α} (h : ReflTransGen (Onward step unmet) q y) :
    ∃ z, (z = q ∨ z ∈ (discover (step x) unmet).1) ∧
      ReflTransGen (Onward step (discover (step x) unmet).2) z y := by
  induction h with
  | refl => exact ⟨q, .inl rfl, .refl⟩
  | @tail b c _ hbc ih =>
    by_cases hc : c ∈ step x
    · exact ⟨c, .inr ((mem_discover _ _).2 ⟨hc, hbc.2⟩), .refl⟩
    · obtain ⟨z, hz, hzb⟩ := ih
      exact ⟨z, hz, hzb.tail ⟨hbc.1, (mem_discover_unmet _ _).2 ⟨hbc.2, hc⟩⟩⟩

theorem Onward.widen {xs : List α} {q : α}
    (h : ReflTransGen (Onward step (discover xs unmet).2) q y) :
    ReflTransGen (Onward step unmet) q y :=
  ReflTransGen.mono (fun _ _ hab => ⟨hab.1, ((mem_discover_unmet _ _).1 hab.2).1⟩) _ _ h

/-- A search finds what is reached from its queue by steps to nodes that it may meet. -/
theorem mem_run (step : α → List α) (queue unmet : List α) :
    y ∈ run step queue unmet ↔ ∃ q ∈ queue, ReflTransGen (Onward step unmet) q y := by
  fun_induction run step queue unmet with
  | case1 unmet => simp
  | case2 unmet x queue found ih =>
    simp only [List.mem_cons, ih, List.mem_append]
    constructor
    · rintro (rfl | ⟨q, hq | hq, hqy⟩)
      · exact ⟨y, .inl rfl, .refl⟩
      · exact ⟨q, .inr hq, Onward.widen hqy⟩
      · exact ⟨x, .inl rfl, .head ((mem_discover _ _).1 hq) (Onward.widen hqy)⟩
    · rintro ⟨q, hq, hqy⟩
      obtain ⟨z, hz, hzy⟩ := Onward.restart (x := x) hqy
      rcases hz with rfl | hz
      · rcases hq with rfl | hq
        · rcases hzy.cases_head with rfl | ⟨c, hc, -⟩
          · exact .inl rfl
          · exact absurd hc.1 ((mem_discover_unmet _ _).1 hc.2).2
        · exact .inr ⟨z, .inl hq, hzy⟩
      · exact .inr ⟨z, .inr hz, hzy⟩

/-- Nothing is found beyond the queue and the nodes that may be met. -/
theorem mem_queue_or_unmet {queue : List α} (h : y ∈ run step queue unmet) :
    y ∈ queue ∨ y ∈ unmet := by
  obtain ⟨q, hq, hqy⟩ := (mem_run _ _ _).1 h
  rcases hqy.cases_tail with rfl | ⟨c, -, hc⟩
  · exact .inl hq
  · exact .inr hc.2

theorem mem_unmet_of_mem_run (h : y ∈ run step (discover xs unmet).1 (discover xs unmet).2) :
    y ∈ unmet := by
  rcases mem_queue_or_unmet h with h | h
  · exact ((mem_discover _ _).1 h).2
  · exact ((mem_discover_unmet _ _).1 h).1

theorem not_mem_discover_unmet : ∀ z ∈ (discover xs unmet).1, z ∉ (discover xs unmet).2 :=
  fun _ hz hu => ((mem_discover_unmet _ _).1 hu).2 ((mem_discover _ _).1 hz).1

/-- Nothing is found twice by a search that does not have the nodes of its queue to meet again. -/
theorem nodup_run (step : α → List α) (queue unmet : List α) (hq : queue.Nodup)
    (hu : ∀ q ∈ queue, q ∉ unmet) : (run step queue unmet).Nodup := by
  fun_induction run step queue unmet with
  | case1 unmet => exact List.nodup_nil
  | case2 unmet x queue found ih =>
    obtain ⟨hx, hqueue⟩ := List.nodup_cons.1 hq
    refine List.nodup_cons.2 ⟨fun h => ?_, ih ?_ ?_⟩
    · have hxu := hu x List.mem_cons_self
      rcases mem_queue_or_unmet h with h | h
      · rcases List.mem_append.1 h with h | h
        · exact hx h
        · exact hxu ((mem_discover _ _).1 h).2
      · exact hxu ((mem_discover_unmet _ _).1 h).1
    · refine List.nodup_append'.2 ⟨hqueue, nodup_discover _ _, fun q hq' hf => ?_⟩
      exact hu q (List.mem_cons_of_mem _ hq') ((mem_discover _ _).1 hf).2
    · intro q hq' hqu
      rcases List.mem_append.1 hq' with hq' | hq'
      · exact hu q (List.mem_cons_of_mem _ hq') ((mem_discover_unmet _ _).1 hqu).1
      · exact not_mem_discover_unmet q hq' hqu

/-! ## from one node -/

theorem mem_reach {nodes : List α} (hstep : ∀ a, ∀ b ∈ step a, b = a ∨ b ∈ nodes) :
    y ∈ reach step nodes x ↔ ReflTransGen (fun a b => b ∈ step a) x y := by
  simp only [reach, mem_run, List.mem_singleton, exists_eq_left]
  constructor
  · exact ReflTransGen.mono (fun _ _ hab => hab.1) x y
  · intro h
    induction h with
    | refl => exact .refl
    | @tail b c _ hbc ih =>
      by_cases hcx : c = x
      · exact hcx ▸ .refl
      · rcases hstep b c hbc with rfl | hc
        · exact ih
        · exact ih.tail ⟨hbc, List.mem_filter.2 ⟨hc, by simpa using hcx⟩⟩

theorem eq_or_mem_of_mem_reach {nodes : List α} (h : y ∈ reach step nodes x) :
    y = x ∨ y ∈ nodes :=
  (mem_queue_or_unmet h).imp List.mem_singleton.1 fun h => (List.mem_filter.1 h).1

theorem nodup_reach (step : α → List α) (nodes : List α) (x : α) : (reach step nodes x).Nodup :=
  nodup_run _ _ _ (by simp) (by simp)

theorem head?_reach (step : α → List α) (nodes : List α) (x : α) :
    (reach step nodes x).head? = some x := by
  rw [reach, run, List.head?_cons]

/-- The same steps, but none from `x`. -/
def stopAt (step : α → List α) (x y : α) : List α := if y = x then [] else step y

theorem mem_stopAt {a b : α} : b ∈ stopAt step x a ↔ a ≠ x ∧ b ∈ step a := by
  by_cases h : a = x <;> simp [stopAt, h]

/-- The search of `tryReachBeyond`, with steps that do not fail. -/
def reachBeyond (step : α → List α) (nodes : List α) (x : α) : List α :=
  run (stopAt step x) (discover (step x) nodes).1 (discover (step x) nodes).2

theorem tryReachBeyond_eq_ok_reachBeyond {ε : Type} {step : α → Except ε (List α)} {f : α → List α}
    (h : ∀ x, step x = .ok (f x)) (nodes : List α) (x : α) :
    tryReachBeyond step nodes x = .ok (reachBeyond f nodes x) := by
  simp only [tryReachBeyond, h x]
  refine tryRun_eq_ok_run (fun y => ?_) _ _
  unfold stopAt
  split
  · rfl
  · exact h y

theorem mem_reachBeyond {nodes : List α} (hstep : ∀ a, ∀ b ∈ step a, b = a ∨ b ∈ nodes)
    (hx : x ∈ nodes) :
    y ∈ reachBeyond step nodes x ↔ TransGen (fun a b => b ∈ step a) x y := by
  have hfirst : ∀ c ∈ step x, c ∈ (discover (step x) nodes).1 := fun c hc =>
    (mem_discover _ _).2 ⟨hc, (hstep x c hc).elim (fun h => h ▸ hx) id⟩
  rw [reachBeyond, mem_run]
  constructor
  · rintro ⟨q, hq, hqy⟩
    exact TransGen.head' ((mem_discover _ _).1 hq).1
      (ReflTransGen.mono (fun a b hab => (mem_stopAt.1 hab.1).2) _ _ hqy)
  · intro h
    induction h with
    | single hxc => exact ⟨_, hfirst _ hxc, .refl⟩
    | @tail b c _ hbc ih =>
      -- a successor of the start waits in the queue, wherever it is met
      by_cases hcx : c ∈ step x
      · exact ⟨c, hfirst c hcx, .refl⟩
      · obtain ⟨q, hq, hqb⟩ := ih
        have hbx : b ≠ x := fun h => hcx (h ▸ hbc)
        rcases hstep b c hbc with rfl | hc
        · exact ⟨q, hq, hqb⟩
        · exact ⟨q, hq, hqb.tail
            ⟨mem_stopAt.2 ⟨hbx, hbc⟩, (mem_discover_unmet _ _).2 ⟨hc, hcx⟩⟩⟩

theorem nodup_reachBeyond (step : α → List α) (nodes : List α) (x : α) :
    (reachBeyond step nodes x).Nodup :=
  nodup_run _ _ _ (nodup_discover _ _) not_mem_discover_unmet

/-! ## searches that meet the same -/

section same

variable {ε : Type} {T : α → Prop}

theorem discover_congr {xs unmet unmet' : List α} (hxs : ∀ x ∈ xs, T x)
    (hunmet : ∀ y, T y → (y ∈ unmet' ↔ y ∈ unmet)) :
    (discover xs unmet').1 = (discover xs unmet).1 ∧
      ∀ y, T y → (y ∈ (discover xs unmet').2 ↔ y ∈ (discover xs unmet).2) := by
  refine ⟨?_, fun y hy => by rw [mem_discover_unmet, mem_discover_unmet, hunmet y hy]⟩
  induction xs generalizing unmet unmet' with
  | nil => rfl
  | cons x xs ih =>
    have hrest : ∀ y ∈ xs, T y := fun y hy => hxs y (List.mem_cons_of_mem _ hy)
    have hx := hunmet x (hxs x List.mem_cons_self)
    by_cases hmem : x ∈ unmet
    · have hfilter : ∀ y, T y →
          (y ∈ unmet'.filter (fun y => y ≠ x) ↔ y ∈ unmet.filter fun y => y ≠ x) :=
        fun y hy => by rw [List.mem_filter, List.mem_filter, hunmet y hy]
      simp only [discover, if_pos hmem, if_pos (hx.2 hmem)]
      rw [ih hrest hfilter]
    · simp only [discover, if_neg hmem, if_neg (mt hx.1 hmem)]
      exact ih hrest hunmet

theorem forall_queue {x : α} {queue next : List α} (hqueue : ∀ y ∈ x :: queue, T y)
    (hnext : ∀ y ∈ next, T y) (unmet : List α) : ∀ y ∈ queue ++ (discover next unmet).1, T y := by
  intro y hy
  rcases List.mem_append.1 hy with hy | hy
  · exact hqueue y (List.mem_cons_of_mem _ hy)
  · exact hnext y ((mem_discover _ _).1 hy).1

/-- Steps that agree on what the searches meet, and stay among it, find the same. -/
theorem tryRun_congr {step step' : α → Except ε (List α)}
    (hstep : ∀ x, T x → step' x = step x ∧ ∀ ys, step x = .ok ys → ∀ y ∈ ys, T y)
    {queue unmet : List α} (hqueue : ∀ x ∈ queue, T x) {unmet' : List α}
    (hunmet : ∀ y, T y → (y ∈ unmet' ↔ y ∈ unmet)) :
    tryRun step' queue unmet' = tryRun step queue unmet ∧
      ∀ ys, tryRun step queue unmet = .ok ys → ∀ y ∈ ys, T y := by
  fun_induction tryRun step queue unmet generalizing unmet' with
  | case1 unmet =>
    refine ⟨by rw [tryRun], fun ys h => ?_⟩
    cases h
    simp
  | case2 unmet x queue e he =>
    refine ⟨?_, fun ys h => by cases h⟩
    rw [tryRun, (hstep x (hqueue x List.mem_cons_self)).1, he]
  | case3 unmet x queue next hnext found e he ih =>
    have hfirst := hstep x (hqueue x List.mem_cons_self)
    obtain ⟨hfound, hleft⟩ := discover_congr (hfirst.2 next hnext) hunmet
    have hrest := (ih (forall_queue hqueue (hfirst.2 next hnext) unmet) hleft).1
    refine ⟨?_, fun ys h => by cases h⟩
    rw [tryRun, hfirst.1, hnext]
    simp only [hfound]
    rw [hrest, he]
  | case4 unmet x queue next hnext found rest hok ih =>
    have hfirst := hstep x (hqueue x List.mem_cons_self)
    obtain ⟨hfound, hleft⟩ := discover_congr (hfirst.2 next hnext) hunmet
    obtain ⟨hrest, hstay⟩ := ih (forall_queue hqueue (hfirst.2 next hnext) unmet) hleft
    constructor
    · rw [tryRun, hfirst.1, hnext]
      simp only [hfound]
      rw [hrest, hok]
    · intro ys h
      cases h
      intro y hy
      rcases List.mem_cons.1 hy with rfl | hy
      · exact hqueue y List.mem_cons_self
      · exact hstay rest hok y hy

theorem run_congr {step step' : α → List α}
    (hstep : ∀ x, T x → step' x = step x ∧ ∀ y ∈ step x, T y) {queue unmet : List α}
    (hqueue : ∀ x ∈ queue, T x) {unmet' : List α}
    (hunmet : ∀ y, T y → (y ∈ unmet' ↔ y ∈ unmet)) :
    run step' queue unmet' = run step queue unmet ∧ ∀ y ∈ run step queue unmet, T y := by
  have hok : ∀ (f : α → List α) queue unmet,
      tryRun (fun x => (.ok (f x) : Except Unit _)) queue unmet = .ok (run f queue unmet) :=
    fun f => tryRun_eq_ok_run fun _ => rfl
  have hstep' : ∀ x, T x → (.ok (step' x) : Except Unit (List α)) = .ok (step x) ∧
      ∀ ys, (.ok (step x) : Except Unit (List α)) = .ok ys → ∀ y ∈ ys, T y :=
    fun x hx => ⟨congrArg _ (hstep x hx).1, fun ys h => by cases h; exact (hstep x hx).2⟩
  obtain ⟨hequal, hstay⟩ := tryRun_congr hstep' hqueue hunmet
  rw [hok, hok] at hequal
  exact ⟨Except.ok.inj hequal, hstay _ (hok _ _ _)⟩

end same

end Search
end ShaclExtract
