import ShaclExtract.Proofs.Path.Writing

/-!
# ShaclExtract.Proofs.Path.Rewriting

Walking a path by rewriting it: an inverse is replaced by the converse of what it stands around,
until inverses stand around predicates only (`Path.stepWithin`). The converse may be a larger path
than the inverse, but it has no more levels (`levels_converse_le`), so rewriting ends, and it gives
the walk of the path (`stepWithin_eq`).

The converse of the converse is walked like the path itself. It is the same path if inverses stand
around predicates (`Normal.converse_converse`), as they do in every path that is read
(`normal_of_read`).
-/

namespace ShaclExtract
namespace Path

/-! ## walking by rewriting -/

abbrev Step := Term → Except Failure (List Term)

/-- One step, then the next one from each of its hops. -/
def Step.followedBy (before after : Step) : Step := fun x => (before x).bind (gather after)

/-- The first of the steps that has any hop; `best` is the preferred answer of the steps before. -/
def Step.firstOf : List Step → Except Failure (List Term) → Step
  | [], best, _ => best
  | step :: steps, best, x =>
    match step x with
    | .ok (y :: ys) => .ok (y :: ys)
    | r => firstOf steps (prefer best r) x

/-- The step that a path stands for, where the path is rewritten; `none` if that takes more levels
than `depth`. -/
def stepWithin (g : Graph) : Nat → Path → Option Step
  | 0, _ => none
  | _ + 1, .predicate i => some fun x => .ok (g.objects x i)
  | _ + 1, .inverse (.predicate i) => some fun x => .ok (g.subjects x i)
  | depth + 1, .inverse p => stepWithin g depth p.converse
  | depth + 1, .sequence ps =>
    (ps.mapM (stepWithin g depth)).map fun steps =>
      steps.foldl Step.followedBy fun x => .ok [x]
  | depth + 1, .alternative ps =>
    (ps.mapM (stepWithin g depth)).map fun steps => Step.firstOf steps (.error .noAlternative)
  | depth + 1, .zeroOrMore p => (stepWithin g depth p).map fun step => closure step g
  | depth + 1, .oneOrMore p => (stepWithin g depth p).map fun step => closureBeyond step g
  | depth + 1, .zeroOrOne p => (stepWithin g depth p).map optional

mutual

/-- The levels of a path; an inverse around a predicate is not a level of its own. -/
def levels : Path → Nat
  | .predicate _ => 1
  | .inverse (.predicate _) => 1
  | .inverse p => levels p + 1
  | .sequence ps => levelsOfAll ps + 1
  | .alternative ps => levelsOfAll ps + 1
  | .zeroOrMore p => levels p + 1
  | .oneOrMore p => levels p + 1
  | .zeroOrOne p => levels p + 1

def levelsOfAll : List Path → Nat
  | [] => 0
  | p :: ps => max (levels p) (levelsOfAll ps)

end

theorem levelsOfAll_le_iff {ps : List Path} {n : Nat} :
    levelsOfAll ps ≤ n ↔ ∀ p ∈ ps, levels p ≤ n := by
  induction ps with
  | nil => simp [levelsOfAll]
  | cons p ps ih => simp [levelsOfAll, ih]

theorem levels_le_inverse (p : Path) : levels p ≤ levels (.inverse p) := by
  cases p <;> simp [levels]

mutual

/-- Turning a path around moves inverses inward and adds no level. -/
theorem levels_converse_le : ∀ p : Path, levels (converse p) ≤ levels p
  | .predicate i => by simp [converse, levels]
  | .inverse p => levels_le_inverse p
  | .sequence ps => by
    have h := levelsOfAll_converses_le ps
    rw [levelsOfAll_le_iff] at h
    simp only [converse, levels, Nat.add_le_add_iff_right, levelsOfAll_le_iff, List.mem_reverse]
    exact h
  | .alternative ps => by
    simp only [converse, levels, Nat.add_le_add_iff_right]
    exact levelsOfAll_converses_le ps
  | .zeroOrMore p => by
    simp only [converse, levels, Nat.add_le_add_iff_right]
    exact levels_converse_le p
  | .oneOrMore p => by
    simp only [converse, levels, Nat.add_le_add_iff_right]
    exact levels_converse_le p
  | .zeroOrOne p => by
    simp only [converse, levels, Nat.add_le_add_iff_right]
    exact levels_converse_le p

theorem levelsOfAll_converses_le : ∀ ps : List Path, levelsOfAll (converses ps) ≤ levelsOfAll ps
  | [] => by simp [converses]
  | p :: ps => by
    have h := levels_converse_le p
    have hrest := levelsOfAll_converses_le ps
    simp only [converses, levelsOfAll]
    omega

end

variable {g : Graph} {ps : List Path}

theorem foldl_followedBy (g : Graph) (ps : List Path) (before : Step) (x : Term) :
    (ps.map fun p => follow g p .forward).foldl Step.followedBy before x =
      (before x).bind (followAll g ps .forward) := by
  induction ps generalizing before with
  | nil =>
    simp only [List.map_nil, List.foldl_nil]
    cases before x with
    | error e => rfl
    | ok ys => simp [Except.bind, followAll]
  | cons p ps ih =>
    simp only [List.map_cons, List.foldl_cons, ih, Step.followedBy]
    cases before x with
    | error e => rfl
    | ok ys => exact (followAll_cons_forward g p ps ys).symm

theorem firstOf_follow (g : Graph) (ps : List Path) (best : Except Failure (List Term))
    (x : Term) :
    Step.firstOf (ps.map fun p => follow g p .forward) best x = choose g ps .forward x best := by
  induction ps generalizing best with
  | nil => simp [Step.firstOf, choose]
  | cons p ps ih =>
    simp only [List.map_cons, Step.firstOf, choose]
    rcases follow g p .forward x with e | _ | ⟨y, ys⟩
    · exact ih _
    · exact ih _
    · rfl

theorem mapM_eq_some {α β : Type} {f : α → Option β} {h : α → β} {xs : List α}
    (hf : ∀ x ∈ xs, f x = some (h x)) : xs.mapM f = some (xs.map h) := by
  induction xs with
  | nil => rfl
  | cons x xs ih =>
    rw [List.mapM_cons, hf x List.mem_cons_self, ih fun y hy => hf y (List.mem_cons_of_mem _ hy)]
    rfl

theorem levels_pos (p : Path) : 0 < levels p := by
  cases p with
  | inverse p => cases p <;> simp [levels]
  | _ => simp [levels]

/-- With as many levels as the path has, rewriting ends, and it gives the walk of the path. -/
theorem stepWithin_eq (g : Graph) {p : Path} {depth : Nat} (h : p.levels ≤ depth) :
    stepWithin g depth p = some (p.walk g) := by
  induction depth generalizing p with
  | zero => exact absurd (levels_pos p) (Nat.not_lt.2 h)
  | succ depth ih =>
    have hall : ∀ ps : List Path, levelsOfAll ps ≤ depth →
        ps.mapM (stepWithin g depth) = some (ps.map fun p => follow g p .forward) := fun ps hps =>
      mapM_eq_some fun p hp => ih (levelsOfAll_le_iff.1 hps p hp)
    cases p with
    | predicate i => rfl
    | inverse p =>
      by_cases hp : ∃ i, p = .predicate i
      · obtain ⟨i, rfl⟩ := hp
        rfl
      · have hlevels : levels p + 1 ≤ depth + 1 := by
          rwa [levels] at h
          exact fun i hi => hp ⟨i, hi⟩
        rw [stepWithin]
        · rw [ih ((levels_converse_le p).trans (Nat.le_of_succ_le_succ hlevels))]
          exact congrArg some (funext fun x => (walk_inverse g p x).symm)
        · exact fun i hi => hp ⟨i, hi⟩
    | sequence ps =>
      rw [stepWithin, hall ps (Nat.le_of_succ_le_succ h)]
      exact congrArg some (funext fun x => foldl_followedBy g ps _ x)
    | alternative ps =>
      rw [stepWithin, hall ps (Nat.le_of_succ_le_succ h)]
      exact congrArg some (funext fun x => firstOf_follow g ps _ x)
    | zeroOrMore p =>
      rw [stepWithin, ih (Nat.le_of_succ_le_succ h)]
      rfl
    | oneOrMore p =>
      rw [stepWithin, ih (Nat.le_of_succ_le_succ h)]
      rfl
    | zeroOrOne p =>
      rw [stepWithin, ih (Nat.le_of_succ_le_succ h)]
      rfl

/-! ## the converse of the converse -/

theorem walk_converse_converse (g : Graph) (p : Path) (x : Term) :
    p.converse.converse.walk g x = p.walk g x := by
  rw [walk, follow_converse, follow_converse]
  rfl

theorem Normal.converse_converse {p : Path} (h : p.Normal) : p.converse.converse = p := by
  have hall : ∀ ps : List Path, (∀ p ∈ ps, p.converse.converse = p) →
      ps.map (Path.converse ∘ Path.converse) = ps := fun ps hps =>
    (List.map_congr_left hps).trans (List.map_id ps)
  induction h with
  | predicate i => rfl
  | inverse i => rfl
  | sequence _ ih =>
    simp only [Path.converse, converses_eq_map, List.map_reverse, List.reverse_reverse,
      List.map_map, hall _ ih]
  | alternative _ ih => simp only [Path.converse, converses_eq_map, List.map_map, hall _ ih]
  | zeroOrMore _ ih => simp only [Path.converse, ih]
  | oneOrMore _ ih => simp only [Path.converse, ih]
  | zeroOrOne _ ih => simp only [Path.converse, ih]

/-! ## paths that are read -/

section reading

variable {child : Reader} {node : Term} {p : Path}

theorem normal_readEach (hchild : ∀ x p, child x = some (.ok p) → p.Normal) {nodes : List Term}
    {ps : List Path} (h : readEach child nodes = some (.ok ps)) : ∀ p ∈ ps, p.Normal := by
  induction nodes generalizing ps with
  | nil =>
    cases h
    exact fun p hp => absurd hp List.not_mem_nil
  | cons x nodes ih =>
    unfold readEach at h
    split at h
    · cases h
    · cases h
    · rename_i p hp
      split at h
      · cases h
      · cases h
      · rename_i rest hrest
        cases h
        exact List.forall_mem_cons.2 ⟨hchild x p hp, ih hrest⟩

theorem normal_readMembers (hchild : ∀ x p, child x = some (.ok p) → p.Normal) {head : Term}
    {ps : List Path} (h : readMembers child g head = some (.ok ps)) : ∀ p ∈ ps, p.Normal := by
  unfold readMembers at h
  split at h
  · cases h
  · exact normal_readEach hchild h

theorem built_eq_ok {α : Type} {f : α → Path} {x : Option (Except Failure α)}
    (h : built f x = some (.ok p)) : ∃ a, x = some (.ok a) ∧ p = f a := by
  rcases x with _ | e | a
  · cases h
  · cases h
  · cases h
    exact ⟨a, rfl, rfl⟩

theorem readForm_eq_ok (h : readForm child g node = some (.ok p)) :
    readAlternative child g node = some (.ok p) ∨ readInverse child g node = some (.ok p) ∨
      readRepetition child g node = some (.ok p) ∨ readPredicate node = .ok p := by
  unfold readForm at h
  split at h
  · split at h
    · split at h
      · exact .inr (.inr (.inr (Option.some.inj h)))
      · exact .inr (.inr (.inl h))
    · exact .inr (.inl h)
  · exact .inl h

theorem normal_readPredicate (h : readPredicate node = .ok p) : p.Normal := by
  cases node with
  | iri i =>
    cases h
    exact .predicate i
  | blank b => cases h
  | literal l => cases h

theorem normal_readRepetition (hchild : ∀ x p, child x = some (.ok p) → p.Normal)
    (h : readRepetition child g node = some (.ok p)) : p.Normal := by
  unfold readRepetition at h
  split at h
  · obtain ⟨q, hq, rfl⟩ := built_eq_ok h
    exact .zeroOrMore (hchild _ q hq)
  · split at h
    · obtain ⟨q, hq, rfl⟩ := built_eq_ok h
      exact .oneOrMore (hchild _ q hq)
    · split at h
      · obtain ⟨q, hq, rfl⟩ := built_eq_ok h
        exact .zeroOrOne (hchild _ q hq)
      · cases h

theorem normal_readLevel (hchild : ∀ x p, child x = some (.ok p) → p.Normal)
    (h : readLevel child g node = some (.ok p)) : p.Normal := by
  unfold readLevel at h
  split at h
  · obtain ⟨ps, hps, rfl⟩ := built_eq_ok h
    exact .sequence (normal_readMembers hchild hps)
  · rcases readForm_eq_ok h with h | h | h | h
    · unfold readAlternative at h
      split at h
      · cases h
      · obtain ⟨ps, hps, rfl⟩ := built_eq_ok h
        exact .alternative (normal_readMembers hchild hps)
    · unfold readInverse at h
      split at h
      · cases h
      · obtain ⟨q, hq, rfl⟩ := built_eq_ok h
        exact (hchild _ q hq).converse
    · exact normal_readRepetition hchild h
    · exact normal_readPredicate h

theorem normal_of_read (h : read g node = some (.ok p)) : p.Normal := by
  have hwithin : ∀ depth x p, readWithin g depth x = some (.ok p) → p.Normal := by
    intro depth
    induction depth with
    | zero => intro x p h; cases h
    | succ depth ih => exact fun x p h => normal_readLevel ih h
  exact hwithin _ node p h

end reading

/-- Rewriting a path ends, and gives its walk; a path turned around twice has the hops or the
failure of the path. A path that is read has inverses only around predicates, and so has its
converse; and such a path, turned around twice, is the same path. -/
theorem turned_twice (g : Graph) (p : Path) :
    (∃ levels, ∀ depth, levels ≤ depth → stepWithin g depth p = some (p.walk g)) ∧
      (∀ x, p.converse.converse.walk g x = p.walk g x) ∧
      (∀ node, read g node = some (.ok p) → p.Normal ∧ p.converse.Normal) ∧
      (p.Normal → p.converse.converse = p) := by
  refine ⟨⟨p.levels, fun depth h => stepWithin_eq g h⟩, walk_converse_converse g p,
    fun node h => ?_, Normal.converse_converse⟩
  have hnormal := normal_of_read h
  exact ⟨hnormal, hnormal.converse⟩

def backwardSteps : Graph :=
  [⟨.blank "p", Sh.inversePath, .blank "q", none⟩,
    ⟨.blank "q", Sh.zeroOrMorePath, .iri ⟨"next"⟩, none⟩]

theorem turned_twice_backwardSteps :
    read backwardSteps (.blank "p") = some (.ok (.zeroOrMore (.inverse (.predicate ⟨"next"⟩)))) ∧
      Normal (.zeroOrMore (.inverse (.predicate ⟨"next"⟩))) ∧
      Normal (converse (.zeroOrMore (.inverse (.predicate ⟨"next"⟩)))) ∧
      converse (converse (.zeroOrMore (.inverse (.predicate ⟨"next"⟩)))) =
        .zeroOrMore (.inverse (.predicate ⟨"next"⟩)) := by
  have hread : read backwardSteps (.blank "p") =
      some (.ok (.zeroOrMore (.inverse (.predicate ⟨"next"⟩)))) := by rfl
  obtain ⟨-, -, hnormal, htwice⟩ :=
    turned_twice backwardSteps (.zeroOrMore (.inverse (.predicate ⟨"next"⟩)))
  obtain ⟨h, hconverse⟩ := hnormal _ hread
  exact ⟨hread, h, hconverse, htwice h⟩

end Path
end ShaclExtract
