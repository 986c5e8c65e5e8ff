import ShaclExtract.Proofs.Dialogue.Basic

/-!
# ShaclExtract.Proofs.Dialogue.Machine

Runs of dialogues, step by step. A `Moment` of a run is the dialogue that is going on, the memo, and
a stack of the shared runs that are not finished: the slot of each and how the dialogue that asked
for it goes on. Nothing bounds the stack or the number of steps.

* `Steps R m m'`: the moment `m'` is reached from `m`.
* `Simulates`: every run of an extractor that ends is made of such steps. Running names with
  `Memo.shared` is of this kind (`simulates_invoke`), so whatever holds at every moment holds
  wherever a run of `Repertoire.invoke` passes.
-/

namespace ShaclExtract

/-- A shared run that is not finished. -/
structure Frame (Λ : Type) where
  slot : SlotId
  /-- How the dialogue that asked for the run goes on. -/
  next : Except Failure Value → Dialogue Λ Value

structure Moment (Λ : Type) where
  current : Dialogue Λ Value
  /-- Innermost run first. -/
  stack : List (Frame Λ)
  state : RunState

def Moment.start {Λ : Type} (session : Dialogue Λ Value) (counters : Counters) : Moment Λ :=
  ⟨session, [], .start counters⟩

namespace Repertoire

variable {Λ : Type}

/-- What happens next; nothing if the session has its answer. -/
def step (R : Repertoire Λ) : Moment Λ → Option (Moment Λ)
  | ⟨.answer _, [], _⟩ => none
  | ⟨.answer (.ok v), f :: stack, s⟩ =>
    some ⟨f.next (.ok (.ref f.slot)), stack, { s with memo := s.memo.settle f.slot v }⟩
  | ⟨.answer (.error e), f :: stack, s⟩ =>
    some ⟨f.next (.error e), stack, { s with memo := s.memo.failFrom f.slot }⟩
  | ⟨.endless, stack, s⟩ => some ⟨.endless, stack, s⟩
  | ⟨.tick counter next, stack, s⟩ =>
    some ⟨next (Strategy.memoized.tick s counter).1, stack,
      (Strategy.memoized.tick s counter).2⟩
  | ⟨.resolve v next, stack, s⟩ => some ⟨next (s.memo.resolve v), stack, s⟩
  | ⟨.share name view next, stack, s⟩ =>
    match R.dialogue? name with
    | none => some ⟨next (.error (R.unknown name)), stack, s⟩
    | some d =>
      match s.memo.lookup (.of (R.id name) view.focus) with
      | some slot => some ⟨next (.ok (.ref slot)), stack, s⟩
      | none =>
        some ⟨d view, ⟨s.memo.next, next⟩ :: stack,
          { s with memo := s.memo.reserve (.of (R.id name) view.focus) }⟩

inductive Steps (R : Repertoire Λ) : Moment Λ → Moment Λ → Prop where
  | refl {m : Moment Λ} : Steps R m m
  | cons {m m₁ m₂ : Moment Λ} : R.step m = some m₁ → Steps R m₁ m₂ → Steps R m m₂

variable {R : Repertoire Λ}

theorem Steps.single {m m₁ : Moment Λ} (h : R.step m = some m₁) : R.Steps m m₁ := .cons h .refl

theorem Steps.trans {m m₁ m₂ : Moment Λ} (h₁ : R.Steps m m₁) (h₂ : R.Steps m₁ m₂) :
    R.Steps m m₂ := by
  induction h₁ with
  | refl => exact h₂
  | cons hs _ ih => exact .cons hs (ih h₂)

theorem Steps.preserves {P : Moment Λ → Prop} (hP : ∀ m m', R.step m = some m' → P m → P m')
    {m m' : Moment Λ} (h : R.Steps m m') (hm : P m) : P m' := by
  induction h with
  | refl => exact hm
  | cons hs _ ih => exact ih (hP _ _ hs hm)

/-! ## runs that end -/

/-- Every run of the extractor that ends is a run of the named dialogue. -/
def Simulates (R : Repertoire Λ) (name : Λ) (view : View) (x : Extractor RunState View Value) :
    Prop :=
  ∀ s r s', x view s = some (r, s') → ∀ next stack,
    R.Steps ⟨.share name view next, stack, s⟩ ⟨next r, stack, s'⟩

theorem steps_run {invoke : Λ → Extractor RunState View Value} {hangs : Prop}
    {P : Λ → View → Prop} (hi : ∀ name view, P name view → R.Simulates name view (invoke name))
    {d : Dialogue Λ Value} (hd : d.AsksOnly hangs P) {s s' : RunState} {r : Except Failure Value}
    (h : d.run invoke s = some (r, s')) (stack : List (Frame Λ)) :
    R.Steps ⟨d, stack, s⟩ ⟨.answer r, stack, s'⟩ := by
  induction d generalizing s with
  | answer r₀ => cases h; exact .refl
  | endless => cases h
  | tick counter next ih => exact .cons rfl (ih _ (hd _) h)
  | resolve v next ih => exact .cons rfl (ih _ (hd _) h)
  | share name view next ih =>
    simp only [Dialogue.run] at h
    split at h
    · cases h
    · rename_i r₁ s₁ h₁
      exact (hi name view hd.1 _ _ _ h₁ next stack).trans (ih r₁ (hd.2 r₁) h)

theorem step_share {name : Λ} {view : View} {d : View → Dialogue Λ Value} {s : RunState}
    (hd : R.dialogue? name = some d) (hk : s.memo.lookup (.of (R.id name) view.focus) = none)
    (next : Except Failure Value → Dialogue Λ Value) (stack : List (Frame Λ)) :
    R.step ⟨.share name view next, stack, s⟩ =
      some ⟨d view, ⟨s.memo.next, next⟩ :: stack,
        { s with memo := s.memo.reserve (.of (R.id name) view.focus) }⟩ := by
  simp only [step, hd, hk]

theorem simulates_fail {name : Λ} (hn : R.dialogue? name = none) (view : View) :
    R.Simulates name view (.fail (R.unknown name)) := by
  intro s r s' h next stack
  cases h
  refine .single ?_
  simp only [step, hn]

/-- A shared run starts in a new frame, and the frame goes when it has its answer. -/
theorem simulates_shared {name : Λ} {view : View} {d : View → Dialogue Λ Value}
    {x : Extractor RunState View Value} (hd : R.dialogue? name = some d)
    (hx : ∀ s r s', x view s = some (r, s') → ∀ stack,
      R.Steps ⟨d view, stack, s⟩ ⟨.answer r, stack, s'⟩) :
    R.Simulates name view (Memo.shared (R.id name) x) := by
  intro s r s' h next stack
  obtain ⟨slot, hk, rfl, rfl⟩ | ⟨hk, r₁, s₁, hrun, hend⟩ := Memo.shared_cases h
  · refine .single ?_
    simp only [step, hd, hk]
  · refine .cons (step_share hd hk next stack) ((hx _ _ _ hrun _).trans (.single ?_))
    obtain ⟨v, rfl, rfl, rfl⟩ | ⟨e, rfl, rfl, rfl⟩ := hend
    · rfl
    · rfl

theorem simulates_invoke (R : Repertoire Λ) (depth : Nat) (name : Λ) (view : View) :
    R.Simulates name view (R.invoke depth name) := by
  induction depth generalizing name view with
  | zero => intro s r s' h; cases h
  | succ depth ih =>
    cases hd : R.dialogue? name with
    | none =>
      simp only [invoke, hd]
      exact simulates_fail hd view
    | some d =>
      simp only [invoke, hd]
      refine simulates_shared hd fun s r s' h stack => ?_
      exact steps_run (P := fun _ _ => True) (fun name view _ => ih name view)
        (Dialogue.asksOnly_true _) h stack

end Repertoire
end ShaclExtract
