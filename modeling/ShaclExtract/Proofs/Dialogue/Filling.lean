import ShaclExtract.Proofs.Dialogue.Session
import ShaclExtract.Proofs.Memo.Contents

/-!
# ShaclExtract.Proofs.Dialogue.Filling

What a session puts in the slots of routines. A slot is filled when the program of its routine has
been run with a value, from a moment of the session at which the key had no slot
(`Setting.Filled`). If each value is as `T` says when it is put in its slot, then so are all values
at the end (`Setting.holds_of_invoke`).
-/

namespace ShaclExtract
namespace Setting

variable {S : Setting} {T : Memo → MemoKey → SlotId → Value → Prop} {start : Moment Shareable}
  {view₀ : View}

/-- The program of a routine was run for a key without slot, in state `s`, and ended with a value.
The value is to be put in the slot `s.memo.next`. -/
structure Filled (S : Setting) (start : Moment Shareable) (r : Routine) (view : View)
    (s s₁ : RunState) (v : Value) : Prop where
  bounded : s.memo.Bounded
  fresh : s.memo.lookup (.of (.routine r) view.focus) = none
  reached : ∃ next stack, S.repertoire.Steps start ⟨.share (.routine r) view next, stack, s⟩
  run : ∃ p depth, S.program? r = some p ∧
    p.extractor S .memoized (S.invoke .memoized depth) view
      { s with memo := s.memo.reserve (.of (.routine r) view.focus) } = some (.ok v, s₁)

namespace Filled

variable {r : Routine} {view : View} {s s₁ : RunState} {v : Value}

theorem extends_reserve (hS : S.Honest) (h : S.Filled start r view s s₁ v) :
    (s.memo.reserve (.of (.routine r) view.focus)).Extends s₁.memo := by
  obtain ⟨p, depth, hp, hrun⟩ := h.run
  exact extends_of_program hS (hS.programs r p hp) (fun name view' _ =>
    asked_extends hS depth name view') _ _ _ hrun ((Memo.extends_reserve h.fresh).bounded h.bounded)

theorem keptBy_settle (hS : S.Honest) (h : S.Filled start r view s s₁ v) :
    s₁.memo.KeptBy (s₁.memo.settle s.memo.next v) :=
  Memo.keptBy_settle (Memo.pending_of_extends_reserve (h.extends_reserve hS)) v

end Filled

/-- A run that is part of the session leaves a memo that holds what it did before. -/
def Carries (S : Setting) (T : Memo → MemoKey → SlotId → Value → Prop) (start : Moment Shareable)
    (name : Shareable) (view : View) (x : Extractor RunState View Value) : Prop :=
  ∀ s r s' next stack, S.repertoire.Steps start ⟨.share name view next, stack, s⟩ →
    x view s = some (r, s') → s.memo.Bounded → s.memo.Holds T → s'.memo.Holds T

theorem holds_of_program (hS : S.Honest) {p : Program} (hp : p.Honest) {view : View} {depth : Nat}
    (hasked : ∀ name view', p.Asks S view name view' →
      S.Carries T start name view' (S.asked (S.invoke .memoized depth) name))
    {s s₁ : RunState} {r : Except Failure Value} {stack : List (Frame Shareable)}
    (hreach : S.repertoire.Steps start ⟨p.dialogue S view, stack, s⟩)
    (h : p.extractor S .memoized (S.invoke .memoized depth) view s = some (r, s₁))
    (hs : s.memo.Bounded) (hold : s.memo.Holds T) : s₁.memo.Holds T := by
  have hd := p.represents_dialogue hS hp view
  rw [← hd.run] at h
  have hQ := Dialogue.run_preserves
    (Q := fun d s => d.AsksOnly p.ReadsPath (p.Asks S view) ∧
      S.repertoire.Steps start ⟨d, stack, s⟩ ∧ s.memo.Bounded ∧ s.memo.Holds T)
    (fun counter next s h => ⟨h.1 _, h.2.1.trans (.single rfl), h.2.2⟩)
    (fun v next s h => ⟨h.1 _, h.2.1.trans (.single rfl), h.2.2⟩)
    (fun name view' next s r s' h hi => by
      obtain ⟨⟨hname, hnext⟩, hsteps, hs, hold⟩ := h
      exact ⟨hnext r, hsteps.trans (simulates_asked hS depth name view' s r s' hi next stack),
        (asked_extends hS depth name view' s r s' hi hs).bounded hs,
        hasked name view' hname s r s' next stack hsteps hi hs hold⟩)
    h ⟨hd.asks, hreach, hs, hold⟩
  exact hQ.2.2.2

theorem carries_shared (hS : S.Honest) (hT : Memo.Lasting T) {p : Program} (hp : p.Honest)
    (name : Shareable) (hname : S.repertoire.dialogue? name = some (p.dialogue S)) {view : View}
    {depth : Nat}
    (hasked : ∀ name view', p.Asks S view name view' →
      S.Carries T start name view' (S.asked (S.invoke .memoized depth) name))
    (hvalue : ∀ s s₁ v next stack, s.memo.Bounded →
      s.memo.lookup (.of (S.repertoire.id name) view.focus) = none →
      S.repertoire.Steps start ⟨.share name view next, stack, s⟩ →
      p.extractor S .memoized (S.invoke .memoized depth) view
        { s with memo := s.memo.reserve (.of (S.repertoire.id name) view.focus) } =
          some (.ok v, s₁) → s₁.memo.Holds T →
        T (s₁.memo.settle s.memo.next v) (.of (S.repertoire.id name) view.focus) s.memo.next v) :
    S.Carries T start name view (Memo.shared (S.repertoire.id name)
      (p.extractor S .memoized (S.invoke .memoized depth))) := by
  intro s r s' next stack hreach h hs hold
  have hbody : Memo.Extending (p.extractor S .memoized (S.invoke .memoized depth) view) :=
    extends_of_program hS hp fun name view' _ => asked_extends hS depth name view'
  refine Memo.shared_holds hT hs hbody h hold fun r₁ s₁ hk hrun hres => ?_
  have hholds := holds_of_program hS hp hasked
    (hreach.trans (.single (Repertoire.step_share hname hk next stack))) hrun
    ((Memo.extends_reserve hk).bounded hs) hres
  refine ⟨hholds, ?_⟩
  rintro v rfl
  exact hvalue s s₁ v next stack hs hk hreach hrun hholds

theorem holds_of_asked (hS : S.Honest) (hT : Memo.Lasting T)
    (hpart : ∀ m number kind lexical slot v, T m ⟨.part number, kind, lexical⟩ slot v)
    (hvalue : ∀ r view s s₁ v, view₀.Near view → S.Filled start r view s s₁ v →
      s₁.memo.Holds T →
        T (s₁.memo.settle s.memo.next v) (.of (.routine r) view.focus) s.memo.next v)
    (depth : Nat) : ∀ name view, view₀.Near view →
      S.Carries T start name view (S.asked (S.invoke .memoized depth) name) := by
  have hparts : ∀ depth, (∀ r view, view₀.Near view →
      S.Carries T start (.routine r) view (S.invoke .memoized depth r)) →
      ∀ name view, view₀.Near view →
        S.Carries T start name view (S.asked (S.invoke .memoized depth) name) := by
    intro depth hr
    refine forall_shareable (S := S) (Q := fun name view => view₀.Near view →
      S.Carries T start name view (S.asked (S.invoke .memoized depth) name)) hr ?_
    intro number p hp view hasked hv
    exact carries_shared hS hT hp (.part number p hp) rfl
      (fun name view' hasks => hasked name view' hasks (hv.trans hasks.near))
      fun _ _ _ _ _ _ _ _ _ _ => hpart _ _ _ _ _ _
  induction depth with
  | zero =>
    refine hparts 0 fun r view _ => ?_
    intro s r s' next stack _ h
    cases h
  | succ depth ih =>
    refine hparts (depth + 1) fun r view hv => ?_
    cases hp : S.program? r with
    | none =>
      rw [invoke_of_none _ hp]
      intro s r s' next stack _ h _ hold
      cases h
      exact hold
    | some p =>
      rw [invoke_of_program _ hp]
      refine carries_shared hS hT (hS.programs r p hp) (.routine r)
        (repertoire_routine hp) (fun name view' hasks => ih name view' (hv.trans hasks.near)) ?_
      intro s s₁ v next stack hs hk hreach hrun hholds
      exact hvalue r view s s₁ v hv ⟨hs, hk, ⟨next, stack, hreach⟩, p, depth, hp, hrun⟩ hholds

/-- The memo at the end of a session that asks for one routine. -/
theorem holds_of_invoke (hS : S.Honest) (hT : Memo.Lasting T)
    (hpart : ∀ m number kind lexical slot v, T m ⟨.part number, kind, lexical⟩ slot v)
    {r : Routine} {view : View} {counters : Counters}
    (hvalue : ∀ r' view' s s₁ v, view.Near view' →
      S.Filled (.start (.share (.routine r) view .answer) counters) r' view' s s₁ v →
        s₁.memo.Holds T →
        T (s₁.memo.settle s.memo.next v) (.of (.routine r') view'.focus) s.memo.next v)
    {depth : Nat} {s' : RunState} {result : Except Failure Value}
    (h : S.invoke .memoized depth r view (.start counters) = some (result, s')) :
    s'.memo.Holds T :=
  holds_of_asked hS hT hpart hvalue depth (.routine r) view (.refl view) (.start counters) result s'
    .answer [] .refl h Memo.bounded_empty Memo.holds_empty

end Setting
end ShaclExtract
