import ShaclExtract.Proofs.Dialogue.Machine

/-!
# ShaclExtract.Proofs.Dialogue.Atomicity

A shared run is all or nothing. If it fails, the index is the one it found, every slot it found is
as it was, and every slot it added has failed; if it succeeds, it has only added to the memo, and
asking again gives the same reference without running anything.

Extractors need not be honest for this: it is enough that they use the memo only by sharing and
resolving, that is, that they are dialogues.
-/

namespace ShaclExtract

/-- What a shared run of `x` may have done to the memo of `s` when it ends. -/
structure Memo.AllOrNothing (id : ExtractorId) (x : Extractor RunState View Value) (view : View)
    (s : RunState) : Prop where
  failed : ∀ e s', Memo.shared id x view s = some (.error e, s') →
    s'.memo.index = s.memo.index ∧
      ∃ n, s'.memo.slots = s.memo.slots ++ List.replicate n .failed
  succeeded : ∀ v s', Memo.shared id x view s = some (.ok v, s') →
    (∀ key slot, s.memo.lookup key = some slot → s'.memo.lookup key = some slot) ∧
    (∃ added, s'.memo.slots = s.memo.slots ++ added) ∧
    ∃ slot, v = .ref slot ∧ s'.memo.lookup (.of id view.focus) = some slot ∧
      ∀ y, Memo.shared id y view s' = some (.ok v, s')

namespace Repertoire

variable {Λ : Type} {R : Repertoire Λ}

theorem length_failFrom (m : Memo) (start : SlotId) :
    (m.failFrom start).slots.length = m.slots.length := by
  simp only [Memo.failFrom, List.length_append, List.length_take, List.length_replicate]
  omega

theorem bounded_step {m m' : Moment Λ} (hstep : R.step m = some m')
    (h : m.state.memo.Bounded) : m'.state.memo.Bounded := by
  obtain ⟨current, stack, s⟩ := m
  cases current with
  | answer r =>
    cases stack with
    | nil => cases r <;> cases hstep
    | cons f stack =>
      cases r with
      | ok v =>
        cases hstep
        intro e he
        rw [Memo.slots_settle, List.length_set]
        exact h e he
      | error e =>
        cases hstep
        intro e he
        rw [length_failFrom]
        exact h e (List.mem_filter.1 he).1
  | endless => cases hstep; exact h
  | tick counter next => cases hstep; exact h
  | resolve v next => cases hstep; exact h
  | share name view next =>
    simp only [step] at hstep
    split at hstep
    · cases hstep; exact h
    · split at hstep
      · cases hstep; exact h
      · rename_i hk
        cases hstep
        exact (Memo.extends_reserve hk).bounded h

/-- At every moment of every session, a shared run of any dialogue is all or nothing. -/
theorem shared_allOrNothing {session : Dialogue Λ Value} {counters : Counters} {m : Moment Λ}
    (hm : R.Steps (.start session counters) m) (id : ExtractorId) (d : View → Dialogue Λ Value)
    (depth : Nat) (view : View) :
    Memo.AllOrNothing id (fun view => (d view).run (R.invoke depth)) view m.state := by
  have hs : m.state.memo.Bounded :=
    hm.preserves (fun _ _ => bounded_step) Memo.bounded_empty
  have hx : Memo.Extending ((d view).run (R.invoke depth)) :=
    Dialogue.run_extends (fun name view _ => R.invoke_extends depth name view)
      (d view).asksOnly_true
  constructor
  · intro e s' h
    exact Memo.shared_error hs hx h
  · intro v s' h
    have hext := Memo.shared_extends hx _ _ _ h hs
    obtain ⟨slot, rfl, hslot⟩ := Memo.shared_ok hs hx h
    refine ⟨fun key slot hk => hext.lookup hk, ?_, slot, rfl, hslot, ?_⟩
    · obtain ⟨added, _, heq, _⟩ := hext
      exact ⟨added, congrArg Memo.slots heq⟩
    · intro y
      exact Memo.shared_of_lookup y hslot

/-- One name shares the other and then fails; the other one gives a number. -/
def absorbing : Repertoire Bool where
  id name := .part (if name then 0 else 1)
  dialogue? name := some fun view =>
    if name then .share false view fun _ => .answer (.error .noAlternative)
    else .answer (.ok (.integer 1))
  unknown _ := .noAlternative

/-- A run that shares another result and then fails, inside a run that is not finished: both slots
are taken back and the pending slot before them stays. -/
theorem absorbing_shared_failed :
    ∃ (m : Moment Bool) (view : View) (s' : RunState),
      absorbing.Steps (.start (.share true view .answer) .empty) m ∧ m.stack.length = 1 ∧
      Memo.shared (.part 2)
          (fun view => (Dialogue.share false view fun _ =>
            .answer (.error .noAlternative)).run (absorbing.invoke 1))
          view m.state = some (.error .noAlternative, s') ∧
      s'.memo.index = m.state.memo.index ∧
      ∃ n, s'.memo.slots = m.state.memo.slots ++ List.replicate n .failed := by
  let view : View := ⟨.blank "a", []⟩
  have hm : absorbing.Steps (.start (.share true view .answer) .empty)
      ⟨.share false view fun _ => .answer (.error .noAlternative), [⟨⟨0⟩, .answer⟩],
        ⟨⟨[.pending], [(.of (.part 0) (.blank "a"), ⟨0⟩)]⟩, .empty⟩⟩ := .single rfl
  have hfail := (shared_allOrNothing hm (.part 2) (fun view => .share false view fun _ =>
    .answer (.error .noAlternative)) 1 view).failed .noAlternative
    ⟨⟨[.pending, .failed, .failed], [(.of (.part 0) (.blank "a"), ⟨0⟩)]⟩, .empty⟩ (by rfl)
  exact ⟨_, view, _, hm, rfl, by rfl, hfail⟩

end Repertoire
end ShaclExtract
