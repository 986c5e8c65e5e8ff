import ShaclExtract.Proofs.Dialogue.Integrity
import ShaclExtract.Proofs.Dialogue.Programs

/-!
# ShaclExtract.Proofs.Dialogue.Session

Runs of programs as sessions of dialogues. In the repertoire of a setting, routines and parts of
programs stand for dialogues that do the same as the programs. Every run of a routine that ends is
then made of steps of the machine (`simulates_asked`), and so is every run of a dialogue that asks
for routines (`steps_of_run`).
-/

namespace ShaclExtract

instance {Λ ο : Type} : Nonempty (Dialogue Λ ο) := ⟨.endless⟩

namespace Program

noncomputable def dialogue (S : Setting) (p : Program) (view : View) : Dialogue Shareable Value :=
  Classical.epsilon fun d =>
    S.Represents p.ReadsPath (p.Asks S view) [] Value.refs
      (fun i => p.extractor S .memoized i view) d

theorem represents_dialogue {S : Setting} (hS : S.Honest) {p : Program} (hp : p.Honest)
    (view : View) :
    S.Represents p.ReadsPath (p.Asks S view) [] Value.refs
      (fun i => p.extractor S .memoized i view) (p.dialogue S view) :=
  Classical.epsilon_spec (represented hS p view hp)

end Program

namespace Setting

noncomputable def repertoire (S : Setting) : Repertoire Shareable where
  id
    | .routine r => .routine r
    | .part number _ _ => .part number
  dialogue?
    | .routine r => (S.program? r).map (Program.dialogue S)
    | .part _ p _ => some (p.dialogue S)
  unknown
    | .routine r => r.unknown
    | .part _ _ _ => .noAlternative

variable {S : Setting}

theorem invoke_of_none {σ : Type} (E : Strategy σ) {r : Routine}
    (hp : S.program? r = none) (depth : Nat) :
    S.invoke E (depth + 1) r = .fail r.unknown := by simp only [invoke, hp]

theorem invoke_of_program {σ : Type} (E : Strategy σ) {r : Routine} {p : Program}
    (hp : S.program? r = some p) (depth : Nat) :
    S.invoke E (depth + 1) r = E.share (.routine r) (p.extractor S E (S.invoke E depth)) := by
  simp only [invoke, hp]

theorem repertoire_routine {r : Routine} {p : Program} (h : S.program? r = some p) :
    S.repertoire.dialogue? (.routine r) = some (p.dialogue S) := by
  simp only [repertoire, h, Option.map_some]

theorem repertoire_routine_none {r : Routine} (h : S.program? r = none) :
    S.repertoire.dialogue? (.routine r) = none := by
  simp only [repertoire, h, Option.map_none]

theorem repertoire_honest (hS : S.Honest) : S.repertoire.Honest := by
  intro name d hd view
  cases name with
  | routine r =>
    cases hp : S.program? r with
    | none =>
      rw [repertoire_routine_none hp] at hd
      cases hd
    | some p =>
      rw [repertoire_routine hp] at hd
      cases hd
      exact (p.represents_dialogue hS (hS.programs r p hp) view).honest
  | part number p hp =>
    cases hd
    exact (p.represents_dialogue hS hp view).honest

/-! ## runs of programs as steps -/

/-- A run of a program is a run of its dialogue, if what the program asks for is simulated. -/
theorem steps_of_program (hS : S.Honest) {invoke : Invoke} {p : Program} (hp : p.Honest)
    {view : View}
    (hasked : ∀ name view', p.Asks S view name view' →
      S.repertoire.Simulates name view' (S.asked invoke name))
    {s s' : RunState} {r : Except Failure Value}
    (h : p.extractor S .memoized invoke view s = some (r, s')) (stack : List (Frame Shareable)) :
    S.repertoire.Steps ⟨p.dialogue S view, stack, s⟩ ⟨.answer r, stack, s'⟩ := by
  have hd := p.represents_dialogue hS hp view
  rw [← hd.run invoke] at h
  exact Repertoire.steps_run hasked hd.asks h stack

/-- What holds of the routines holds of all names, if it holds of a part whenever it holds of what
the part asks for. -/
theorem forall_shareable {Q : Shareable → View → Prop} (hr : ∀ r view, Q (.routine r) view)
    (hpart : ∀ number (p : Program) (hp : p.Honest) view,
      (∀ name view', p.Asks S view name view' → Q name view') → Q (.part number p hp) view) :
    ∀ name view, Q name view := by
  -- parts are smaller than the programs that share them
  have hsmall : ∀ size number (p : Program) (hp : p.Honest), sizeOf p < size → ∀ view,
      Q (.part number p hp) view := by
    intro size
    induction size with
    | zero => intro number p hp hlt; omega
    | succ size ih =>
      intro number p hp hlt view
      refine hpart number p hp view fun name view' hasks => ?_
      cases name with
      | routine r => exact hr r view'
      | part number' q hq =>
        have := hasks.sizeOf_part_lt number' q hq rfl
        exact ih number' q hq (by omega) view'
  intro name view
  cases name with
  | routine r => exact hr r view
  | part number p hp => exact hsmall (sizeOf p + 1) number p hp (by omega) view

theorem simulates_of_routines (hS : S.Honest) {invoke : Invoke}
    (hr : ∀ r view, S.repertoire.Simulates (.routine r) view (invoke r)) :
    ∀ name view, S.repertoire.Simulates name view (S.asked invoke name) := by
  refine forall_shareable (S := S) hr fun number p hp view hasks => ?_
  exact Repertoire.simulates_shared (d := p.dialogue S) rfl fun s r s' h stack =>
    steps_of_program hS hp hasks h stack

theorem simulates_asked (hS : S.Honest) (depth : Nat) :
    ∀ name view, S.repertoire.Simulates name view (S.asked (S.invoke .memoized depth) name) := by
  induction depth with
  | zero =>
    refine simulates_of_routines hS fun r view => ?_
    intro s r s' h
    cases h
  | succ depth ih =>
    refine simulates_of_routines hS fun r view => ?_
    cases hp : S.program? r with
    | none =>
      rw [invoke_of_none _ hp]
      exact Repertoire.simulates_fail (repertoire_routine_none hp) view
    | some p =>
      rw [invoke_of_program _ hp]
      refine Repertoire.simulates_shared (repertoire_routine hp) fun s r s' h stack => ?_
      exact steps_of_program hS (hS.programs _ p hp) (fun name view' _ => ih name view') h stack

theorem steps_of_run (hS : S.Honest) {hangs : Prop} {P : Shareable → View → Prop}
    {d : Dialogue Shareable Value} (hd : d.AsksOnly hangs P) {depth : Nat} {s s' : RunState}
    {r : Except Failure Value} (h : d.run (S.asked (S.invoke .memoized depth)) s = some (r, s'))
    (stack : List (Frame Shareable)) :
    S.repertoire.Steps ⟨d, stack, s⟩ ⟨.answer r, stack, s'⟩ :=
  Repertoire.steps_run (fun name view _ => simulates_asked hS depth name view) hd h stack

/-! ## effect on the memo -/

theorem extends_of_program (hS : S.Honest) {invoke : Invoke} {p : Program} (hp : p.Honest)
    {view : View}
    (hasked : ∀ name view', p.Asks S view name view' → Memo.Extending (S.asked invoke name view')) :
    Memo.Extending (p.extractor S .memoized invoke view) := by
  have hd := p.represents_dialogue hS hp view
  rw [← hd.run invoke]
  exact Dialogue.run_extends hasked hd.asks

theorem extends_of_routines (hS : S.Honest) {invoke : Invoke}
    (hr : ∀ r view, Memo.Extending (invoke r view)) :
    ∀ name view, Memo.Extending (S.asked invoke name view) :=
  forall_shareable hr fun _ _ hp _ hasks =>
    Memo.shared_extends (extends_of_program hS hp hasks)

theorem asked_extends (hS : S.Honest) (depth : Nat) :
    ∀ name view, Memo.Extending (S.asked (S.invoke .memoized depth) name view) := by
  induction depth with
  | zero => exact extends_of_routines hS fun r view s r' s' h => by cases h
  | succ depth ih =>
    refine extends_of_routines hS fun r view => ?_
    cases hp : S.program? r with
    | none =>
      rw [invoke_of_none _ hp]
      intro s r s' h _
      cases h
      exact .refl _
    | some p =>
      rw [invoke_of_program _ hp]
      exact Memo.shared_extends (extends_of_program hS (hS.programs r p hp)
        fun name view' _ => ih name view')

/-- What a run from an empty memo leaves behind when it ends. -/
theorem intact_of_run (hS : S.Honest) {hangs : Prop} {P : Shareable → View → Prop}
    {x : Invoke → Action RunState Value} (hx : S.Represented hangs P [] Value.refs x) {depth : Nat}
    {counters : Counters} {s' : RunState} {r : Except Failure Value}
    (h : x (S.invoke .memoized depth) (.start counters) = some (r, s')) :
    (⟨.answer r, [], s'⟩ : Moment Shareable).Intact := by
  obtain ⟨d, hd⟩ := hx
  rw [← hd.run] at h
  exact .of_steps (repertoire_honest hS) hd.honest (steps_of_run hS hd.asks h [])

/-- Every reference met from the value of such a run leads to a value. -/
theorem ready_of_run (hS : S.Honest) {hangs : Prop} {P : Shareable → View → Prop}
    {x : Invoke → Action RunState Value} (hx : S.Represented hangs P [] Value.refs x) {depth : Nat}
    {counters : Counters} {s' : RunState} {v : Value}
    (h : x (S.invoke .memoized depth) (.start counters) = some (.ok v, s')) {slot : SlotId}
    (hslot : s'.memo.Leads v slot) : ∃ w, s'.memo.slot? slot = some (.ready w) := by
  have hm := intact_of_run hS hx h
  obtain ⟨known, hv, hknown⟩ := hm.current
  exact hm.ready_of_leads rfl (fun t ht => hknown t (hv ht)) hslot

end Setting
end ShaclExtract
