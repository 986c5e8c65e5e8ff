import ShaclExtract.Proofs.Dialogue.Session
import Mathlib.Data.Finset.Card

/-!
# ShaclExtract.Proofs.Dialogue.Termination

Why shared runs end. Suppose that requests of some kind lead only to requests of the same kind, and
that their keys are in a finite set. A run that starts reserves a slot for its key, and a key has no
second unfinished run, so with each level of nesting fewer keys of the set are without a slot. Keys
that get free again, because a run has failed, were taken within that run and are not missed.

* `Contained.invoke_ends`: routines nested as deep as there are keys without a slot always end.
* `stack_length_le`: there are never more unfinished runs than keys.
-/

namespace ShaclExtract

namespace Memo

/-- The keys of a set that have no slot. -/
def missing (m : Memo) (K : Finset MemoKey) : Finset MemoKey := K.filter fun k => m.lookup k = none

theorem Extends.missing_subset {m m' : Memo} (h : m.Extends m') (K : Finset MemoKey) :
    m'.missing K ⊆ m.missing K := by
  intro k hk
  obtain ⟨hmem, hnone⟩ := Finset.mem_filter.1 hk
  exact Finset.mem_filter.2 ⟨hmem, h.lookup_none hnone⟩

theorem missing_reserve_lt {m : Memo} {key : MemoKey} {K : Finset MemoKey}
    (hk : m.lookup key = none) (hmem : key ∈ K) :
    ((m.reserve key).missing K).card < (m.missing K).card := by
  refine Finset.card_lt_card (Finset.ssubset_iff_subset_ne.2 ⟨?_, fun heq => ?_⟩)
  · exact (extends_reserve hk).missing_subset K
  · have hin : key ∈ (m.reserve key).missing K := by
      rw [heq]
      exact Finset.mem_filter.2 ⟨hmem, hk⟩
    have hnone := (Finset.mem_filter.1 hin).2
    rw [lookup_reserve, if_pos rfl] at hnone
    cases hnone

theorem shared_ends {id : ExtractorId} {x : Extractor RunState View Value} {view : View}
    {s : RunState}
    (hx : s.memo.lookup (.of id view.focus) = none →
      ∃ r s', x view { s with memo := s.memo.reserve (.of id view.focus) } = some (r, s')) :
    ∃ r s', shared id x view s = some (r, s') := by
  simp only [shared]
  cases hk : s.memo.lookup (.of id view.focus) with
  | some slot => exact ⟨_, _, rfl⟩
  | none =>
    obtain ⟨r, s', hrun⟩ := hx hk
    rw [hrun]
    cases r with
    | ok v => exact ⟨_, _, rfl⟩
    | error e => exact ⟨_, _, rfl⟩

end Memo

/-- A dialogue ends if everything it may ask for does, whatever was shared in between. -/
theorem Dialogue.run_ends {Λ ο : Type} {invoke : Λ → Extractor RunState View Value}
    {P : Λ → View → Prop} {K : Finset MemoKey} {n : Nat}
    (hext : ∀ name view, P name view → Memo.Extending (invoke name view))
    (hi : ∀ name view, P name view → ∀ s, s.memo.Bounded → (s.memo.missing K).card ≤ n →
      ∃ r s', invoke name view s = some (r, s'))
    {d : Dialogue Λ ο} (hd : d.AsksOnly False P) {s : RunState} (hs : s.memo.Bounded)
    (hn : (s.memo.missing K).card ≤ n) : ∃ r s', d.run invoke s = some (r, s') := by
  induction d generalizing s with
  | answer r => exact ⟨r, s, rfl⟩
  | endless => exact hd.elim
  | tick counter next ih => exact ih _ (hd _) (s := (Strategy.memoized.tick s counter).2) hs hn
  | resolve v next ih => exact ih _ (hd _) hs hn
  | share name view next ih =>
    obtain ⟨r, s₁, h₁⟩ := hi name view hd.1 s hs hn
    have hgrown := hext name view hd.1 s r s₁ h₁ hs
    obtain ⟨r', s', h'⟩ := ih r (hd.2 r) (s := s₁) (hgrown.bounded hs)
      ((Finset.card_le_card (hgrown.missing_subset K)).trans hn)
    refine ⟨r', s', ?_⟩
    simp only [run, h₁]
    exact h'

/-- Requests of a kind lead only to requests of this kind, none of which reads a path, and their
keys are in a set. -/
structure Setting.Closed (S : Setting) (Q : Routine → View → Prop) (K : Finset MemoKey) :
    Prop where
  reads : ∀ r p view, S.program? r = some p → Q r view → ¬ p.ReadsPath
  asks : ∀ r p view, S.program? r = some p → Q r view → ∀ name view', p.Asks S view name view' →
    ∃ r', name = .routine r' ∧ Q r' view'
  keys : ∀ r p view, S.program? r = some p → Q r view → .of (.routine r) view.focus ∈ K

/-- The kind as one of names. -/
def OfRoutine (Q : Routine → View → Prop) (name : Shareable) (view : View) : Prop :=
  ∃ r, name = .routine r ∧ Q r view

namespace Setting

variable {S : Setting} {Q : Routine → View → Prop} {K : Finset MemoKey}

theorem Closed.asksOnly (hC : S.Closed Q K) (hS : S.Honest) {r : Routine} {p : Program}
    {view : View} (hp : S.program? r = some p) (hq : Q r view) :
    (p.dialogue S view).AsksOnly False (OfRoutine Q) :=
  (p.represents_dialogue hS (hS.programs r p hp) view).asks.mono (hC.reads r p view hp hq)
    (hC.asks r p view hp hq)

/-- Programs of a kind of requests end if requests do, ask for requests of this kind, and have their
keys in a set. -/
structure Contained (S : Setting) (Q : Routine → View → Prop) (K : Finset MemoKey) : Prop where
  represented : ∀ r p view, S.program? r = some p → Q r view →
    S.Represented False (OfRoutine Q) [] Value.refs fun i => p.extractor S .memoized i view
  keys : ∀ r p view, S.program? r = some p → Q r view → .of (.routine r) view.focus ∈ K

theorem Closed.contained (hC : S.Closed Q K) (hS : S.Honest) : S.Contained Q K where
  represented r p view hp hq :=
    (p.represented hS view (hS.programs r p hp)).mono (hC.reads r p view hp hq)
      (hC.asks r p view hp hq) (List.Subset.refl _)
  keys := hC.keys

/-- Routines end if they may be nested as deep as there are keys without a slot. -/
theorem Contained.invoke_ends (hS : S.Honest) (hC : S.Contained Q K) (depth : Nat) :
    ∀ r view, Q r view → ∀ s : RunState, s.memo.Bounded → (s.memo.missing K).card < depth →
      ∃ r' s', S.invoke .memoized depth r view s = some (r', s') := by
  induction depth with
  | zero => intro r view _ s _ hn; omega
  | succ depth ih =>
    intro r view hq s hs hn
    cases hp : S.program? r with
    | none =>
      rw [invoke_of_none _ hp]
      exact ⟨_, _, rfl⟩
    | some p =>
      rw [invoke_of_program _ hp]
      refine Memo.shared_ends fun hk => ?_
      obtain ⟨d, hd⟩ := hC.represented r p view hp hq
      rw [← hd.run]
      have hlt := Memo.missing_reserve_lt hk (hC.keys r p view hp hq)
      refine Dialogue.run_ends (K := K) (n := depth - 1)
        (fun name view' _ => asked_extends hS depth name view') ?_ hd.asks
        ((Memo.extends_reserve hk).bounded hs) (by dsimp only; omega)
      rintro name view' ⟨r', rfl, hq'⟩ s' hs' hn'
      exact ih r' view' hq' s' hs' (by omega)

theorem session_ends (hS : S.Honest) (hC : S.Closed Q K) {ο : Type} {d : Dialogue Shareable ο}
    (hd : d.AsksOnly False (OfRoutine Q)) {depth : Nat} (hK : K.card < depth)
    (counters : Counters) :
    ∃ r s', d.run (S.asked (S.invoke .memoized depth)) (.start counters) = some (r, s') := by
  have hle : (Memo.empty.missing K).card ≤ K.card := Finset.card_le_card (Finset.filter_subset _ _)
  refine Dialogue.run_ends (fun name view' _ => asked_extends hS depth name view') ?_ hd
    Memo.bounded_empty hle
  rintro name view ⟨r, rfl, hq⟩ s hs hn
  exact (hC.contained hS).invoke_ends hS depth r view hq s hs (by omega)

theorem run_ends (hS : S.Honest) (hC : S.Closed Q K) {ο : Type} {known : List SlotId}
    {outputRefs : ο → List SlotId} {x : Invoke → Action RunState ο}
    (hx : S.Represented False (OfRoutine Q) known outputRefs x) {depth : Nat} (hK : K.card < depth)
    (counters : Counters) :
    ∃ r s', x (S.invoke .memoized depth) (.start counters) = some (r, s') := by
  obtain ⟨d, hd⟩ := hx
  rw [← hd.run]
  exact session_ends hS hC hd.asks hK counters

end Setting

/-! ## unfinished runs -/

variable {Λ : Type} {R : Repertoire Λ} {P : Λ → View → Prop} {K : Finset MemoKey}

/-- Whatever goes on or waits asks only for what is allowed, and all keys are in a set. -/
structure Moment.Asking (P : Λ → View → Prop) (K : Finset MemoKey) (m : Moment Λ) : Prop where
  current : m.current.AsksOnly False P
  waiting : ∀ f ∈ m.stack, ∀ r, (f.next r).AsksOnly False P
  keys : ∀ e ∈ m.state.memo.index, e.1 ∈ K

namespace Moment.Asking

theorem start {session : Dialogue Λ Value} (hs : session.AsksOnly False P) (counters : Counters) :
    (Moment.start session counters).Asking P K where
  current := hs
  waiting f hf := by cases hf
  keys e he := by cases he

theorem pop {current : Dialogue Λ Value} {f : Frame Λ} {stack : List (Frame Λ)} {s s' : RunState}
    (h : (⟨current, f :: stack, s⟩ : Moment Λ).Asking P K) (r : Except Failure Value)
    (hs : s'.memo.index ⊆ s.memo.index) :
    (⟨f.next r, stack, s'⟩ : Moment Λ).Asking P K where
  current := h.waiting f List.mem_cons_self r
  waiting g hg := h.waiting g (List.mem_cons_of_mem _ hg)
  keys e he := h.keys e (hs he)

theorem step (hR : ∀ name d view, R.dialogue? name = some d → P name view →
      (d view).AsksOnly False P ∧ .of (R.id name) view.focus ∈ K)
    {m m' : Moment Λ} (hstep : R.step m = some m') (h : m.Asking P K) : m'.Asking P K := by
  obtain ⟨current, stack, s⟩ := m
  cases current with
  | answer r =>
    cases stack with
    | nil => cases r <;> cases hstep
    | cons f stack =>
      cases r with
      | ok v => cases hstep; exact h.pop _ fun e he => he
      | error e => cases hstep; exact h.pop _ fun e he => (List.mem_filter.1 he).1
  | endless => exact h.current.elim
  | tick counter next => cases hstep; exact ⟨h.current _, h.waiting, h.keys⟩
  | resolve v next => cases hstep; exact ⟨h.current _, h.waiting, h.keys⟩
  | share name view next =>
    obtain ⟨hname, hnext⟩ := h.current
    simp only [Repertoire.step] at hstep
    split at hstep
    · cases hstep
      exact ⟨hnext _, h.waiting, h.keys⟩
    · rename_i d hd
      obtain ⟨hbody, hkey⟩ := hR name d view hd hname
      split at hstep
      · cases hstep
        exact ⟨hnext _, h.waiting, h.keys⟩
      · cases hstep
        refine ⟨hbody, fun f hf => ?_, fun e he => ?_⟩
        · rcases List.mem_cons.1 hf with rfl | hf
          · exact hnext
          · exact h.waiting f hf
        · rcases List.mem_cons.1 he with rfl | he
          · exact hkey
          · exact h.keys e he

end Moment.Asking

/-- Unfinished runs have different slots, slots have different keys, and keys are in the set. -/
theorem Moment.Intact.stack_length_le {m : Moment Λ} (h : m.Intact)
    (hk : ∀ e ∈ m.state.memo.index, e.1 ∈ K) : m.stack.length ≤ K.card := by
  have hslots : (m.stack.map Frame.slot).Nodup := by
    refine List.pairwise_map.2 (h.ordered.imp fun hlt heq => ?_)
    rw [heq] at hlt
    exact Nat.lt_irrefl _ hlt
  have hsub : (m.stack.map Frame.slot).toFinset ⊆
      (m.state.memo.index.map Prod.snd).toFinset := by
    intro id hid
    rw [List.mem_toFinset] at hid ⊢
    rw [h.sound.indexed]
    obtain ⟨f, hf, rfl⟩ := List.mem_map.1 hid
    exact ⟨.pending, (h.pending f.slot).2 ⟨f, hf, rfl⟩, by simp⟩
  have hkeys : (m.state.memo.index.map Prod.fst).toFinset ⊆ K := by
    intro k hmem
    obtain ⟨e, he, rfl⟩ := List.mem_map.1 (List.mem_toFinset.1 hmem)
    exact hk e he
  calc m.stack.length
      = (m.stack.map Frame.slot).toFinset.card := by
        rw [List.toFinset_card_of_nodup hslots, List.length_map]
    _ ≤ (m.state.memo.index.map Prod.snd).toFinset.card := Finset.card_le_card hsub
    _ = (m.state.memo.index.map Prod.fst).toFinset.card := by
        rw [List.toFinset_card_of_nodup h.sound.slots, List.toFinset_card_of_nodup h.sound.keys,
          List.length_map, List.length_map]
    _ ≤ K.card := Finset.card_le_card hkeys

/-- At no moment of a session are there more unfinished runs than keys. -/
theorem Setting.Closed.stack_length_le {S : Setting} {Q : Routine → View → Prop}
    (hC : S.Closed Q K) (hS : S.Honest) {session : Dialogue Shareable Value}
    (hhonest : session.Honest Value.refs []) (hasks : session.AsksOnly False (OfRoutine Q))
    {counters : Counters} {m : Moment Shareable}
    (hm : S.repertoire.Steps (.start session counters) m) : m.stack.length ≤ K.card := by
  refine (Moment.Intact.of_steps (repertoire_honest hS) hhonest hm).stack_length_le ?_
  have hstep : ∀ m m', S.repertoire.step m = some m' → m.Asking (OfRoutine Q) K →
      m'.Asking (OfRoutine Q) K := by
    intro m m' hstep h
    refine h.step ?_ hstep
    rintro name d view hd ⟨r, rfl, hq⟩
    obtain ⟨p, hp, rfl⟩ := Option.map_eq_some_iff.1 hd
    exact ⟨hC.asksOnly hS hp hq, hC.keys r p view hp hq⟩
  exact (hm.preserves hstep (.start hasks counters)).keys

/-- A session that asks for one routine comes to an answer, whatever depth it takes. -/
theorem Setting.Closed.routine_ends {S : Setting} {Q : Routine → View → Prop}
    (hC : S.Closed Q K) (hS : S.Honest) {r : Routine} {view : View} (hq : Q r view)
    (counters : Counters) :
    (∃ result s, S.repertoire.Steps
      (.start (.share (.routine r) view .answer) counters) ⟨.answer result, [], s⟩) ∧
    ∀ m, S.repertoire.Steps (.start (.share (.routine r) view .answer) counters) m →
      m.stack.length ≤ K.card := by
  have hasks : (Dialogue.share (.routine r) view .answer :
      Dialogue Shareable Value).AsksOnly False (OfRoutine Q) :=
    ⟨⟨r, rfl, hq⟩, fun _ => trivial⟩
  constructor
  · obtain ⟨result, s, hrun⟩ := session_ends hS hC hasks (Nat.lt_succ_self K.card) counters
    exact ⟨result, s, steps_of_run hS hasks hrun []⟩
  · exact fun m hm => hC.stack_length_le hS (Dialogue.honest_share _ view []) hasks hm

end ShaclExtract
