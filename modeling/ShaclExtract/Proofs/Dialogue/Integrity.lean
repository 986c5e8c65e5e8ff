import ShaclExtract.Proofs.Dialogue.Machine

/-!
# ShaclExtract.Proofs.Dialogue.Integrity

What holds at every moment of a run of honest extractors: the memo is sound, the pending slots are
those of the runs that are not finished, and inner runs have later slots (`Moment.Intact`).

The part that carries the proof is about order. While a slot is pending, the ready slots before it
were settled before it was reserved, so they refer only to older slots; and what a waiting dialogue
knows is older than the slot of the run it waits for. When that run is taken back, together with all
later slots, neither refers to anything that goes.
-/

namespace ShaclExtract

variable {Λ : Type} {R : Repertoire Λ}

structure Moment.Intact (m : Moment Λ) : Prop where
  sound : m.state.memo.Sound
  /-- The pending slots are those of unfinished runs. -/
  pending : ∀ id, m.state.memo.slot? id = some .pending ↔ ∃ f ∈ m.stack, f.slot = id
  /-- Inner runs have later slots. -/
  ordered : m.stack.Pairwise fun f g => g.slot.index < f.slot.index
  settled : ∀ f ∈ m.stack, m.state.memo.Settled f.slot
  current : ∃ known, m.current.Honest Value.refs known ∧ ∀ t ∈ known, m.state.memo.Live t
  waiting : ∀ f ∈ m.stack, ∃ known,
    (∀ r, (f.next r).Honest Value.refs (resultRefs r ++ known)) ∧
    ∀ t ∈ known, m.state.memo.Live t ∧ t.index < f.slot.index

namespace Moment.Intact

theorem start {session : Dialogue Λ Value} (hs : session.Honest Value.refs [])
    (counters : Counters) : (Moment.start session counters).Intact where
  sound := Memo.sound_empty
  pending id := by simp [Moment.start, RunState.start, Memo.slot?, Memo.empty]
  ordered := .nil
  settled f hf := by cases hf
  current := ⟨[], hs, by simp⟩
  waiting f hf := by cases hf

theorem live_slot {current : Dialogue Λ Value} {f : Frame Λ} {stack : List (Frame Λ)}
    {s : RunState} (h : (⟨current, f :: stack, s⟩ : Moment Λ).Intact) : s.memo.Live f.slot :=
  ⟨.pending, (h.pending f.slot).2 ⟨f, List.mem_cons_self, rfl⟩, by simp⟩

theorem slot_lt {current : Dialogue Λ Value} {f g : Frame Λ} {stack : List (Frame Λ)}
    {s : RunState} (h : (⟨current, f :: stack, s⟩ : Moment Λ).Intact) (hg : g ∈ stack) :
    g.slot.index < f.slot.index := (List.pairwise_cons.1 h.ordered).1 g hg

theorem settle {v : Value} {f : Frame Λ} {stack : List (Frame Λ)} {s : RunState}
    (h : (⟨.answer (.ok v), f :: stack, s⟩ : Moment Λ).Intact) :
    (⟨f.next (.ok (.ref f.slot)), stack, { s with memo := s.memo.settle f.slot v }⟩ :
      Moment Λ).Intact := by
  have hlive := h.live_slot
  obtain ⟨known, hhon, hknown⟩ := h.current
  refine ⟨h.sound.settle hlive fun t ht => hknown t (hhon ht), ?_, h.ordered.tail, ?_, ?_, ?_⟩
  · intro id
    rw [Memo.slot?_settle hlive.lt]
    by_cases hid : id = f.slot
    · subst hid
      simp only [if_true]
      constructor
      · intro hr
        cases hr
      · rintro ⟨g, hg, heq⟩
        have := h.slot_lt hg
        rw [heq] at this
        omega
    · rw [if_neg hid, h.pending]
      simp [Ne.symm hid]
  · intro g hg r w hr hlt t ht
    rw [Memo.slot?_settle hlive.lt] at hr
    have := h.slot_lt hg
    split at hr
    · rename_i heq
      subst heq
      omega
    · exact h.settled g (List.mem_cons_of_mem _ hg) r w hr hlt t ht
  · obtain ⟨known, hnext, hold⟩ := h.waiting f List.mem_cons_self
    refine ⟨_, hnext (.ok (.ref f.slot)), ?_⟩
    intro t ht
    rw [Memo.live_settle hlive]
    rcases List.mem_append.1 ht with ht | ht
    · rw [resultRefs, Value.refs_ref, List.mem_singleton] at ht
      subst ht
      exact hlive
    · exact (hold t ht).1
  · intro g hg
    obtain ⟨known, hnext, hold⟩ := h.waiting g (List.mem_cons_of_mem _ hg)
    exact ⟨known, hnext, fun t ht => ⟨(Memo.live_settle hlive v t).2 (hold t ht).1, (hold t ht).2⟩⟩

theorem failFrom {e : Failure} {f : Frame Λ} {stack : List (Frame Λ)} {s : RunState}
    (h : (⟨.answer (.error e), f :: stack, s⟩ : Moment Λ).Intact) :
    (⟨f.next (.error e), stack, { s with memo := s.memo.failFrom f.slot }⟩ :
      Moment Λ).Intact := by
  have hle := Nat.le_of_lt h.live_slot.lt
  refine ⟨h.sound.failFrom hle (h.settled f List.mem_cons_self), ?_, h.ordered.tail, ?_, ?_, ?_⟩
  · intro id
    rw [Memo.slot?_failFrom hle]
    by_cases hid : id.index < f.slot.index
    · rw [if_pos hid, h.pending]
      have hne : f.slot ≠ id := by
        rintro rfl
        omega
      simp [hne]
    · rw [if_neg hid]
      constructor
      · intro hr
        split at hr <;> cases hr
      · rintro ⟨g, hg, heq⟩
        have := h.slot_lt hg
        rw [heq] at this
        omega
  · intro g hg r w hr hlt t ht
    rw [Memo.slot?_failFrom hle] at hr
    split at hr
    · exact h.settled g (List.mem_cons_of_mem _ hg) r w hr hlt t ht
    · split at hr <;> cases hr
  · obtain ⟨known, hnext, hold⟩ := h.waiting f List.mem_cons_self
    exact ⟨known, hnext (.error e), fun t ht => (Memo.live_failFrom hle t).2 (hold t ht)⟩
  · intro g hg
    have hlt := h.slot_lt hg
    obtain ⟨known, hnext, hold⟩ := h.waiting g (List.mem_cons_of_mem _ hg)
    refine ⟨known, hnext, fun t ht => ⟨?_, (hold t ht).2⟩⟩
    exact (Memo.live_failFrom hle t).2 ⟨(hold t ht).1, Nat.lt_trans (hold t ht).2 hlt⟩

theorem reserve {name : Λ} {view : View} {next : Except Failure Value → Dialogue Λ Value}
    {stack : List (Frame Λ)} {s : RunState} {body : Dialogue Λ Value} {key : MemoKey}
    (h : (⟨.share name view next, stack, s⟩ : Moment Λ).Intact)
    (hbody : body.Honest Value.refs []) (hk : s.memo.lookup key = none) :
    (⟨body, ⟨s.memo.next, next⟩ :: stack, { s with memo := s.memo.reserve key }⟩ :
      Moment Λ).Intact := by
  have hready : ∀ r w, (s.memo.reserve key).slot? r = some (.ready w) →
      s.memo.slot? r = some (.ready w) := by
    intro r w hr
    rw [Memo.slot?_reserve] at hr
    split at hr
    · cases hr
    · exact hr
  refine ⟨h.sound.reserve hk, ?_, ?_, ?_, ⟨[], hbody, by simp⟩, ?_⟩
  · intro id
    rw [Memo.slot?_reserve]
    by_cases hid : id = s.memo.next
    · simp [hid]
    · rw [if_neg hid, h.pending]
      simp [Ne.symm hid]
  · refine List.pairwise_cons.2 ⟨fun g hg => ?_, h.ordered⟩
    exact Memo.Live.lt ⟨.pending, (h.pending g.slot).2 ⟨g, hg, rfl⟩, by simp⟩
  · intro g hg r w hr hlt t ht
    rcases List.mem_cons.1 hg with rfl | hg
    · exact (h.sound.closed r w (hready r w hr) t ht).lt
    · exact h.settled g hg r w (hready r w hr) hlt t ht
  · intro g hg
    rcases List.mem_cons.1 hg with rfl | hg
    · obtain ⟨known, hhon, hknown⟩ := h.current
      refine ⟨known, hhon, fun t ht => ⟨?_, (hknown t ht).lt⟩⟩
      exact (Memo.live_reserve _ _ _).2 (.inr (hknown t ht))
    · obtain ⟨known, hnext, hold⟩ := h.waiting g hg
      refine ⟨known, hnext, fun t ht => ⟨?_, (hold t ht).2⟩⟩
      exact (Memo.live_reserve _ _ _).2 (.inr (hold t ht).1)

theorem reply {current current' : Dialogue Λ Value} {stack : List (Frame Λ)} {s s' : RunState}
    (h : (⟨current, stack, s⟩ : Moment Λ).Intact) (hs : s'.memo = s.memo)
    (hcur : ∀ known, current.Honest Value.refs known → (∀ t ∈ known, s.memo.Live t) →
      ∃ known', current'.Honest Value.refs known' ∧ ∀ t ∈ known', s.memo.Live t) :
    (⟨current', stack, s'⟩ : Moment Λ).Intact := by
  obtain ⟨known, hhon, hknown⟩ := h.current
  refine ⟨by rw [hs]; exact h.sound, ?_, h.ordered, ?_, ?_, ?_⟩
  · simp only [hs]
    exact h.pending
  · simp only [hs]
    exact h.settled
  · simp only [hs]
    exact hcur known hhon hknown
  · simp only [hs]
    exact h.waiting

theorem step (hR : R.Honest) {m m' : Moment Λ} (hstep : R.step m = some m') (h : m.Intact) :
    m'.Intact := by
  obtain ⟨current, stack, s⟩ := m
  cases current with
  | answer r =>
    cases stack with
    | nil => cases r <;> cases hstep
    | cons f stack =>
      cases r with
      | ok v => cases hstep; exact h.settle
      | error e => cases hstep; exact h.failFrom
  | endless => cases hstep; exact h
  | tick counter next =>
    cases hstep
    exact h.reply rfl fun known hhon hknown => ⟨known, hhon _, hknown⟩
  | resolve v next =>
    cases hstep
    refine h.reply rfl fun known hhon hknown => ⟨_, hhon.2 _, ?_⟩
    intro t ht
    rcases List.mem_append.1 ht with ht | ht
    · exact h.sound.resolve (fun t ht => hknown t (hhon.1 ht)) t ht
    · exact hknown t ht
  | share name view next =>
    simp only [Repertoire.step] at hstep
    split at hstep
    · cases hstep
      exact h.reply rfl fun known hhon hknown => ⟨known, hhon (.error _), hknown⟩
    · rename_i d hd
      split at hstep
      · rename_i slot hk
        cases hstep
        refine h.reply rfl fun known hhon hknown => ⟨_, hhon (.ok (.ref slot)), ?_⟩
        intro t ht
        rcases List.mem_append.1 ht with ht | ht
        · rw [resultRefs, Value.refs_ref, List.mem_singleton] at ht
          subst ht
          exact h.sound.live_of_lookup hk
        · exact hknown t ht
      · rename_i hk
        cases hstep
        exact h.reserve (hR name d hd view) hk

/-- Every moment of a session of honest extractors. -/
theorem of_steps (hR : R.Honest) {session : Dialogue Λ Value} (hs : session.Honest Value.refs [])
    {counters : Counters} {m : Moment Λ} (h : R.Steps (.start session counters) m) : m.Intact :=
  h.preserves (fun _ _ hstep hm => hm.step hR hstep) (start hs counters)

theorem ready_of_live {m : Moment Λ} (h : m.Intact) (hstack : m.stack = []) {id : SlotId}
    (hid : m.state.memo.Live id) : ∃ w, m.state.memo.slot? id = some (.ready w) := by
  refine hid.pending_or_ready.resolve_left fun hp => ?_
  obtain ⟨f, hf, _⟩ := (h.pending id).1 hp
  rw [hstack] at hf
  cases hf

/-- Every reference met from a value without dangling references then leads to a ready slot. -/
theorem ready_of_leads {m : Moment Λ} (h : m.Intact) (hstack : m.stack = []) {v : Value}
    (hv : ∀ t ∈ v.refs, m.state.memo.Live t) {u : SlotId} (hu : m.state.memo.Leads v u) :
    ∃ w, m.state.memo.slot? u = some (.ready w) :=
  h.ready_of_live hstack (h.sound.leads hv hu)

end Moment.Intact
end ShaclExtract
