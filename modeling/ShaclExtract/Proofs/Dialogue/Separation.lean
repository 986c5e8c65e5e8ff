import ShaclExtract.Proofs.Dialogue.Basic
import ShaclExtract.Proofs.Memo.Chains
import ShaclExtract.Proofs.Memo.Contents

/-!
# ShaclExtract.Proofs.Dialogue.Separation

Results of different nodes are kept apart. A node is known to the memo by its kind and its lexical
form, so what it serves for a node belongs to some node of the same kind and lexical form that was
asked for.

* `Repertoire.Pure`: a name whose results are a function of the view.
* `Repertoire.Reached`: the states between runs, whatever was run before.
* `Repertoire.Faithful`: what holds in these states, and is kept by every run.
-/

namespace ShaclExtract
namespace Repertoire

variable {Λ : Type} {R : Repertoire Λ} {P : Λ → View → Prop} {ℓ : Λ}
  {f : View → Except Failure Value}

/-- A name with results of its own, which depend on the view and on nothing else. -/
structure Pure (R : Repertoire Λ) (ℓ : Λ) (f : View → Except Failure Value) : Prop where
  known : ∃ d, R.dialogue? ℓ = some d ∧ ∀ invoke view s, (d view).run invoke s = some (f view, s)
  alone : ∀ name, R.id name = R.id ℓ → name = ℓ

def Keeps (R : Repertoire Λ) (P : Λ → View → Prop) : Prop :=
  ∀ name d view, R.dialogue? name = some d → P name view → (d view).AsksOnly True P

/-- The states in which no run is in progress: the first one, and what any run leads to. -/
inductive Reached (R : Repertoire Λ) (P : Λ → View → Prop) : RunState → Prop where
  | start (counters : Counters) : Reached R P (.start counters)
  | run {s s' : RunState} {depth : Nat} {name : Λ} {view : View} {r : Except Failure Value} :
      Reached R P s → P name view → R.invoke depth name view s = some (r, s') → Reached R P s'

/-- A value of the name is its result at some view with this key. -/
def Own (R : Repertoire Λ) (P : Λ → View → Prop) (ℓ : Λ) (f : View → Except Failure Value)
    (_ : Memo) (key : MemoKey) (_ : SlotId) (v : Value) : Prop :=
  key.extractor = R.id ℓ → ∃ view, P ℓ view ∧ key = .of (R.id ℓ) view.focus ∧ f view = .ok v

theorem lasting_own : Memo.Lasting (R.Own P ℓ f) := fun _ _ _ _ _ _ h => h

structure Faithful (R : Repertoire Λ) (P : Λ → View → Prop) (ℓ : Λ)
    (f : View → Except Failure Value) (m : Memo) : Prop where
  bounded : m.Bounded
  regular : m.Regular
  own : m.Holds (R.Own P ℓ f)

theorem faithful_empty : R.Faithful P ℓ f .empty :=
  ⟨Memo.bounded_empty, Memo.regular_empty, Memo.holds_empty⟩

theorem Faithful.reserve {m : Memo} (h : R.Faithful P ℓ f m) {key : MemoKey}
    (hk : m.lookup key = none) : R.Faithful P ℓ f (m.reserve key) where
  bounded := (Memo.extends_reserve hk).bounded h.bounded
  regular := h.regular.reserve h.bounded
  own := h.own.reserve lasting_own hk

/-- Every run keeps it: a new value of the name comes from the view that was asked for. -/
theorem Faithful.invoke (hR : R.Keeps P) (hℓ : R.Pure ℓ f) (depth : Nat) :
    ∀ name view, P name view → ∀ s r s', R.invoke depth name view s = some (r, s') →
      R.Faithful P ℓ f s.memo → R.Faithful P ℓ f s'.memo := by
  induction depth with
  | zero => intro name view _ s r s' h; cases h
  | succ depth ih =>
    intro name view hname s r s' h hs
    have hext := R.invoke_extends (depth + 1) name view s r s' h hs.bounded
    unfold Repertoire.invoke at h
    cases hd : R.dialogue? name with
    | none =>
      simp only [hd] at h
      cases h
      exact hs
    | some d =>
      simp only [hd] at h
      have hbody : Memo.Extending ((d view).run (R.invoke depth)) :=
        Dialogue.run_extends (fun name view _ => R.invoke_extends depth name view)
          (d view).asksOnly_true
      have hrun : ∀ s₀ r₁ s₁, (d view).run (R.invoke depth) s₀ = some (r₁, s₁) →
          R.Faithful P ℓ f s₀.memo → R.Faithful P ℓ f s₁.memo := by
        intro s₀ r₁ s₁ h₁ h₀
        have hQ := Dialogue.run_preserves
          (Q := fun d s => d.AsksOnly True P ∧ R.Faithful P ℓ f s.memo)
          (fun counter next s h => ⟨h.1 _, h.2⟩) (fun v next s h => ⟨h.1 _, h.2⟩)
          (fun name view next s r s' h hi => ⟨h.1.2 r, ih name view h.1.1 s r s' hi h.2⟩)
          h₁ ⟨hR name d view hd hname, h₀⟩
        exact hQ.2
      refine ⟨hext.bounded hs.bounded, ?_, ?_⟩
      · exact Memo.shared_regular hs.bounded hbody h hs.regular fun r₁ s₁ hk h₁ =>
          (hrun _ r₁ s₁ h₁ (hs.reserve hk)).regular
      · refine Memo.shared_holds lasting_own hs.bounded hbody h hs.own fun r₁ s₁ hk h₁ _ =>
          ⟨(hrun _ r₁ s₁ h₁ (hs.reserve hk)).own, ?_⟩
        rintro v rfl hid
        obtain rfl := hℓ.alone name hid
        obtain ⟨d', hd', hpure⟩ := hℓ.known
        cases hd.symm.trans hd'
        rw [hpure] at h₁
        obtain ⟨hv, -⟩ := Prod.mk.inj (Option.some.inj h₁)
        exact ⟨view, hname, rfl, hv⟩

theorem invoke_growing (R : Repertoire Λ) (depth : Nat) (name : Λ) (view : View) :
    Memo.Growing (R.invoke depth name view) := by
  induction depth generalizing name view with
  | zero => intro s r s' h; cases h
  | succ depth ih =>
    unfold Repertoire.invoke
    cases hd : R.dialogue? name with
    | none =>
      intro s r s' h _
      cases h
      exact .refl _
    | some d =>
      refine Memo.shared_growing fun s₀ r s' h hs => ?_
      have hQ := Dialogue.run_preserves
        (Q := fun _ s => s.memo.Bounded ∧ s₀.memo.Grows s.memo)
        (fun counter next s h => h) (fun v next s h => h)
        (fun name view next s r s' h hi =>
          have hg := ih name view s r s' hi h.1
          ⟨hg.extension.bounded h.1, h.2.trans hg⟩)
        h ⟨hs, .refl _⟩
      exact hQ.2

namespace Reached

variable {s : RunState}

theorem faithful (hR : R.Keeps P) (hℓ : R.Pure ℓ f) (hs : R.Reached P s) :
    R.Faithful P ℓ f s.memo := by
  induction hs with
  | start counters => exact faithful_empty
  | run _ hname hrun ih => exact ih.invoke hR hℓ _ _ _ hname _ _ _ hrun

theorem bounded (hs : R.Reached P s) : s.memo.Bounded := by
  induction hs with
  | start counters => exact Memo.bounded_empty
  | run _ _ hrun ih => exact (R.invoke_extends _ _ _ _ _ _ hrun ih).bounded ih

theorem not_pending (hs : R.Reached P s) (id : SlotId) : s.memo.slot? id ≠ some .pending := by
  induction hs with
  | start counters => simp [RunState.start, Memo.slot?, Memo.empty]
  | run hs _ hrun ih =>
    intro hid
    exact ih ((R.invoke_growing _ _ _ _ _ _ hrun hs.bounded).finished id hid)

end Reached

/-- The answer for a view: the failure there, or a slot with exactly the result there. -/
structure Served (R : Repertoire Λ) (ℓ : Λ) (f : View → Except Failure Value) (view : View)
    (r : Except Failure Value) (m : Memo) : Prop where
  error : ∀ e, f view = .error e → r = .error e
  ok : ∀ v, f view = .ok v → ∃ slot, r = .ok (.ref slot) ∧
    m.lookup (.of (R.id ℓ) view.focus) = some slot ∧ m.slot? slot = some (.ready v) ∧
      ((∀ id, v ≠ .ref id) → m.resolve (.ref slot) = v)

/-- A view that is the only one with its key is served its own result. -/
theorem Reached.served (hR : R.Keeps P) (hℓ : R.Pure ℓ f) {view : View}
    (huniq : ∀ view', P ℓ view' →
      MemoKey.of (R.id ℓ) view'.focus = .of (R.id ℓ) view.focus → view' = view)
    {s : RunState} (hs : R.Reached P s) (depth : Nat) :
    ∃ r s', R.invoke (depth + 1) ℓ view s = some (r, s') ∧ R.Served ℓ f view r s'.memo := by
  have hfaithful := hs.faithful hR hℓ
  obtain ⟨d, hd, hpure⟩ := hℓ.known
  have hinvoke : R.invoke (depth + 1) ℓ =
      Memo.shared (R.id ℓ) fun view => (d view).run (R.invoke depth) := by
    simp only [invoke, hd]
  rw [hinvoke]
  cases hk : s.memo.lookup (.of (R.id ℓ) view.focus) with
  | some slot =>
    -- the slot has a value, since no run is in progress, and only this view leads to it
    obtain ⟨w, hc⟩ := (hfaithful.regular.live _ _ hk).pending_or_ready.resolve_left
      (hs.not_pending slot)
    obtain ⟨view', hP, hkey, hw⟩ := hfaithful.own _ _ _ hk hc rfl
    obtain rfl := huniq view' hP hkey.symm
    refine ⟨.ok (.ref slot), s, Memo.shared_of_lookup _ hk, ⟨fun e he => ?_, fun v hv => ?_⟩⟩
    · cases hw.symm.trans he
    · cases hw.symm.trans hv
      exact ⟨slot, rfl, hk, hc, Memo.resolve_ref hc⟩
  | none =>
    let m := s.memo.reserve (.of (R.id ℓ) view.focus)
    have hext : m.Extends m := .refl m
    cases hv : f view with
    | error e =>
      refine ⟨.error e, { s with memo := m.failFrom s.memo.next }, ?_, ⟨fun e' he => ?_,
        fun v hv' => ?_⟩⟩
      · simp only [Memo.shared, hk, hpure, hv, m]
      · cases hv.symm.trans he
        rfl
      · cases hv.symm.trans hv'
    | ok w =>
      refine ⟨.ok (.ref s.memo.next), { s with memo := m.settle s.memo.next w }, ?_,
        ⟨fun e he => ?_, fun v hv' => ?_⟩⟩
      · simp only [Memo.shared, hk, hpure, hv, m]
      · cases hv.symm.trans he
      · cases hv.symm.trans hv'
        have hready := Memo.slot?_settle_next hext w
        exact ⟨_, rfl, Memo.lookup_settle_next hext w, hready, Memo.resolve_ref hready⟩

theorem Pure.ends (hℓ : R.Pure ℓ f) (depth : Nat) (view : View) (s : RunState) :
    ∃ r s', R.invoke (depth + 1) ℓ view s = some (r, s') := by
  obtain ⟨d, hd, hpure⟩ := hℓ.known
  simp only [invoke, hd, Memo.shared, hpure]
  split
  · exact ⟨_, _, rfl⟩
  · cases f view <;> exact ⟨_, _, rfl⟩

theorem Pure.lookup_of_ok (hℓ : R.Pure ℓ f) {depth : Nat} {view : View} {s s' : RunState}
    {v : Value} (hs : s.memo.Bounded) (h : R.invoke depth ℓ view s = some (.ok v, s')) :
    ∃ slot, v = .ref slot ∧ s'.memo.lookup (.of (R.id ℓ) view.focus) = some slot := by
  obtain ⟨d, hd, _⟩ := hℓ.known
  cases depth with
  | zero => cases h
  | succ depth =>
    simp only [invoke, hd] at h
    exact Memo.shared_ok hs (Dialogue.run_extends
      (fun name view _ => R.invoke_extends depth name view) (d view).asksOnly_true) h

/-- Of two nodes that differ in kind or lexical form, the second is served its own result, in
another slot than the first. -/
theorem Reached.apart (hR : R.Keeps P) (hℓ : R.Pure ℓ f) {g : Graph} {t₁ t₂ : Term}
    (h₁ : P ℓ ⟨t₁, g⟩) (h₂ : P ℓ ⟨t₂, g⟩) (hne : t₁.kind ≠ t₂.kind ∨ t₁.lexical ≠ t₂.lexical)
    (huniq : ∀ view, P ℓ view → view.focus.kind = t₂.kind → view.focus.lexical = t₂.lexical →
      view = ⟨t₂, g⟩)
    {s : RunState} (hs : R.Reached P s) (depth : Nat) :
    ∃ r₁ s₁ r₂ s₂, R.invoke (depth + 1) ℓ ⟨t₁, g⟩ s = some (r₁, s₁) ∧
      R.invoke (depth + 1) ℓ ⟨t₂, g⟩ s₁ = some (r₂, s₂) ∧
      R.Served ℓ f ⟨t₂, g⟩ r₂ s₂.memo ∧
      ∀ slot, r₁ = .ok (.ref slot) → r₂ ≠ .ok (.ref slot) := by
  obtain ⟨r₁, s₁, hrun₁⟩ := hℓ.ends depth ⟨t₁, g⟩ s
  have hs₁ : R.Reached P s₁ := hs.run h₁ hrun₁
  have hkeys : ∀ view, P ℓ view →
      MemoKey.of (R.id ℓ) view.focus = .of (R.id ℓ) (⟨t₂, g⟩ : View).focus → view = ⟨t₂, g⟩ := by
    intro view hP hkey
    injection hkey with _ hkind hlexical
    exact huniq view hP hkind hlexical
  obtain ⟨r₂, s₂, hrun₂, hserved⟩ := hs₁.served hR hℓ hkeys depth
  refine ⟨r₁, s₁, r₂, s₂, hrun₁, hrun₂, hserved, ?_⟩
  rintro slot rfl rfl
  have hs₂ : R.Reached P s₂ := hs₁.run h₂ hrun₂
  obtain ⟨slot₁, heq₁, hk₁⟩ := hℓ.lookup_of_ok hs.bounded hrun₁
  obtain ⟨slot₂, heq₂, hk₂⟩ := hℓ.lookup_of_ok hs₁.bounded hrun₂
  cases heq₁
  cases heq₂
  have hkept := (R.invoke_extends _ _ _ _ _ _ hrun₂ hs₁.bounded).lookup hk₁
  have hkey := (hs₂.faithful hR hℓ).regular.separate _ _ _ hkept hk₂
  injection hkey with _ hkind hlexical
  exact hne.elim (fun h => h hkind) fun h => h hlexical

end Repertoire
end ShaclExtract
