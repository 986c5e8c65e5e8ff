import ShaclExtract.Proofs.Dialogue.Session
import ShaclExtract.Proofs.Memo.Contents

/-!
# ShaclExtract.Proofs.Dialogue.Upkeep

What runs of routines keep up, whatever memo they start from. A memo is tidy if its keys and slots
fit together and each of its values is as `T` says (`Setting.Tidy`). A routine may need a memo of
some kind to be asked for, `Ready`; if programs ask only for what is ready then, and the value that
a program ends with is as `T` says, then every run leaves a tidy memo and no slot pending that was
not pending before (`Setting.Upkeep.invoke`).

Unlike `Setting.Filled`, this does not look back at the session that led to a memo, so that runs can
be put one after the other.
-/

namespace ShaclExtract
namespace Setting

variable {S : Setting} {view₀ : View} {T : Memo → MemoKey → SlotId → Value → Prop}
  {Ready : Routine → View → Memo → Prop}

/-- The key of a known routine at a node that can be met from the view. -/
def HasKey (S : Setting) (view₀ : View) (key : MemoKey) : Prop :=
  ∃ r p node, S.program? r = some p ∧ Path.Within view₀.graph view₀.focus node ∧
    key = .of (.routine r) node

structure Tidy (S : Setting) (view₀ : View) (T : Memo → MemoKey → SlotId → Value → Prop)
    (m : Memo) : Prop where
  bounded : m.Bounded
  regular : m.Regular
  keyed : ∀ key slot, m.lookup key = some slot → S.HasKey view₀ key
  holds : m.Holds T

namespace Tidy

variable {m m' : Memo} {key : MemoKey}

theorem empty : S.Tidy view₀ T .empty where
  bounded := Memo.bounded_empty
  regular := Memo.regular_empty
  keyed key slot hk := by cases hk
  holds := Memo.holds_empty

theorem reserve (hT : Memo.Lasting T) (h : S.Tidy view₀ T m) (hk : m.lookup key = none)
    (hkey : S.HasKey view₀ key) : S.Tidy view₀ T (m.reserve key) where
  bounded := (Memo.extends_reserve hk).bounded h.bounded
  regular := h.regular.reserve h.bounded
  keyed k slot hslot := by
    rw [Memo.lookup_reserve] at hslot
    split at hslot
    · rename_i heq
      exact heq ▸ hkey
    · exact h.keyed k slot hslot
  holds := h.holds.reserve hT hk

theorem settle (hT : Memo.Lasting T) (hm : m.Bounded) (hk : m.lookup key = none)
    (hext : (m.reserve key).Extends m') (h : S.Tidy view₀ T m') {v : Value}
    (hv : T (m'.settle m.next v) key m.next v) : S.Tidy view₀ T (m'.settle m.next v) where
  bounded := (Memo.extends_settle hk hext v).bounded hm
  regular := h.regular.settle hext v
  keyed := h.keyed
  holds := h.holds.settle hT hm hext hv

theorem failFrom (hT : Memo.Lasting T) (h : S.Tidy view₀ T m) (hext : (m.reserve key).Extends m') :
    S.Tidy view₀ T (m'.failFrom m.next) where
  bounded := by
    rw [Memo.failFrom_of_extends h.bounded hext]
    intro e he
    have := h.bounded e he
    simp only [List.length_append]
    omega
  regular := h.regular.failFrom h.bounded hext
  keyed k slot hslot := by
    rw [Memo.failFrom_of_extends h.bounded hext] at hslot
    exact h.keyed k slot hslot
  holds := h.holds.failFrom hT h.bounded hext

theorem ready (h : S.Tidy view₀ T m) (hp : ∀ id, m.slot? id ≠ some .pending) {slot : SlotId}
    (hk : m.lookup key = some slot) : ∃ v, m.slot? slot = some (.ready v) :=
  (h.regular.live key slot hk).pending_or_ready.resolve_left (hp slot)

end Tidy

/-- Where a routine is ready to be run, its program asks for routines that are ready then, and the
value that it ends with is as `T` says. -/
structure Upkeep (S : Setting) (view₀ : View) (Ready : Routine → View → Memo → Prop)
    (T : Memo → MemoKey → SlotId → Value → Prop) : Prop where
  lasting : Memo.Lasting T
  asks : ∀ {r p view m}, S.program? r = some p → view₀.Near view → Ready r view m → m.Bounded →
    m.lookup (.of (.routine r) view.focus) = none → ∀ {name view'}, p.Asks S view name view' →
      ∃ r', name = .routine r' ∧
        ∀ m', (m.reserve (.of (.routine r) view.focus)).Grows m' → Ready r' view' m'
  value : ∀ {r p view} {depth : Nat} {s s₁ : RunState} {v : Value}, S.program? r = some p →
    view₀.Near view → Ready r view s.memo → s.memo.Bounded →
    s.memo.lookup (.of (.routine r) view.focus) = none →
    p.extractor S .memoized (S.invoke .memoized depth) view
      { s with memo := s.memo.reserve (.of (.routine r) view.focus) } = some (.ok v, s₁) →
    S.Tidy view₀ T s₁.memo → (s.memo.reserve (.of (.routine r) view.focus)).Grows s₁.memo →
      T (s₁.memo.settle s.memo.next v) (.of (.routine r) view.focus) s.memo.next v

/-- Every run of a routine that ends keeps the memo tidy. -/
theorem Upkeep.invoke (hS : S.Honest) (hU : S.Upkeep view₀ Ready T) (depth : Nat) :
    ∀ {r view}, view₀.Near view → ∀ {s result s'}, Ready r view s.memo →
      S.Tidy view₀ T s.memo → S.invoke .memoized depth r view s = some (result, s') →
        S.Tidy view₀ T s'.memo ∧ s.memo.Grows s'.memo := by
  induction depth with
  | zero => intro r view _ s result s' _ _ h; cases h
  | succ depth ih =>
    intro r view hv s result s' hready htidy h
    cases hp : S.program? r with
    | none =>
      rw [invoke_of_none _ hp] at h
      cases h
      exact ⟨htidy, .refl _⟩
    | some p =>
      rw [invoke_of_program _ hp] at h
      obtain ⟨slot, _, _, rfl⟩ | ⟨hk, r₁, s₁, hrun, hend⟩ := Memo.shared_cases h
      · exact ⟨htidy, .refl _⟩
      · have hd := p.represents_dialogue hS (hS.programs r p hp) view
        have hdialogue := hrun
        rw [← hd.run] at hdialogue
        -- the memo is tidy between the requests of the program, too
        obtain ⟨-, htidy₁, hgrows⟩ := Dialogue.run_preserves
          (Q := fun d s₁ => d.AsksOnly p.ReadsPath (p.Asks S view) ∧ S.Tidy view₀ T s₁.memo ∧
            (s.memo.reserve (.of (.routine r) view.focus)).Grows s₁.memo)
          (fun counter next s h => ⟨h.1 _, h.2⟩) (fun v next s h => ⟨h.1 _, h.2⟩)
          (fun name view' next s r s' h hi => by
            obtain ⟨⟨hname, hnext⟩, hrest, hgrows⟩ := h
            obtain ⟨r', rfl, hready'⟩ := hU.asks hp hv hready htidy.bounded hk hname
            obtain ⟨htidy', hgrows'⟩ := ih (hv.trans hname.near) (hready' _ hgrows) hrest hi
            exact ⟨hnext r, htidy', hgrows.trans hgrows'⟩)
          hdialogue ⟨hd.asks, htidy.reserve hU.lasting hk ⟨r, p, _, hp, hv.2, rfl⟩, .refl _⟩
        obtain ⟨v, rfl, _, rfl⟩ | ⟨e, rfl, _, rfl⟩ := hend
        · have hvalue := hU.value hp hv hready htidy.bounded hk hrun htidy₁ hgrows
          exact ⟨htidy₁.settle hU.lasting htidy.bounded hk hgrows.extension hvalue,
            .settle hk hgrows v⟩
        · exact ⟨htidy.failFrom hU.lasting hgrows.extension, .failFrom htidy.bounded hgrows⟩

end Setting
end ShaclExtract
