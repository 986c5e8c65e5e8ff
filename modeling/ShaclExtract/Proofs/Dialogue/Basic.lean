import ShaclExtract.Proofs.Memo.References

/-!
# ShaclExtract.Proofs.Dialogue.Basic

Extractors that use the memo only by sharing and resolving. What such an extractor does is a
`Dialogue`: a request, and for every reply to it what it does next. Extractors that are shared have
names, and a request to share names one, so extractors may ask for each other and for themselves; a
`Repertoire` says what each name stands for.

* `run`: the dialogue with the memo of a run, given an extractor for each name.
* `Honest`: the references in an output come from replies, and only such values are resolved.
* `AsksOnly`: what may be asked to be shared, and whether the dialogue may go on for ever.

`Repertoire.invoke` runs the names with `Memo.shared`, nested up to a bound, and every run of it
extends the memo (`invoke_extends`).
-/

namespace ShaclExtract

/--
One request to the memo after the other. A dialogue ends after finitely many requests on every
branch; where an extractor would go on for ever, `endless` stands in its place.
-/
inductive Dialogue (Λ ο : Type) where
  | answer (result : Except Failure ο)
  | endless
  | tick (counter : String) (next : Nat → Dialogue Λ ο)
  /-- Asks for the value that a value stands for. -/
  | resolve (value : Value) (next : Value → Dialogue Λ ο)
  /-- Asks for the shared result of the named extractor at the focus of a view. -/
  | share (name : Λ) (view : View) (next : Except Failure Value → Dialogue Λ ο)

namespace Dialogue

variable {Λ α ο : Type}

def run (invoke : Λ → Extractor RunState View Value) :
    Dialogue Λ ο → RunState → Option (Except Failure ο × RunState)
  | .answer r, s => some (r, s)
  | .endless, _ => none
  | .tick counter next, s =>
    run invoke (next (Strategy.memoized.tick s counter).1) (Strategy.memoized.tick s counter).2
  | .resolve v next, s => run invoke (next (s.memo.resolve v)) s
  | .share name view next, s =>
    match invoke name view s with
    | none => none
    | some (r, s) => run invoke (next r) s

def bind : Dialogue Λ α → (Except Failure α → Dialogue Λ ο) → Dialogue Λ ο
  | .answer r, k => k r
  | .endless, _ => .endless
  | .tick counter next, k => .tick counter fun n => (next n).bind k
  | .resolve v next, k => .resolve v fun w => (next w).bind k
  | .share name view next, k => .share name view fun r => (next r).bind k

theorem run_bind (invoke : Λ → Extractor RunState View Value) (d : Dialogue Λ α)
    (k : Except Failure α → Dialogue Λ ο) (s : RunState) :
    (d.bind k).run invoke s =
      match d.run invoke s with
      | none => none
      | some (r, s) => (k r).run invoke s := by
  induction d generalizing s with
  | answer r => rfl
  | endless => rfl
  | tick counter next ih => exact ih _ _
  | resolve v next ih => exact ih _ _
  | share name view next ih =>
    simp only [bind, run]
    cases invoke name view s with
    | none => rfl
    | some p => exact ih p.1 p.2

/-! ## honesty -/

theorem append_subset_append {l known known' : List SlotId} (h : known ⊆ known') :
    l ++ known ⊆ l ++ known' :=
  List.append_subset.2
    ⟨List.subset_append_left _ _, List.Subset.trans h (List.subset_append_right _ _)⟩

/-- Outputs hold no references but those known before and those in replies, and nothing else is
resolved. -/
def Honest (outputRefs : ο → List SlotId) : Dialogue Λ ο → List SlotId → Prop
  | .answer (.ok o), known => outputRefs o ⊆ known
  | .answer (.error _), _ => True
  | .endless, _ => True
  | .tick _ next, known => ∀ n, Honest outputRefs (next n) known
  | .resolve v next, known =>
    v.refs ⊆ known ∧ ∀ w, Honest outputRefs (next w) (w.refs ++ known)
  | .share _ _ next, known => ∀ r, Honest outputRefs (next r) (resultRefs r ++ known)

theorem Honest.mono {outputRefs : ο → List SlotId} {d : Dialogue Λ ο} {known known' : List SlotId}
    (h : d.Honest outputRefs known) (hk : known ⊆ known') : d.Honest outputRefs known' := by
  induction d generalizing known known' with
  | answer r =>
    cases r with
    | ok o => exact List.Subset.trans h hk
    | error e => trivial
  | endless => trivial
  | tick counter next ih => exact fun n => ih n (h n) hk
  | resolve v next ih =>
    exact ⟨List.Subset.trans h.1 hk, fun w => ih w (h.2 w) (append_subset_append hk)⟩
  | share name view next ih =>
    exact fun r => ih r (h r) (append_subset_append hk)

theorem Honest.bind {midRefs : α → List SlotId} {outputRefs : ο → List SlotId}
    {d : Dialogue Λ α} {k : Except Failure α → Dialogue Λ ο} {given known : List SlotId}
    (hd : d.Honest midRefs known) (hg : given ⊆ known)
    (hok : ∀ a, (k (.ok a)).Honest outputRefs (midRefs a ++ given))
    (herr : ∀ e, (k (.error e)).Honest outputRefs given) :
    (d.bind k).Honest outputRefs known := by
  induction d generalizing known with
  | answer r =>
    cases r with
    | ok a => exact (hok a).mono (List.append_subset.2 ⟨hd, hg⟩)
    | error e => exact (herr e).mono hg
  | endless => trivial
  | tick counter next ih => exact fun n => ih n (hd n) hg
  | resolve v next ih =>
    exact ⟨hd.1, fun w => ih w (hd.2 w) (List.subset_append_of_subset_right _ hg)⟩
  | share name view next ih =>
    exact fun r => ih r (hd r) (List.subset_append_of_subset_right _ hg)

theorem honest_share (name : Λ) (view : View) (known : List SlotId) :
    (share name view answer : Dialogue Λ Value).Honest Value.refs known := by
  intro r
  cases r with
  | ok v => exact List.subset_append_left _ _
  | error e => trivial

/-! ## requests -/

/-- Only names and views with a given property are asked for, and the dialogue ends on every branch
unless `hangs`. -/
def AsksOnly (hangs : Prop) (P : Λ → View → Prop) : Dialogue Λ ο → Prop
  | .answer _ => True
  | .endless => hangs
  | .tick _ next => ∀ n, AsksOnly hangs P (next n)
  | .resolve _ next => ∀ w, AsksOnly hangs P (next w)
  | .share name view next => P name view ∧ ∀ r, AsksOnly hangs P (next r)

theorem asksOnly_true (d : Dialogue Λ ο) : d.AsksOnly True fun _ _ => True := by
  induction d with
  | answer r => trivial
  | endless => trivial
  | tick counter next ih => exact ih
  | resolve v next ih => exact ih
  | share name view next ih => exact ⟨trivial, ih⟩

theorem AsksOnly.mono {hangs hangs' : Prop} {P Q : Λ → View → Prop} {d : Dialogue Λ ο}
    (h : d.AsksOnly hangs P) (hh : hangs → hangs') (hPQ : ∀ name view, P name view → Q name view) :
    d.AsksOnly hangs' Q := by
  induction d with
  | answer r => trivial
  | endless => exact hh h
  | tick counter next ih => exact fun n => ih n (h n)
  | resolve v next ih => exact fun w => ih w (h w)
  | share name view next ih => exact ⟨hPQ _ _ h.1, fun r => ih r (h.2 r)⟩

theorem AsksOnly.bind {hangs : Prop} {P : Λ → View → Prop} {d : Dialogue Λ α}
    {k : Except Failure α → Dialogue Λ ο} (hd : d.AsksOnly hangs P)
    (hk : ∀ r, (k r).AsksOnly hangs P) : (d.bind k).AsksOnly hangs P := by
  induction d with
  | answer r => exact hk r
  | endless => exact hd
  | tick counter next ih => exact fun n => ih n (hd n)
  | resolve v next ih => exact fun w => ih w (hd w)
  | share name view next ih => exact ⟨hd.1, fun r => ih r (hd.2 r)⟩

/-! ## effect on the memo -/

/-- What every request keeps, of the dialogue that is left and the state, holds at the end. -/
theorem run_preserves {invoke : Λ → Extractor RunState View Value}
    {Q : Dialogue Λ ο → RunState → Prop}
    (htick : ∀ counter next s, Q (.tick counter next) s →
      Q (next (Strategy.memoized.tick s counter).1) (Strategy.memoized.tick s counter).2)
    (hresolve : ∀ v next s, Q (.resolve v next) s → Q (next (s.memo.resolve v)) s)
    (hshare : ∀ name view next s r s', Q (.share name view next) s →
      invoke name view s = some (r, s') → Q (next r) s')
    {d : Dialogue Λ ο} {s s' : RunState} {r : Except Failure ο}
    (h : d.run invoke s = some (r, s')) (hd : Q d s) : Q (.answer r) s' := by
  induction d generalizing s with
  | answer r => cases h; exact hd
  | endless => cases h
  | tick counter next ih => exact ih _ h (htick counter next s hd)
  | resolve v next ih => exact ih _ h (hresolve v next s hd)
  | share name view next ih =>
    simp only [run] at h
    split at h
    · cases h
    · rename_i r₁ s₁ h₁
      exact ih r₁ h (hshare name view next s r₁ s₁ hd h₁)

theorem run_extends {invoke : Λ → Extractor RunState View Value} {hangs : Prop}
    {P : Λ → View → Prop} (hi : ∀ name view, P name view → Memo.Extending (invoke name view))
    {d : Dialogue Λ ο} (hd : d.AsksOnly hangs P) : Memo.Extending (d.run invoke) := by
  induction d with
  | answer r => intro s r s' h _; cases h; exact .refl _
  | endless => intro s r s' h; cases h
  | tick counter next ih =>
    intro s r s' h hs
    simp only [run] at h
    exact ih _ (hd _) (Strategy.memoized.tick s counter).2 _ _ h hs
  | resolve v next ih =>
    intro s r s' h hs
    simp only [run] at h
    exact ih _ (hd _) _ _ _ h hs
  | share name view next ih =>
    intro s r s' h hs
    simp only [run] at h
    split at h
    · cases h
    · rename_i r₁ s₁ h₁
      have hext := hi _ _ hd.1 _ _ _ h₁ hs
      exact hext.trans (ih _ (hd.2 _) _ _ _ h (hext.bounded hs))

end Dialogue

/-- What the names of shared extractors stand for. -/
structure Repertoire (Λ : Type) where
  /-- What identifies the results of a name. -/
  id : Λ → ExtractorId
  /-- None for a name that is not known. -/
  dialogue? : Λ → Option (View → Dialogue Λ Value)
  /-- The failure of a name that is not known. -/
  unknown : Λ → Failure

namespace Repertoire

variable {Λ : Type}

/-- Runs what a name stands for, with shared runs nested less than `depth` deep. -/
def invoke (R : Repertoire Λ) : Nat → Λ → Extractor RunState View Value
  | 0, _ => fun _ _ => none
  | depth + 1, name =>
    match R.dialogue? name with
    | none => .fail (R.unknown name)
    | some d => Memo.shared (R.id name) fun view => (d view).run (invoke R depth)

def Honest (R : Repertoire Λ) : Prop :=
  ∀ name d, R.dialogue? name = some d → ∀ view, (d view).Honest Value.refs []

theorem invoke_extends (R : Repertoire Λ) (depth : Nat) (name : Λ) (view : View) :
    Memo.Extending (R.invoke depth name view) := by
  induction depth generalizing name view with
  | zero => intro s r s' h; cases h
  | succ depth ih =>
    unfold invoke
    cases R.dialogue? name with
    | none => intro s r s' h _; cases h; exact .refl _
    | some d =>
      exact Memo.shared_extends (Dialogue.run_extends (fun name view _ => ih name view)
        (d view).asksOnly_true)

end Repertoire

end ShaclExtract
