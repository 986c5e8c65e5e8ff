import ShaclExtract.Proofs.Schema.Passage
import ShaclExtract.Proofs.Schema.Tandem

/-!
# ShaclExtract.Proofs.Schema.Traced

Runs that keep a record. `Strategy.traced` runs programs as the memoized way does and notes, slot by
slot, the memo as it was when the slot had just been reserved; so when a run has ended it can be
told what was unfinished when the run of each slot began.

A traced run is intact if its memo fits together and each value in a slot of a routine is as `P`
says, given the memo that was noted for the slot. If the values that programs end with are
(`Setting.Attests`), then every run has a traced one beside it that ends with the same output and
the same memo, and is intact (`Setting.Attests.faithful`). No program, whatever it is put together
from, need be excluded for that.
-/

namespace ShaclExtract

/-- A run, and for each slot the memo in which it had just been reserved. -/
structure Traced where
  state : RunState
  entered : List Memo

namespace Traced

def start : Traced := ⟨.start .empty, []⟩

def enter (t : Traced) (key : MemoKey) : Traced :=
  ⟨{ t.state with memo := t.state.memo.reserve key }, t.entered ++ [t.state.memo.reserve key]⟩

def settle (t : Traced) (slot : SlotId) (v : Value) : Traced :=
  { t with state := { t.state with memo := t.state.memo.settle slot v } }

def failFrom (t : Traced) (slot : SlotId) : Traced :=
  { t with state := { t.state with memo := t.state.memo.failFrom slot } }

def shared (id : ExtractorId) (x : Extractor Traced View Value) : Extractor Traced View Value :=
  fun view t =>
    match t.state.memo.lookup (.of id view.focus) with
    | some slot => some (.ok (.ref slot), t)
    | none =>
      match x view (t.enter (.of id view.focus)) with
      | none => none
      | some (.ok v, t') => some (.ok (.ref t.state.memo.next), t'.settle t.state.memo.next v)
      | some (.error e, t') => some (.error e, t'.failFrom t.state.memo.next)

end Traced

def Strategy.traced : Strategy Traced where
  share := Traced.shared
  resolve t v := t.state.memo.resolve v
  tick t name :=
    ((t.state.counters.tick name).1,
      { t with state := { t.state with counters := (t.state.counters.tick name).2 } })

/-! ## all programs in two evaluations -/

namespace Tandem

variable {σ τ : Type} {T : Tandem σ τ} {S : Setting} {g : Graph} {E : Strategy σ} {E' : Strategy τ}
  {invoke : Routine → Extractor σ View Value} {invoke' : Routine → Extractor τ View Value}

/-- What the two strategies do is the same, wherever the graph is what is visible. -/
structure Agrees (T : Tandem σ τ) (g : Graph) (E : Strategy σ) (E' : Strategy τ) : Prop where
  resolve : ∀ {s t}, T.states s t → ∀ v, E.resolve s v = E'.resolve t v
  tick : ∀ {s t}, T.states s t → ∀ name, (E.tick s name).1 = (E'.tick t name).1 ∧
    T.states (E.tick s name).2 (E'.tick t name).2 ∧ T.grows t (E'.tick t name).2
  part : ∀ {number x y}, (∀ view, view.graph = g → T.Together Eq (x view) (y view)) →
    ∀ view, view.graph = g →
      T.Together Eq (E.share (.part number) x view) (E'.share (.part number) y view)

namespace Agrees

theorem transforms (h : T.Agrees g E E') (S : Setting) : T.Transforms Eq S E E' := by
  rintro cls v _ rfl s t hst
  unfold Setting.transformed
  cases S.transforms.get? cls with
  | none => exact .some ⟨rfl, hst, T.refl t⟩
  | some transform =>
    dsimp only
    rw [h.resolve hst]
    have happly : ∀ w, Outcomes Eq (transform w) (transform w) := by
      intro w
      cases transform w with
      | ok u => exact rfl
      | error e => trivial
    split
    · exact .some ⟨rfl, hst, T.refl t⟩
    · exact .some ⟨happly _, hst, T.refl t⟩

theorem merges (h : T.Agrees g E E') : T.Merges Eq E E' := by
  intro s t vs ws hst hvs
  rw [List.forall₂_eq_eq_eq] at hvs
  rw [hvs, funext (h.resolve hst)]

theorem element (h : T.Agrees g E E')
    (hinvoke : ∀ r view, view.graph = g → T.Together Eq (invoke r view) (invoke' r view))
    (t : ValueType) {view : View} (hv : view.graph = g) :
    T.Together Eq (S.element E invoke t view) (S.element E' invoke' t view) := by
  refine together_element (h.transforms S) (fun cls _ => hinvoke (.ofClass cls) view hv) ?_
  intro d _
  cases Datatype.extract S.environment d view with
  | ok v => exact rfl
  | error e => trivial

end Agrees

theorem walk_same {x : Extractor σ View Value} {y : Extractor τ View Value} {view : View}
    (hv : view.graph = g) (h : ∀ view, view.graph = g → T.Together Eq (x view) (y view))
    (via : Path) : Outcomes
      (List.Forall₂ fun n m => T.Together Eq (x (view.refocus n)) (y (view.refocus m)))
      (via.walk view.graph view.focus) (via.walk view.graph view.focus) := by
  cases via.walk view.graph view.focus with
  | error e => trivial
  | ok hops => exact List.forall₂_same.2 fun n _ => h (view.refocus n) hv

theorem together_onHops {x : Extractor σ View Value} {y : Extractor τ View Value} {view : View}
    (hv : view.graph = g) (h : ∀ view, view.graph = g → T.Together Eq (x view) (y view))
    (via : Path) (hops : Hops) :
    T.Together Eq (Program.onHops via x hops view) (Program.onHops via y hops view) := by
  have hhops := Together.hops (T := T) (R := fun v w => T.Together Eq (x v) (y w))
    (walk_same hv h via)
  cases hops with
  | one => exact (hhops.andThen fun _ _ hviews => .only hviews).andThen fun _ _ hitem => hitem
  | all =>
    exact (hhops.andThen fun _ _ hviews => .each hviews).map fun _ _ => Value.congruent_eq.list
  | some =>
    exact (hhops.andThen fun _ _ hviews => .kept hviews).map fun _ _ => Value.congruent_eq.list

mutual

theorem together_program (hE : T.Agrees g E E')
    (h : ∀ r view, view.graph = g → T.Together Eq (invoke r view) (invoke' r view)) :
    ∀ (p : Program) (view : View), view.graph = g →
      T.Together Eq (p.extractor S E invoke view) (p.extractor S E' invoke' view)
  | .focus, _, _ | .const _, _, _ | .description, _, _ | .context, _, _ => .answer rfl
  | .fail _, _, _ => .answer trivial
  | .tick name, _, _ => by
    intro s t hst
    obtain ⟨hn, hst', hg⟩ := hE.tick hst name
    exact .some ⟨congrArg (fun n : Nat => Value.integer n) hn, hst', hg⟩
  | .path, view, _ => by
    simp only [Program.extractor]
    unfold Program.pathExtractor
    cases Path.read view.graph view.focus with
    | none => exact .endless
    | some r =>
      cases r with
      | error e => exact .answer trivial
      | ok via => exact .answer rfl
  | .typed, view, hv => by
    refine (together_typed Iff.rfl (h .dispatch view hv)).map ?_
    rintro _ _ (⟨rfl⟩ | _) <;> rfl
  | .dispatch, view, hv =>
    together_dispatched (hE.transforms S) hE.merges rfl fun cls _ => h (.ofClass cls) view hv
  | .shape sh, view, hv =>
    .shape Value.congruent_eq fun f _ => walk_same hv (fun _ hv => hE.element h f.type hv) f.path
  | .all parts, view, hv =>
    (Together.all (together_programs hE h parts view hv)).map fun _ _ => Value.congruent_eq.list
  | .firstOf parts, view, hv => .firstOf (together_programs hE h parts view hv)
  | .along via hops part, view, hv => together_onHops hv (together_program hE h part) via hops
  | .shared _ part, view, hv => hE.part (together_program hE h part) view hv
  | .call procedure, view, hv => h (.procedure procedure) view hv
  | .resolved part, view, hv => by
    rw [Program.resolved_apply, Program.resolved_apply]
    refine (together_program hE h part view hv).bindOk fun v w hvw s t hst => ?_
    rw [hvw]
    exact .some ⟨hE.resolve hst w, hst, T.refl t⟩

theorem together_programs (hE : T.Agrees g E E')
    (h : ∀ r view, view.graph = g → T.Together Eq (invoke r view) (invoke' r view)) :
    ∀ (ps : List Program) (view : View), view.graph = g →
      List.Forall₂ (fun x y => T.Together Eq (x view) (y view)) (Program.extractors S E invoke ps)
        (Program.extractors S E' invoke' ps)
  | [], _, _ => .nil
  | p :: ps, view, hv =>
    .cons (together_program hE h p view hv) (together_programs hE h ps view hv)

end

end Tandem

/-! ## intact runs -/

namespace Traced

/-- What a run does to the record that is kept of it. -/
structure Grows (t t' : Traced) : Prop where
  memo : t.state.memo.Grows t'.state.memo
  entered : t.entered <+: t'.entered

theorem Grows.refl (t : Traced) : t.Grows t := ⟨.refl _, List.prefix_rfl⟩

theorem Grows.trans {t t' t'' : Traced} (h : t.Grows t') (h' : t'.Grows t'') : t.Grows t'' :=
  ⟨h.memo.trans h'.memo, h.entered.trans h'.entered⟩

variable {P : Memo → Memo → MemoKey → SlotId → Value → Prop}

/-- `P` says what a value is, given the memo that was noted for its slot. -/
def Noted (P : Memo → Memo → MemoKey → SlotId → Value → Prop) (entered : List Memo) (m : Memo)
    (key : MemoKey) (slot : SlotId) (v : Value) : Prop :=
  ∃ m₀, entered[slot.index]? = some m₀ ∧ P m₀ m key slot v

theorem Noted.lasting (hP : ∀ m₀, Memo.Lasting (P m₀)) (entered : List Memo) :
    Memo.Lasting (Noted P entered) := by
  rintro m m' key slot v hkept ⟨m₀, hm₀, h⟩
  exact ⟨m₀, hm₀, hP m₀ m m' key slot v hkept h⟩

theorem Noted.grow {entered entered' : List Memo} {m : Memo} {key : MemoKey} {slot : SlotId}
    {v : Value} (h : Noted P entered m key slot v) (he : entered <+: entered') :
    Noted P entered' m key slot v := by
  obtain ⟨m₀, hm₀, h⟩ := h
  obtain ⟨more, rfl⟩ := he
  have hlt := (List.getElem?_eq_some_iff.1 hm₀).1
  exact ⟨m₀, by rw [List.getElem?_append_left hlt, hm₀], h⟩

structure Intact (P : Memo → Memo → MemoKey → SlotId → Value → Prop) (t : Traced) : Prop where
  bounded : t.state.memo.Bounded
  regular : t.state.memo.Regular
  length : t.entered.length = t.state.memo.slots.length
  holds : t.state.memo.Holds (Noted P t.entered)

theorem intact_start : start.Intact P where
  bounded := Memo.bounded_empty
  regular := Memo.regular_empty
  length := rfl
  holds := Memo.holds_empty

namespace Intact

variable {t t' : Traced} {key : MemoKey}

theorem enter (hP : ∀ m₀, Memo.Lasting (P m₀)) (h : t.Intact P)
    (hk : t.state.memo.lookup key = none) : (t.enter key).Intact P where
  bounded := (Memo.extends_reserve hk).bounded h.bounded
  regular := h.regular.reserve h.bounded
  length := by simp [Traced.enter, h.length]
  holds := by
    intro k slot v hslot hv
    exact ((h.holds.reserve (Noted.lasting hP _) hk) k slot v hslot hv).grow
      (List.prefix_append _ _)

theorem noted (h : t.Intact P) (hg : (t.enter key).Grows t') :
    t'.entered[t.state.memo.next.index]? = some (t.state.memo.reserve key) := by
  obtain ⟨more, hmore⟩ := hg.entered
  rw [← hmore, Traced.enter, List.append_assoc, Memo.index_next, ← h.length,
    List.getElem?_append_right (Nat.le_refl _), Nat.sub_self]
  rfl

theorem settle (hP : ∀ m₀, Memo.Lasting (P m₀)) (h : t.Intact P)
    (hk : t.state.memo.lookup key = none) (h' : t'.Intact P) (hg : (t.enter key).Grows t')
    {v : Value} (hv : P (t.state.memo.reserve key) (t'.state.memo.settle t.state.memo.next v) key
      t.state.memo.next v) :
    (t'.settle t.state.memo.next v).Intact P ∧ t.Grows (t'.settle t.state.memo.next v) := by
  have hext : (t.state.memo.reserve key).Extends t'.state.memo := hg.memo.extension
  refine ⟨⟨?_, ?_, ?_, ?_⟩, ?_, ?_⟩
  · exact (Memo.extends_settle hk hext v).bounded h.bounded
  · exact h'.regular.settle hext v
  · exact h'.length.trans (by simp [Traced.settle])
  · exact h'.holds.settle (Noted.lasting hP _) h.bounded hext ⟨_, h.noted hg, hv⟩
  · exact .settle hk hg.memo v
  · exact (List.prefix_append _ _).trans hg.entered

theorem failFrom (hP : ∀ m₀, Memo.Lasting (P m₀)) (h : t.Intact P) (h' : t'.Intact P)
    (hg : (t.enter key).Grows t') : (t'.failFrom t.state.memo.next).Intact P ∧
      t.Grows (t'.failFrom t.state.memo.next) := by
  have hext : (t.state.memo.reserve key).Extends t'.state.memo := hg.memo.extension
  have hfail := Memo.failFrom_of_extends h.bounded hext
  have hentered : t.entered <+: t'.entered := (List.prefix_append _ _).trans hg.entered
  have hle : t.state.memo.slots.length ≤ t'.state.memo.slots.length := by
    rw [← h.length, ← h'.length]
    exact hentered.length_le
  have hgrows : t.state.memo.Grows (t'.state.memo.failFrom t.state.memo.next) :=
    .failFrom h.bounded hg.memo
  refine ⟨⟨?_, ?_, ?_, ?_⟩, hgrows, hentered⟩
  · exact hgrows.extension.bounded h.bounded
  · exact h.regular.failFrom h.bounded hext
  · show t'.entered.length = (t'.state.memo.failFrom t.state.memo.next).slots.length
    rw [hfail, h'.length]
    simp only [List.length_append, List.length_replicate]
    omega
  · intro k slot v hslot hv
    exact ((h.holds.failFrom (Noted.lasting hP _) h.bounded hext) k slot v hslot hv).grow hentered

end Intact

/-! ## memoized runs and traced ones -/

def tandem (P : Memo → Memo → MemoKey → SlotId → Value → Prop) : Tandem RunState Traced where
  states s t := t.state = s ∧ t.Intact P
  grows := Grows
  refl := .refl
  trans := .trans

def passage (P : Memo → Memo → MemoKey → SlotId → Value → Prop) : Passage Traced where
  leads t t' := t.Intact P → t'.Intact P ∧ t.Grows t'
  refl t h := ⟨h, .refl t⟩
  trans h h' ht :=
    have ⟨ht', hg⟩ := h ht
    have ⟨ht'', hg'⟩ := h' ht'
    ⟨ht'', hg.trans hg'⟩

theorem keeps_of_together {α β : Type} {A : α → β → Prop} {x : Action RunState α}
    {y : Action Traced β} (h : (tandem P).Together A x y) : (passage P).Keeps y := by
  intro t r t' hrun ht
  have hst := h t.state t ⟨rfl, ht⟩
  rw [hrun] at hst
  cases hx : x t.state with
  | none =>
    rw [hx] at hst
    cases hst
  | some p =>
    rw [hx] at hst
    cases hst with
    | some hpq => exact ⟨hpq.2.1.2, hpq.2.2⟩

/-- Where the traced run ends with a value, the run itself does. -/
theorem run_of_together {α : Type} {x : Action RunState α} {y : Action Traced α}
    (h : (tandem P).Together Eq x y) {t t' : Traced} {a : α} (ht : t.Intact P)
    (hrun : y t = some (.ok a, t')) : x t.state = some (.ok a, t'.state) := by
  have hst := h t.state t ⟨rfl, ht⟩
  rw [hrun] at hst
  generalize x t.state = o at hst ⊢
  cases hst with
  | @some p _ hpq =>
    obtain ⟨hr, ⟨hstate, -⟩, -⟩ := hpq
    obtain ⟨r, s'⟩ := p
    obtain ⟨e, e', -, he⟩ | ⟨b, b', rfl, hb, rfl⟩ := hr.cases
    · cases he
    · cases hb
      rw [hstate]

theorem traced_of_together {α : Type} {x : Action RunState α} {y : Action Traced α}
    (h : (tandem P).Together Eq x y) {t : Traced} {s' : RunState} {a : α} (ht : t.Intact P)
    (hrun : x t.state = some (.ok a, s')) :
    ∃ t', y t = some (.ok a, t') ∧ t'.state = s' ∧ t'.Intact P ∧ t.Grows t' := by
  have hst := h t.state t ⟨rfl, ht⟩
  rw [hrun] at hst
  generalize y t = o at hst ⊢
  cases hst with
  | @some _ q hpq =>
    obtain ⟨hr, ⟨rfl, ht'⟩, hg⟩ := hpq
    obtain ⟨r, t'⟩ := q
    obtain ⟨e, e', he, -⟩ | ⟨b, b', hb, rfl, rfl⟩ := hr.cases
    · cases he
    · cases hb
      exact ⟨t', rfl, rfl, ht', hg⟩

theorem together_shared (hP : ∀ m₀, Memo.Lasting (P m₀)) {id : ExtractorId}
    {x : Extractor RunState View Value} {y : Extractor Traced View Value} {view : View}
    (hxy : (tandem P).Together Eq (x view) (y view))
    (hvalue : ∀ (t : Traced) (v : Value) (t' : Traced), t.Intact P →
      t.state.memo.lookup (.of id view.focus) = none →
      y view (t.enter (.of id view.focus)) = some (.ok v, t') → t'.Intact P →
      (t.enter (.of id view.focus)).Grows t' → P (t.state.memo.reserve (.of id view.focus))
        (t'.state.memo.settle t.state.memo.next v) (.of id view.focus) t.state.memo.next v) :
    (tandem P).Together Eq (Memo.shared id x view) (shared id y view) := by
  rintro _ t ⟨rfl, ht⟩
  cases hk : t.state.memo.lookup (.of id view.focus) with
  | some slot =>
    simp only [Memo.shared, shared, hk]
    exact .some ⟨rfl, ⟨rfl, ht⟩, .refl t⟩
  | none =>
    have h := hxy _ (t.enter (.of id view.focus)) ⟨rfl, ht.enter hP hk⟩
    have henter : (t.enter (.of id view.focus)).state =
      { t.state with memo := t.state.memo.reserve (.of id view.focus) } := rfl
    simp only [Memo.shared, shared, hk, ← henter]
    cases hy : y view (t.enter (.of id view.focus)) with
    | none =>
      rw [hy] at h
      generalize x view (t.enter (.of id view.focus)).state = o at h ⊢
      cases h
      exact .none
    | some q =>
      rw [hy] at h
      generalize x view (t.enter (.of id view.focus)).state = o at h ⊢
      cases h with
      | @some p _ hpq =>
        obtain ⟨r, s'⟩ := p
        obtain ⟨r', t'⟩ := q
        obtain ⟨hr, ⟨rfl, ht'⟩, hg⟩ := hpq
        obtain ⟨e, e', rfl, rfl⟩ | ⟨v, _, rfl, rfl, rfl⟩ := hr.cases
        · obtain ⟨hintact, hgrows⟩ := ht.failFrom hP ht' hg
          exact .some ⟨trivial, ⟨rfl, hintact⟩, hgrows⟩
        · obtain ⟨hintact, hgrows⟩ := ht.settle hP hk ht' hg (hvalue t v t' ht hk hy ht' hg)
          exact .some ⟨rfl, ⟨rfl, hintact⟩, hgrows⟩

theorem shared_of_ok {id : ExtractorId} {y : Extractor Traced View Value} {view : View}
    {t t' : Traced} {v : Value} (hk : t.state.memo.lookup (.of id view.focus) = none)
    (h : shared id y view t = some (.ok v, t')) :
    ∃ w t'', y view (t.enter (.of id view.focus)) = some (.ok w, t'') ∧
      v = .ref t.state.memo.next ∧ t' = t''.settle t.state.memo.next w := by
  simp only [shared, hk] at h
  split at h
  · cases h
  · rename_i w t'' hrun
    cases h
    exact ⟨w, t'', hrun, rfl, rfl⟩
  · cases h

theorem answers_shared (hP : ∀ m₀, Memo.Lasting (P m₀)) {id : ExtractorId}
    {y : Extractor Traced View Value} {view : View} (hy : (passage P).Keeps (y view))
    {t t' : Traced} {v : Value} (ht : t.Intact P) (h : shared id y view t = some (.ok v, t')) :
    ∃ slot, v = .ref slot ∧ t'.state.memo.lookup (.of id view.focus) = some slot := by
  cases hk : t.state.memo.lookup (.of id view.focus) with
  | some slot =>
    simp only [shared, hk] at h
    cases h
    exact ⟨slot, rfl, hk⟩
  | none =>
    obtain ⟨w, t'', hrun, rfl, rfl⟩ := shared_of_ok hk h
    obtain ⟨-, hg⟩ := hy _ _ _ hrun (ht.enter hP hk)
    exact ⟨_, rfl, Memo.lookup_settle_next hg.memo.extension w⟩

end Traced

namespace Setting

variable {S : Setting} {g : Graph} {P : Memo → Memo → MemoKey → SlotId → Value → Prop}

/-- Runs of routines at most `depth` deep have traced runs beside them that do the same, and are
answered with the slot that the routine then has at the node. -/
structure Faithful (S : Setting) (g : Graph) (P : Memo → Memo → MemoKey → SlotId → Value → Prop)
    (depth : Nat) : Prop where
  together : ∀ r view, view.graph = g → (Traced.tandem P).Together Eq
    (S.invoke .memoized depth r view) (S.invoke .traced depth r view)
  answers : ∀ r view, view.graph = g → ∀ (t : Traced) (v : Value) (t' : Traced), t.Intact P →
    S.invoke .traced depth r view t = some (.ok v, t') →
      ∃ slot, v = .ref slot ∧ t'.state.memo.lookup (.of (.routine r) view.focus) = some slot

theorem Faithful.keeps {depth : Nat} (h : S.Faithful g P depth) (r : Routine) {view : View}
    (hv : view.graph = g) : (Traced.passage P).Keeps (S.invoke .traced depth r view) :=
  Traced.keeps_of_together (h.together r view hv)

/-- The value that a program ends with is as `P` says. -/
structure Attests (S : Setting) (g : Graph)
    (P : Memo → Memo → MemoKey → SlotId → Value → Prop) : Prop where
  lasting : ∀ m₀, Memo.Lasting (P m₀)
  part : ∀ m₀ m number kind lexical slot v, P m₀ m ⟨.part number, kind, lexical⟩ slot v
  value : ∀ {r p view} {depth : Nat} {t t' : Traced} {v : Value}, S.program? r = some p →
    view.graph = g → S.Faithful g P depth → t.Intact P →
    t.state.memo.lookup (.of (.routine r) view.focus) = none →
    p.extractor S .traced (S.invoke .traced depth) view (t.enter (.of (.routine r) view.focus)) =
      some (.ok v, t') → t'.Intact P → (t.enter (.of (.routine r) view.focus)).Grows t' →
      P (t.state.memo.reserve (.of (.routine r) view.focus))
        (t'.state.memo.settle t.state.memo.next v) (.of (.routine r) view.focus)
          t.state.memo.next v

theorem agrees_traced (hP : ∀ m₀, Memo.Lasting (P m₀))
    (hpart : ∀ m₀ m number kind lexical slot v, P m₀ m ⟨.part number, kind, lexical⟩ slot v) :
    (Traced.tandem P).Agrees g .memoized .traced where
  resolve := by
    rintro _ t ⟨rfl, _⟩ v
    rfl
  tick := by
    rintro _ t ⟨rfl, ht⟩ name
    exact ⟨rfl, ⟨rfl, ⟨ht.bounded, ht.regular, ht.length, ht.holds⟩⟩, .refl _, List.prefix_rfl⟩
  part hxy view hv := Traced.together_shared hP (hxy view hv) fun _ _ _ _ _ _ _ _ =>
    hpart _ _ _ _ _ _ _

theorem Attests.faithful (hS : S.Attests g P) (depth : Nat) : S.Faithful g P depth := by
  induction depth with
  | zero =>
    refine ⟨fun r view _ => .endless, fun r view _ t v t' _ h => ?_⟩
    cases h
  | succ depth ih =>
    have hprogram : ∀ (p : Program) (view : View), view.graph = g → (Traced.tandem P).Together Eq
        (p.extractor S .memoized (S.invoke .memoized depth) view)
        (p.extractor S .traced (S.invoke .traced depth) view) :=
      Tandem.together_program (agrees_traced hS.lasting hS.part) ih.together
    refine ⟨fun r view hv => ?_, fun r view hv t v t' ht h => ?_⟩
    · cases hp : S.program? r with
      | none =>
        simp only [invoke, hp]
        exact .answer trivial
      | some p =>
        simp only [invoke, hp]
        exact Traced.together_shared hS.lasting (hprogram p view hv)
          fun t v t' ht hk hrun ht' hg => hS.value hp hv ih ht hk hrun ht' hg
    · cases hp : S.program? r with
      | none =>
        simp only [invoke, hp] at h
        cases h
      | some p =>
        simp only [invoke, hp] at h
        exact Traced.answers_shared hS.lasting
          (Traced.keeps_of_together (hprogram p view hv)) ht h

end Setting
end ShaclExtract
