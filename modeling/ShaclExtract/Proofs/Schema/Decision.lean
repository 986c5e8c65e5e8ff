import ShaclExtract.Proofs.Memo.Growth
import ShaclExtract.Proofs.Path.Bounds
import ShaclExtract.Proofs.Shape.Conformance
import ShaclExtract.Proofs.Shape.Extraction

/-!
# ShaclExtract.Proofs.Schema.Decision

How memoized extraction decides a greatest fixpoint. The pairs that have a slot (`Memo.known`) are
the hypotheses of a run: a request for one of them is granted at once. What keeps this honest is
that every pair whose slot is ready follows from the known pairs in one step (`Memo.Supported`). A
run that fails takes back every slot that was filled under its hypotheses, so this is an invariant;
and when no slot is pending any more, the known pairs support themselves, and so belong to the
greatest fixpoint.

An action decides a property of sets of pairs (`Decides`) if its output proves the property of the
known pairs and its failure refutes it of the greatest fixpoint. Failures need no invariant: nothing
that is granted can make a run fail.
-/

namespace ShaclExtract

theorem MemoKey.routine_eq {r r' : Routine} {node node' : Term}
    (h : MemoKey.of (.routine r) node = .of (.routine r') node') : r = r' := by
  injection h with hid _ _
  injection hid

def classKey (cls : Iri) (node : Term) : MemoKey := .of (.routine (.ofClass cls)) node

namespace Memo

/-- The pairs with a slot whose node can be met from the view. -/
def known (m : Memo) (view : View) : Pairs :=
  {p | Path.Within view.graph view.focus p.2 ∧ (m.lookup (classKey p.1 p.2)).isSome}

/-- Pairs with a ready slot follow from the pairs that are known. -/
def Supported (m : Memo) (view : View) (F : Pairs →o Pairs) : Prop :=
  ∀ cls node slot v, Path.Within view.graph view.focus node →
    m.lookup (classKey cls node) = some slot → m.slot? slot = some (.ready v) →
      (cls, node) ∈ F (m.known view)

variable {m m' : Memo} {view : View} {F : Pairs →o Pairs}

theorem Extends.known_subset (h : m.Extends m') : m.known view ⊆ m'.known view := by
  rintro ⟨cls, node⟩ ⟨hnear, hsome⟩
  obtain ⟨slot, hslot⟩ := Option.isSome_iff_exists.1 hsome
  exact ⟨hnear, Option.isSome_iff_exists.2 ⟨slot, h.lookup hslot⟩⟩

theorem supported_empty : empty.Supported view F := by
  intro cls node slot v _ hk
  cases hk

theorem Supported.reserve (h : m.Supported view F) (hm : m.Bounded) {key : MemoKey}
    (hk : m.lookup key = none) : (m.reserve key).Supported view F := by
  intro cls node slot v hnear hslot hready
  have hext := extends_reserve hk
  rw [lookup_reserve] at hslot
  split at hslot
  · cases hslot
    simp [slot?, next] at hready
  · have hold : m.slot? slot = some (.ready v) := by
      obtain ⟨c, hc⟩ : ∃ c, m.slot? slot = some c :=
        ⟨_, List.getElem?_eq_getElem (lookup_lt hm hslot)⟩
      rw [hext.slot? hc] at hready
      rw [hc, hready]
    exact F.monotone hext.known_subset (h cls node slot v hnear hslot hold)

theorem Supported.settle (hm : m.Bounded) {cls : Iri} {node : Term}
    (hinj : ∀ node', Path.Within view.graph view.focus node' →
      classKey cls node' = classKey cls node → node' = node)
    (hext : (m.reserve (classKey cls node)).Extends m') (h : m'.Supported view F)
    (hF : (cls, node) ∈ F (m'.known view)) (v : Value) :
    (m'.settle m.next v).Supported view F := by
  intro cls' node' slot w hnear hslot hready
  rw [lookup_settle] at hslot
  by_cases hs : slot = m.next
  · subst hs
    have hkey := eq_of_lookup_next hm hext hslot
    obtain rfl : cls' = cls := by injection MemoKey.routine_eq hkey
    obtain rfl := hinj node' hnear hkey
    exact hF
  · have hold : m'.slot? slot = some (.ready w) := by
      rw [← hready]
      have hne : m.next.index ≠ slot.index := by
        intro heq
        apply hs
        cases slot
        cases heq
        rfl
      rw [slot?, slot?, slots_settle, List.getElem?_set_ne hne]
    exact h cls' node' slot w hnear hslot hold

theorem Supported.of_index_eq (h : m.Supported view F) (hm : m.Bounded)
    (hindex : m'.index = m.index) {added : List Slot} (hslots : m'.slots = m.slots ++ added) :
    m'.Supported view F := by
  have hlookup : ∀ k, m'.lookup k = m.lookup k := fun k => by simp only [lookup, hindex]
  have hknown : m'.known view = m.known view := by
    simp only [known, hlookup]
  intro cls node slot v hnear hslot hready
  rw [hlookup] at hslot
  rw [hknown]
  refine h cls node slot v hnear hslot ?_
  rw [slot?, hslots, List.getElem?_append_left (lookup_lt hm hslot)] at hready
  exact hready

theorem Supported.known_subset_gfp (h : m.Supported view F)
    (hready : ∀ k slot, m.lookup k = some slot → ∃ v, m.slot? slot = some (.ready v)) :
    m.known view ⊆ F.gfp := by
  refine F.le_gfp ?_
  rintro ⟨cls, node⟩ ⟨hnear, hsome⟩
  obtain ⟨slot, hslot⟩ := Option.isSome_iff_exists.1 hsome
  obtain ⟨v, hv⟩ := hready _ slot hslot
  exact h cls node slot v hnear hslot hv

end Memo

/-- What a run that ended says about a property of sets of pairs. -/
structure Decided {ο : Type} (view : View) (F : Pairs →o Pairs) (A : Pairs → Prop) (s : RunState)
    (r : Except Failure ο) (s' : RunState) : Prop where
  extends_memo : s.memo.Extends s'.memo
  supported : s'.memo.Supported view F
  accepted : ∀ a, r = .ok a → A (s'.memo.known view)
  rejected : ∀ e, r = .error e → ¬ A F.gfp

/-- Every run from a supported memo that ends decides the property. -/
def Decides {ο : Type} (view : View) (F : Pairs →o Pairs) (A : Pairs → Prop)
    (x : Action RunState ο) : Prop :=
  ∀ s r s', s.memo.Bounded → s.memo.Supported view F → x s = some (r, s') →
    Decided view F A s r s'

namespace Decides

variable {α ο : Type} {view : View} {F : Pairs →o Pairs} {A B : Pairs → Prop}

theorem congr {x : Action RunState ο} (h : Decides view F A x) (hAB : ∀ S, A S ↔ B S) :
    Decides view F B x := by
  intro s r s' hs hsup hrun
  obtain ⟨hext, hsup', hacc, hrej⟩ := h s r s' hs hsup hrun
  exact ⟨hext, hsup', fun a ha => (hAB _).1 (hacc a ha), fun e he hb => hrej e he ((hAB _).2 hb)⟩

theorem answer (r : Except Failure ο) :
    Decides view F (fun _ => ∃ a, r = .ok a) (Action.answer r) := by
  intro s r' s' _ hsup hrun
  cases hrun
  refine ⟨.refl _, hsup, fun a ha => ⟨a, ha⟩, ?_⟩
  rintro e he ⟨a, ha⟩
  rw [he] at ha
  cases ha

theorem ok (a : ο) (h : ∀ S, A S) : Decides view F A (Action.answer (.ok a)) :=
  (answer (.ok a)).congr fun S => ⟨fun _ => h S, fun _ => ⟨a, rfl⟩⟩

theorem error (e : Failure) (h : ¬ A F.gfp) :
    Decides view F A (Action.answer (.error e) : Action RunState ο) := by
  intro s r s' _ hsup hrun
  cases hrun
  refine ⟨.refl _, hsup, ?_, fun _ _ => h⟩
  rintro a ⟨⟩

/-- Both are decided: first one, then the other for the outputs that the first one may have. -/
theorem bindOk {x : Action RunState α} {k : α → Action RunState ο} (hA : Monotone A)
    (hx : Decides view F A x)
    (hk : ∀ s a s', x s = some (.ok a, s') → Decides view F B (k a)) :
    Decides view F (fun S => A S ∧ B S) (Action.bindOk x k) := by
  intro s r s' hs hsup hrun
  obtain ⟨e, rfl, h₁⟩ | ⟨a, s₁, h₁, hrun⟩ := Action.bindOk_eq_some_iff.1 hrun
  · obtain ⟨hext, hsup', _, hrej⟩ := hx s _ s' hs hsup h₁
    refine ⟨hext, hsup', ?_, fun e' _ hAB => hrej e rfl hAB.1⟩
    rintro a ⟨⟩
  · obtain ⟨hext, hsup₁, hacc, _⟩ := hx s _ s₁ hs hsup h₁
    obtain ⟨hext', hsup', hacc', hrej'⟩ := hk s a s₁ h₁ s₁ r s' (hext.bounded hs) hsup₁ hrun
    refine ⟨hext.trans hext', hsup', fun b hb => ⟨?_, hacc' b hb⟩, fun e he hAB => ?_⟩
    · exact hA hext'.known_subset (hacc a rfl)
    · exact hrej' e he hAB.2

/-- One of the two is decided: the second one is asked only if the first one is refuted. -/
theorem bindError {x : Action RunState ο} {k : Failure → Action RunState ο}
    (hx : Decides view F A x) (hk : ∀ e, Decides view F B (k e)) :
    Decides view F (fun S => A S ∨ B S) (Action.bindError x k) := by
  intro s r s' hs hsup hrun
  obtain ⟨a, rfl, h₁⟩ | ⟨e, s₁, h₁, hrun⟩ := Action.bindError_eq_some_iff.1 hrun
  · obtain ⟨hext, hsup', hacc, _⟩ := hx s _ s' hs hsup h₁
    refine ⟨hext, hsup', fun _ _ => .inl (hacc a rfl), ?_⟩
    rintro e ⟨⟩
  · obtain ⟨hext, hsup₁, _, hrej⟩ := hx s _ s₁ hs hsup h₁
    obtain ⟨hext', hsup', hacc', hrej'⟩ := hk e s₁ r s' (hext.bounded hs) hsup₁ hrun
    refine ⟨hext.trans hext', hsup', fun b hb => .inr (hacc' b hb), fun e' he hAB => ?_⟩
    exact hAB.elim (hrej e rfl) (hrej' e' he)

/-- Nothing is decided by what only reshapes the output. -/
theorem map {x : Action RunState α} (hA : Monotone A) (hx : Decides view F A x) (f : α → ο) :
    Decides view F A (Action.bindOk x fun a => Action.answer (.ok (f a))) :=
  (hx.bindOk hA fun _ a _ _ => ok (A := fun _ => True) (f a) fun _ => trivial).congr
    fun _ => by simp

theorem mapError {x : Action RunState ο} (hx : Decides view F A x) (f : Failure → Failure) :
    Decides view F A (Action.bindError x fun e => Action.answer (.error (f e))) :=
  (hx.bindError fun e => error (A := fun _ => False) (f e) id).congr
    fun _ => by simp

/-- Hypotheses are granted; other pairs are decided by what follows in one step. -/
theorem shared {cls : Iri} {view' : View} {x : Extractor RunState View Value}
    (hnear : Path.Within view.graph view.focus view'.focus)
    (hinj : ∀ node, Path.Within view.graph view.focus node →
      classKey cls node = classKey cls view'.focus → node = view'.focus)
    (hx : Decides view F (fun S => (cls, view'.focus) ∈ F S) (x view')) :
    Decides view F (fun S => (cls, view'.focus) ∈ S)
      (Memo.shared (.routine (.ofClass cls)) x view') := by
  intro s r s' hs hsup hrun
  obtain ⟨slot, hk, rfl, rfl⟩ | ⟨hk, r₁, s₁, hbody, hend⟩ := Memo.shared_cases hrun
  · refine ⟨.refl _, hsup, fun _ _ => ⟨hnear, Option.isSome_iff_exists.2 ⟨slot, hk⟩⟩, ?_⟩
    rintro e ⟨⟩
  · have hres := Memo.extends_reserve hk
    obtain ⟨hext, hsup₁, hacc, hrej⟩ := hx _ r₁ s₁ (hres.bounded hs) (hsup.reserve hs hk) hbody
    obtain ⟨v, rfl, rfl, rfl⟩ | ⟨e, rfl, rfl, rfl⟩ := hend
    · refine ⟨Memo.extends_settle hk hext v, hsup₁.settle hs hinj hext (hacc v rfl) v, ?_, ?_⟩
      · refine fun _ _ => ⟨hnear, Option.isSome_iff_exists.2 ⟨s.memo.next, ?_⟩⟩
        exact hext.lookup (by simp [Memo.lookup_reserve, classKey])
      · rintro e ⟨⟩
    · have hfail := Memo.failFrom_of_extends hs hext
      refine ⟨?_, ?_, by rintro a ⟨⟩, fun _ _ hmem => hrej e rfl ?_⟩
      · dsimp only
        rw [hfail]
        exact ⟨_, [], rfl, by simp⟩
      · dsimp only
        rw [hfail]
        exact hsup.of_index_eq hs rfl rfl
      · rw [F.map_gfp]
        exact hmem

/-! ## combinators -/

variable {ι β : Type}

theorem each {x : Extractor RunState ι ο} {is : List ι} {A : ι → Pairs → Prop}
    (hA : ∀ i ∈ is, Monotone (A i)) (hx : ∀ i ∈ is, Decides view F (A i) (x i)) :
    Decides view F (fun S => ∀ i ∈ is, A i S) (x.each is) := by
  induction is with
  | nil => exact ok [] (by simp)
  | cons i is ih =>
    have hrest := ih (fun i hi => hA i (.tail _ hi)) fun i hi => hx i (.tail _ hi)
    have hmono : Monotone fun S => ∀ i ∈ is, A i S :=
      fun S T hST h i hi => hA i (.tail _ hi) hST (h i hi)
    rw [Extractor.each_cons]
    refine ((hx i List.mem_cons_self).bindOk (hA i List.mem_cons_self)
      fun _ a _ _ => hrest.map hmono fun as => a :: as).congr fun S => ?_
    exact (List.forall_mem_cons (p := fun i => A i S)).symm

theorem all {l : List β} {x : β → Extractor RunState ι ο} {i : ι} {A : β → Pairs → Prop}
    (hA : ∀ b ∈ l, Monotone (A b)) (hx : ∀ b ∈ l, Decides view F (A b) (x b i)) :
    Decides view F (fun S => ∀ b ∈ l, A b S) (Extractor.all (l.map x) i) := by
  rw [Extractor.all_map]
  exact each hA hx

theorem firstOfAfter {l : List β} {x : β → Extractor RunState ι ο} {i : ι}
    {A : β → Pairs → Prop} (hx : ∀ b ∈ l, Decides view F (A b) (x b i)) (last : Failure) :
    Decides view F (fun S => ∃ b ∈ l, A b S) (Extractor.firstOfAfter last (l.map x) i) := by
  induction l generalizing last with
  | nil => exact error last (by simp)
  | cons b l ih =>
    rw [List.map_cons, Extractor.firstOfAfter_cons]
    refine ((hx b List.mem_cons_self).bindError
      fun e => ih (fun b hb => hx b (.tail _ hb)) e).congr fun S => ?_
    simp

/-! ## shapes -/

variable {env : Environment} {view' : View} {element : Extractor RunState View Value}

theorem accepts_mono (t : ValueType) (g : Graph) (v : View) :
    Monotone fun S => t.Accepts env g S v.focus :=
  fun _ _ hST hacc => hacc.mono hST

theorem counted {f : Property} (hl : f.isList = true) (target : Iri) (items : List Value) :
    Decides view F (fun _ => f.Counts items.length) (f.counted target items) := by
  refine (answer _).congr fun _ => ?_
  dsimp only
  rw [Property.counts_of_isList hl]
  by_cases hadm : f.admits items.length <;> simp [hadm]

theorem value {f : Property} (hv : view.Near view') (target : Iri)
    (h : ∀ v, view.Near v →
      Decides view F (fun S => f.type.Accepts env view'.graph S v.focus) (element v)) :
    Decides view F (fun S => f.Satisfied env view'.graph S view'.focus)
      (f.value target element view') := by
  cases hwalk : f.path.walk view'.graph view'.focus with
  | error e =>
    rw [Property.value_of_error hwalk]
    exact error e (Property.not_satisfied_of_walk hwalk _)
  | ok hops =>
    have hnear : ∀ hop ∈ hops, view.Near (view'.refocus hop) :=
      fun hop hmem => hv.trans (View.near_refocus hwalk _ (List.mem_map_of_mem hmem))
    cases hl : f.isList with
    | true =>
      rw [Property.value_of_isList hl hwalk]
      have heach := each (A := fun hop S => f.type.Accepts env view'.graph S hop)
        (fun hop _ => accepts_mono f.type view'.graph (view'.refocus hop))
        fun hop hmem => h _ (hnear hop hmem)
      have hmono : Monotone fun S => ∀ hop ∈ hops, f.type.Accepts env view'.graph S hop :=
        fun S T hST hall hop hmem => (hall hop hmem).mono hST
      refine (heach.bindOk (B := fun _ => f.Counts hops.length) hmono
        fun s items s' hrun => ?_).congr fun S => ?_
      · rw [← Extractor.length_each hrun]
        exact counted hl target items
      · rw [Property.satisfied_of_walk hwalk, and_comm]
    | false =>
      by_cases hone : hops.length = 1
      · obtain ⟨node, rfl⟩ := List.length_eq_one_iff.1 hone
        rw [Property.value_of_single hl hwalk]
        refine (h _ (hnear _ List.mem_cons_self)).congr fun S => ?_
        rw [Property.satisfied_of_walk hwalk, Property.counts_of_not_isList hl]
        simp [View.refocus]
      · rw [Property.value_of_missing hl hwalk hone]
        refine error _ fun hsat => hone ?_
        exact (Property.counts_of_not_isList hl _).1
          ((Property.satisfied_of_walk hwalk _).1 hsat).1

theorem entry {f : Property} (hv : view.Near view') (shapeId : String) (target : Iri)
    (h : ∀ v, view.Near v →
      Decides view F (fun S => f.type.Accepts env view'.graph S v.focus) (element v)) :
    Decides view F (fun S => 1 ≤ f.minCount → f.Satisfied env view'.graph S view'.focus)
      (f.entry shapeId target element view') := by
  have hmono : Monotone fun S => f.Satisfied env view'.graph S view'.focus :=
    fun S T hST hsat => hsat.mono hST
  have hfilled : Decides view F (fun S => f.Satisfied env view'.graph S view'.focus)
      ((((f.value target element).mapError (f.located shapeId target)).map
        fun v => [(f.name, v)]) view') := by
    rw [Extractor.map_apply, Extractor.mapError_apply]
    exact ((value hv target h).mapError _).map hmono _
  by_cases hmin : f.minCount = 0
  · rw [Property.entry_of_optional hmin]
    refine (hfilled.bindError (B := fun _ => True) fun e => ?_).congr fun S => by simp [hmin]
    exact ok _ fun _ => trivial
  · rw [Property.entry_of_mandatory hmin]
    have hpos : 1 ≤ f.minCount := Nat.pos_of_ne_zero hmin
    exact hfilled.congr fun S => by simp [hpos]

theorem shape {sh : Shape} {element : ValueType → Extractor RunState View Value}
    (hv : view.Near view')
    (h : ∀ f ∈ sh.properties, ∀ v, view.Near v →
      Decides view F (fun S => f.type.Accepts env view'.graph S v.focus) (element f.type v)) :
    Decides view F (fun S => sh.Conforms env view'.graph S view'.focus)
      (sh.extractor element view') := by
  unfold Shape.extractor
  rw [Extractor.map_apply]
  have hmono : ∀ f ∈ sh.properties, Monotone fun S =>
      1 ≤ f.minCount → f.Satisfied env view'.graph S view'.focus :=
    fun f _ S T hST hsat hmin => (hsat hmin).mono hST
  exact (all hmono fun f hf => entry hv sh.id sh.target (h f hf)).map
    (fun S T hST hconf => Shape.Conforms.mono hconf hST) _

end Decides
end ShaclExtract
