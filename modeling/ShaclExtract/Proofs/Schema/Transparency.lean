import ShaclExtract.Proofs.Schema.Correspondence

/-!
# ShaclExtract.Proofs.Schema.Transparency

Memoization cannot be observed where plain evaluation ends. Plain evaluation runs a routine again
whenever it is asked for, so it may not end on data that leads back to itself; if it does end, then
so does extraction, with the same failure or with a value that unfolds to the same
(`Schema.memoization_unobservable`).

* A slot is right about its node: its value unfolds to what plain evaluation has for the routine
  there, to some depth (`Schema.Meant`).
* A slot that is pending is never asked for. When a routine ends at a node with depth `k + 1`, but
  not with depth `k`, all requests of its program end with depth `k`. So no request of depth `k` is
  for this routine at this node, nor for one that was pending before (`Schema.Backed.unfinished`).
-/

namespace ShaclExtract

/-! ## plain evaluation with more depth -/

def Correspondence.same (σ : Type) : Correspondence σ σ where
  states := Eq
  grows _ _ := True
  values _ := Eq
  refl _ := trivial
  trans _ _ := trivial
  kept _ h := h
  of_refs _ := rfl
  list h := by rw [List.forall₂_eq_eq_eq] at h; rw [h]
  record h := by rw [Record.related_eq h]

/-- The first depth with an answer, for a search that keeps its answer. -/
theorem exists_first {α : Type} {f : Nat → Option α} (h₀ : f 0 = none)
    (hf : ∀ n a, f n = some a → f (n + 1) = some a) {n : Nat} {a : α} (h : f n = some a) :
    ∃ k < n, f k = none ∧ f (k + 1) = some a := by
  induction n with
  | zero => cases h₀.symm.trans h
  | succ n ih =>
    cases hn : f n with
    | none => exact ⟨n, Nat.lt_succ_self n, hn, h⟩
    | some b =>
      cases (hf n b hn).symm.trans h
      obtain ⟨k, hk, hnone, hsome⟩ := ih hn
      exact ⟨k, Nat.lt_succ_of_lt hk, hnone, hsome⟩

namespace Setting

theorem related_mergeFields {m : Memo} {r r' : Record} (hr : Record.Related m.UnfoldsTo r r')
    {v w : Value} (h : m.UnfoldsTo v w) :
    Record.Related m.UnfoldsTo (Represented.mergeFields r (m.resolve v))
      (Represented.mergeFields r' w) := by
  obtain ⟨fields, fields', hv, rfl, hfields⟩ | ⟨hv, hw⟩ := h.record_or
  · rw [hv]
    exact hr.merge hfields
  · rwa [Represented.mergeFields_of_ne hv, Represented.mergeFields_of_ne hw]

/-- Values are resolved before they are merged, so it does not matter which are references. -/
theorem related_mergedRecord {m : Memo} {vs ws : List Value}
    (h : List.Forall₂ m.UnfoldsTo vs ws) :
    Record.Related m.UnfoldsTo (mergedRecord m.resolve vs) (mergedRecord id ws) :=
  related_mergedRecord_of_fields (h.imp fun _ _ hv _ _ hr => related_mergeFields hr hv)

end Setting

namespace Schema

variable {options : Options} {g : Graph} {schema : Schema} {view : View} {counters : Counters}

theorem corresponds_plain {σ τ : Type} {C : Correspondence σ τ} {E : Strategy σ} {E' : Strategy τ}
    {invoke : Routine → Extractor σ View Value} {invoke' : Routine → Extractor τ View Value}
    (ho : options.Plain) (hc : compile options g = some (.ok schema)) (hm : C.Merges E E')
    {r : Routine} {p : Program} (hp : schema.setting.program? r = some p)
    (h : ∀ r view', view.Near view' →
      C.Corresponds (fun _ => True) C.values (invoke r view') (invoke' r view')) :
    C.Corresponds (fun _ => True) C.values (p.extractor schema.setting E invoke view)
      (p.extractor schema.setting E' invoke' view) := by
  refine corresponds_program ho.custom hc (fun _ h => h)
    (Correspondence.transforms_of_empty (transforms_of_compile ho hc) E E') hp ?_ (fun _ => hm)
    (.refl schema r view) fun r' node hnext => h r' _ hnext.requests.near
  rintro name rfl
  cases (program?_procedure ho hc name).symm.trans hp

theorem corresponds_deeper (ho : options.Plain) (hc : compile options g = some (.ok schema))
    (depth : Nat) : ∀ r view, (Correspondence.same Counters).Corresponds (fun _ => True)
      (Correspondence.same Counters).values (schema.setting.invoke .plain depth r view)
      (schema.setting.invoke .plain (depth + 1) r view) := by
  induction depth with
  | zero =>
    intro r view s result s' t _ _ h
    cases h
  | succ depth ih =>
    intro r view
    have hmerges : (Correspondence.same Counters).Merges .plain .plain := by
      rintro s _ vs ws rfl hvs
      have heq : List.Forall₂ Eq vs ws := hvs
      rw [List.forall₂_eq_eq_eq] at heq
      rw [heq]
      rfl
    cases hp : schema.setting.program? r with
    | none =>
      rw [Setting.invoke_of_none _ hp, Setting.invoke_of_none _ hp]
      exact .answer fun _ _ => rfl
    | some p =>
      rw [Setting.invoke_of_program _ hp, Setting.invoke_of_program _ hp]
      exact corresponds_plain ho hc hmerges hp fun r' view' _ => ih r' view'

/-- What plain evaluation answers, it answers with more depth too. -/
theorem invoke_plain_mono (ho : options.Plain) (hc : compile options g = some (.ok schema))
    {depth depth' : Nat} (hle : depth ≤ depth') {r : Routine}
    {answer : Except Failure Value × Counters}
    (h : schema.setting.invoke .plain depth r view counters = some answer) :
    schema.setting.invoke .plain depth' r view counters = some answer := by
  induction hle with
  | refl => exact h
  | @step depth' _ ih =>
    obtain ⟨result, s⟩ := answer
    obtain ⟨result', s', hrun, rfl, _, hresult⟩ :=
      corresponds_deeper ho hc depth' r view counters result s counters rfl trivial ih
    rw [hrun]
    obtain ⟨e, rfl, rfl⟩ | ⟨v, w, rfl, rfl, hvw⟩ := hresult.cases
    · rfl
    · rw [show v = w from hvw]

/-! ## memoized evaluation beside plain evaluation -/

/-- The value unfolds to what plain evaluation has for the routine at the node. -/
def Meant (schema : Schema) (view : View) (counters : Counters) (m : Memo) (key : MemoKey)
    (_ : SlotId) (v : Value) : Prop :=
  ∀ r node, Path.Within view.graph view.focus node → key = .of (.routine r) node →
    ∃ depth w, schema.setting.invoke .plain depth r ⟨node, view.graph⟩ counters =
      some (.ok w, counters) ∧ m.UnfoldsTo v w

theorem lasting_meant : Memo.Lasting (schema.Meant view counters) := by
  intro m m' key slot v hkept h r node hnear hkey
  obtain ⟨depth, w, hrun, hw⟩ := h r node hnear hkey
  exact ⟨depth, w, hrun, hw.kept hkept⟩

/-- The memo while plain evaluation has `depth` left and memoized evaluation `bound`. -/
structure Backed (schema : Schema) (view : View) (counters : Counters) (depth bound : Nat)
    (m : Memo) : Prop where
  bounded : m.Bounded
  regular : m.Regular
  values : m.Holds (schema.Meant view counters)
  /-- What is unfinished, plain evaluation does not reach with the depth that is left. -/
  unfinished : ∀ r node, Path.Within view.graph view.focus node →
    m.Unfinished (.of (.routine r) node) →
      schema.setting.invoke .plain depth r ⟨node, view.graph⟩ counters = none
  room : (m.missing (schema.setting.keys view)).card < bound

theorem backed_empty (depth : Nat) :
    schema.Backed view counters depth (schema.setting.depth view.graph) .empty where
  bounded := Memo.bounded_empty
  regular := Memo.regular_empty
  values := Memo.holds_empty
  unfinished r node _ := by
    rintro ⟨slot, hslot, _⟩
    cases hslot
  room := Nat.lt_of_le_of_lt (Finset.card_le_card (Finset.filter_subset _ _))
    (schema.setting.card_keys_lt view)

namespace Backed

variable {depth bound : Nat} {m m' : Memo}

theorem grow (h : schema.Backed view counters depth bound m) (hg : m.Grows m')
    (hregular : m'.Regular) (hvalues : m'.Holds (schema.Meant view counters)) :
    schema.Backed view counters depth bound m' where
  bounded := hg.extension.bounded h.bounded
  regular := hregular
  values := hvalues
  unfinished r node hnear hkey := h.unfinished r node hnear (hg.unfinished hkey)
  room := Nat.lt_of_le_of_lt (Finset.card_le_card (hg.extension.missing_subset _)) h.room

/-- A run starts that plain evaluation does not get to the end of with depth `k`. -/
theorem reserve (ho : options.Plain) (hc : compile options g = some (.ok schema))
    (hlit : view.LexicallyDistinct) (h : schema.Backed view counters depth (bound + 1) m)
    {r : Routine} {p : Program} {node : Term} (hnear : Path.Within view.graph view.focus node)
    (hp : schema.setting.program? r = some p) (hk : m.lookup (.of (.routine r) node) = none)
    {k : Nat} (hle : k ≤ depth)
    (hnone : schema.setting.invoke .plain k r ⟨node, view.graph⟩ counters = none) :
    schema.Backed view counters k bound (m.reserve (.of (.routine r) node)) where
  bounded := (Memo.extends_reserve hk).bounded h.bounded
  regular := h.regular.reserve h.bounded
  values := h.values.reserve lasting_meant hk
  unfinished r' node' hnear' := by
    rintro ⟨slot, hslot, hpending⟩
    rw [Memo.lookup_reserve] at hslot
    split at hslot
    · -- this run itself
      rename_i hkey
      obtain rfl := hlit.eq_of_key hnear hnear' hkey
      rwa [← MemoKey.routine_eq hkey]
    · -- a run that this one is nested in: what `depth` is not enough for, `k` is not
      have hne : slot ≠ m.next := by
        rintro rfl
        exact Nat.lt_irrefl _ (Memo.lookup_lt h.bounded hslot)
      rw [Memo.slot?_reserve, if_neg hne] at hpending
      have hold := h.unfinished r' node' hnear' ⟨slot, hslot, hpending⟩
      cases hrun : schema.setting.invoke .plain k r' ⟨node', view.graph⟩ counters with
      | none => rfl
      | some answer => cases hold.symm.trans (invoke_plain_mono ho hc hle hrun)
  room := by
    have hview : view.Near ⟨node, view.graph⟩ := ⟨rfl, hnear⟩
    have hlt := Memo.missing_reserve_lt hk (Setting.mem_keys hp hview)
    have hroom := h.room
    omega

theorem settle (hlit : view.LexicallyDistinct) (h : schema.Backed view counters depth bound m)
    {r : Routine} {node : Term} (hnear : Path.Within view.graph view.focus node)
    (hk : m.lookup (.of (.routine r) node) = none)
    (hg : (m.reserve (.of (.routine r) node)).Grows m') (hregular : m'.Regular)
    (hvalues : m'.Holds (schema.Meant view counters)) {k : Nat} {v w : Value}
    (hrun : schema.setting.invoke .plain k r ⟨node, view.graph⟩ counters =
      some (.ok w, counters)) (hw : m'.UnfoldsTo v w) :
    schema.Backed view counters depth bound (m'.settle m.next v) := by
  refine h.grow (hg.settle hk v) (hregular.settle hg.extension v)
    (hvalues.settle lasting_meant h.bounded hg.extension ?_)
  intro r' node' hnear' hkey
  obtain rfl := hlit.eq_of_key hnear hnear' hkey
  obtain rfl := MemoKey.routine_eq hkey
  exact ⟨k, w, hrun, hw.kept (Memo.keptBy_settle (Memo.pending_of_extends_reserve hg.extension) v)⟩

theorem failFrom (h : schema.Backed view counters depth bound m) {key : MemoKey}
    (hg : (m.reserve key).Grows m') :
    schema.Backed view counters depth bound (m'.failFrom m.next) :=
  h.grow (.failFrom h.bounded hg) (h.regular.failFrom h.bounded hg.extension)
    (h.values.failFrom lasting_meant h.bounded hg.extension)

end Backed

/-- References stand for what they unfold to, and the memo is backed. -/
def beside (schema : Schema) (view : View) (counters : Counters) (depth bound : Nat) :
    Correspondence Counters RunState where
  states c s := counters = c ∧ schema.Backed view counters depth bound s.memo
  grows s s' := s.memo.Grows s'.memo
  values s w v := s.memo.UnfoldsTo v w
  refl s := .refl s.memo
  trans h h' := h.trans h'
  kept hg h := h.kept hg.extension.keptBy
  of_refs h := Memo.unfoldsTo_of_refs h
  list h := Memo.unfoldsTo_list h.flip
  record h := Memo.unfoldsTo_record h.flip

theorem merges_beside (depth bound : Nat) :
    (schema.beside view counters depth bound).Merges .plain .memoized := by
  rintro c s vs ws - h
  exact Memo.unfoldsTo_record (Setting.related_mergedRecord h.flip)

/-- A slot that is there is served in place of what plain evaluation has. -/
theorem Backed.follows_of_lookup {depth bound : Nat} {s : RunState} (ho : options.Plain)
    (hc : compile options g = some (.ok schema))
    (hb : schema.Backed view counters depth bound s.memo) {r : Routine} {node : Term}
    (hnear : Path.Within view.graph view.focus node) {slot : SlotId}
    (hk : s.memo.lookup (.of (.routine r) node) = some slot) {result : Except Failure Value}
    {c : Counters}
    (hplain : schema.setting.invoke .plain depth r ⟨node, view.graph⟩ counters =
      some (result, c)) (x : Extractor RunState View Value) :
    (schema.beside view counters depth bound).Follows
      (schema.beside view counters depth bound).values s result c
      (Memo.shared (.routine r) x ⟨node, view.graph⟩ s) := by
  refine ⟨.ok (.ref slot), s, Memo.shared_of_lookup x hk, ?_⟩
  obtain hpending | ⟨v, hready⟩ := (hb.regular.live _ _ hk).pending_or_ready
  · cases (hb.unfinished r node hnear ⟨slot, hk, hpending⟩).symm.trans hplain
  · obtain ⟨k, w, hrun, hw⟩ := hb.values _ slot v hk hready r node hnear rfl
    have hmax := invoke_plain_mono ho hc (Nat.le_max_left k depth) hrun
    cases hmax.symm.trans (invoke_plain_mono ho hc (Nat.le_max_right k depth) hplain)
    exact ⟨⟨rfl, hb⟩, .refl _, Memo.unfoldsTo_ref hready hw⟩

/-- A routine that has no slot is run in one, with less depth for both. -/
theorem Backed.follows_of_program {depth bound k : Nat} {s : RunState}
    (hlit : view.LexicallyDistinct)
    (hb : schema.Backed view counters depth (bound + 1) s.memo) {r : Routine} {node : Term}
    (hnear : Path.Within view.graph view.focus node)
    (hk : s.memo.lookup (.of (.routine r) node) = none) {result : Except Failure Value}
    {c : Counters}
    (hplain : schema.setting.invoke .plain (k + 1) r ⟨node, view.graph⟩ counters =
      some (result, c)) {x : Extractor RunState View Value}
    (hx : (schema.beside view counters k bound).Follows
      (schema.beside view counters k bound).values
      { s with memo := s.memo.reserve (.of (.routine r) node) } result c
      (x ⟨node, view.graph⟩ { s with memo := s.memo.reserve (.of (.routine r) node) })) :
    (schema.beside view counters depth (bound + 1)).Follows
      (schema.beside view counters depth (bound + 1)).values s result c
      (Memo.shared (.routine r) x ⟨node, view.graph⟩ s) := by
  obtain ⟨result', s₁, hrun, ⟨rfl, hb₁⟩, hg, hresult⟩ := hx
  obtain ⟨e, rfl, rfl⟩ | ⟨w, v, rfl, rfl, hv⟩ := hresult.cases
  · exact ⟨_, _, Memo.shared_of_error hk hrun, ⟨rfl, hb.failFrom hg⟩, .failFrom hb.bounded hg,
      rfl⟩
  · have hset := hb.settle hlit hnear hk hg hb₁.regular hb₁.values hplain hv
    have hkept := Memo.keptBy_settle (Memo.pending_of_extends_reserve hg.extension) v
    exact ⟨_, _, Memo.shared_of_ok hk hrun, ⟨rfl, hset⟩, hg.settle hk v,
      Memo.unfoldsTo_ref (Memo.slot?_settle_next hg.extension v) (hv.kept hkept)⟩

/-- Memoized evaluation of a routine against plain evaluation, by how deep the latter is nested. -/
theorem corresponds_invoke (ho : options.Plain) (hc : compile options g = some (.ok schema))
    (hlit : view.LexicallyDistinct) (depth : Nat) : ∀ bound r view', view.Near view' →
      (schema.beside view counters depth bound).Corresponds (fun _ => True)
        (schema.beside view counters depth bound).values
        (schema.setting.invoke .plain depth r view')
        (schema.setting.invoke .memoized bound r view') := by
  induction depth using Nat.strong_induction_on with
  | _ depth ih =>
    rintro bound r ⟨node, graph⟩ hview c result c' s ⟨rfl, hb⟩ - hplain
    obtain rfl : graph = view.graph := hview.1
    have hnear : Path.Within view.graph view.focus node := hview.2
    cases bound with
    | zero => exact absurd hb.room (Nat.not_lt_zero _)
    | succ bound =>
      -- the least depth that is enough, so that what is asked for next is never this run again
      obtain ⟨k, hlt, hnone, hrun⟩ := exists_first rfl
        (fun n a h => invoke_plain_mono ho hc (Nat.le_succ n) h) hplain
      cases hp : schema.setting.program? r with
      | none =>
        rw [Setting.invoke_of_none _ hp] at hrun ⊢
        cases hrun
        exact ⟨_, s, rfl, ⟨rfl, hb⟩, .refl _, rfl⟩
      | some p =>
        rw [Setting.invoke_of_program _ hp]
        cases hk : s.memo.lookup (.of (.routine r) node) with
        | some slot => exact hb.follows_of_lookup ho hc hnear hk hplain _
        | none =>
          refine hb.follows_of_program hlit hnear hk hrun ?_
          have hb' := hb.reserve ho hc hlit hnear hp hk (Nat.le_of_lt hlt) hnone
          rw [Setting.invoke_of_program _ hp] at hrun
          refine corresponds_plain ho hc (merges_beside k bound) hp (fun r' view' hv => ?_) _ _ _ _
            ⟨rfl, hb'⟩ trivial hrun
          exact ih k hlt bound r' view' (hview.trans hv)

/-! ## extraction -/

/-- Extraction of a class without a memo. -/
def plainExtractor (schema : Schema) (depth : Nat) (cls : Iri) : Extractor Counters View Value :=
  schema.setting.instanceOf .plain (schema.setting.invoke .plain depth) cls

def plainTypedExtractor (schema : Schema) (depth : Nat) :
    Extractor Counters View (Option Value) :=
  Setting.typed (schema.setting.invoke .plain depth)

/-- The result is there, with the same failure or with an output that is related. -/
def Agrees {α β : Type} (A : α → β → Prop) :
    Except Failure α → Option (Except Failure β) → Prop
  | .error e, o => o = some (.error e)
  | .ok a, o => ∃ b, o = some (.ok b) ∧ A a b

end Schema

/-- The value, as computed and as returned, unfolds to `w`, and no reference is left. -/
def Extraction.UnfoldsTo (x : Extraction) (w : Value) : Prop :=
  x.memo.UnfoldsTo x.raw w ∧ x.memo.UnfoldsTo x.value w ∧ w.refs = []

namespace Schema

variable {options : Options} {g : Graph} {schema : Schema} {view : View}

/-- If plain evaluation ends, extraction fails as it does or has a value that unfolds to its. -/
theorem memoization_unobservable (ho : options.Plain)
    (hc : compile options g = some (.ok schema)) (hlit : view.LexicallyDistinct) (depth : Nat)
    (counters : Counters) :
    (∀ cls result counters',
      schema.plainExtractor depth cls view counters = some (result, counters') →
        Agrees (fun w x => x.UnfoldsTo w) result (schema.extract cls view)) ∧
    ∀ result counters',
      schema.plainTypedExtractor depth view counters = some (result, counters') →
        Agrees (Option.Rel fun w x => x.UnfoldsTo w) result (schema.extractTyped view) := by
  let C := schema.beside view counters depth (schema.setting.depth view.graph)
  have hstart : C.states counters (.start .empty) := ⟨rfl, backed_empty depth⟩
  have hinvoke : ∀ r, C.Corresponds (fun _ => True) C.values
      (schema.setting.invoke .plain depth r view)
      (schema.setting.invoke .memoized (schema.setting.depth view.graph) r view) :=
    fun r => corresponds_invoke ho hc hlit depth _ r view (.refl view)
  constructor
  · intro cls result counters' hplain
    rw [plainExtractor, Setting.instanceOf_of_empty (transforms_of_compile ho hc)] at hplain
    obtain ⟨result', s', hrun, _, _, hresult⟩ :=
      hinvoke (.ofClass cls) _ _ _ _ hstart trivial hplain
    have hextract : schema.classExtractor cls view (.start .empty) = some (result', s') := by
      rwa [classExtractor, Setting.run, Setting.instanceOf_of_empty (transforms_of_compile ho hc)]
    rw [extract_of_run hextract]
    obtain ⟨e, rfl, rfl⟩ | ⟨w, v, rfl, rfl, hv⟩ := hresult.cases
    · rfl
    · exact ⟨⟨v, s'.memo⟩, rfl, hv, hv.resolve, hv.refs⟩
  · intro result counters' hplain
    obtain ⟨result', s', hrun, _, _, hresult⟩ :=
      Setting.corresponds_typed (fun _ h => h) rfl (hinvoke .dispatch) _ _ _ _ hstart trivial hplain
    have hextract : schema.typedExtractor view (.start .empty) = some (result', s') := hrun
    rw [extractTyped_of_run hextract]
    obtain ⟨e, rfl, rfl⟩ | ⟨_, _, rfl, rfl, ⟨hv⟩ | _⟩ := hresult.cases
    · rfl
    · exact ⟨_, rfl, .some ⟨hv, hv.resolve, hv.refs⟩⟩
    · exact ⟨none, rfl, .none⟩

/-! ## a node with two references to it -/

def pairShapes : Graph :=
  [⟨.iri ⟨"S"⟩, Rdf.type, .iri Sh.nodeShape, none⟩,
    ⟨.iri ⟨"S"⟩, Sh.targetClass, .iri ⟨"C"⟩, none⟩,
    ⟨.iri ⟨"S"⟩, Sh.property, .blank "l", none⟩,
    ⟨.blank "l", Sh.path, .iri ⟨"left"⟩, none⟩,
    ⟨.blank "l", Sh.name, .literal (.simple "left"), none⟩,
    ⟨.blank "l", Sh.classOf, .iri Rdfl.context, none⟩,
    ⟨.iri ⟨"S"⟩, Sh.property, .blank "r", none⟩,
    ⟨.blank "r", Sh.path, .iri ⟨"right"⟩, none⟩,
    ⟨.blank "r", Sh.name, .literal (.simple "right"), none⟩,
    ⟨.blank "r", Sh.classOf, .iri Rdfl.context, none⟩]

def pairShape : Shape :=
  ⟨"S", ⟨"C"⟩, none,
    [⟨"left", .predicate ⟨"left"⟩, 0, none, .ofClass Rdfl.context⟩,
      ⟨"right", .predicate ⟨"right"⟩, 0, none, .ofClass Rdfl.context⟩]⟩

def pairSchema : Schema :=
  ⟨[pairShape], registry [] [pairShape], .ofGraph pairShapes, .empty, fun _ => none, .empty⟩

theorem compile_pairShapes : compile .default pairShapes = some (.ok pairSchema) :=
  compile_of_readAll (by rfl) .default

def pairView : View :=
  ⟨.iri ⟨"a"⟩, [⟨.iri ⟨"a"⟩, ⟨"left"⟩, .iri ⟨"b"⟩, none⟩,
    ⟨.iri ⟨"a"⟩, ⟨"right"⟩, .iri ⟨"b"⟩, none⟩]⟩

theorem lexicallyDistinct_pairView : pairView.LexicallyDistinct := by decide

def pairValue : Value :=
  .record [("left", .list [.record (View.record (pairView.refocus (.iri ⟨"b"⟩)))]),
    ("right", .list [.record (View.record (pairView.refocus (.iri ⟨"b"⟩)))])]

theorem plainExtractor_pairView :
    pairSchema.plainExtractor 2 ⟨"C"⟩ pairView .empty = some (.ok pairValue, .empty) := by rfl

/-- With a memo, the node is extracted once, and the two references to it unfold to one record. -/
theorem memoization_unobservable_pair :
    Options.default.Plain ∧ compile .default pairShapes = some (.ok pairSchema) ∧
    pairView.LexicallyDistinct ∧
    pairSchema.plainExtractor 2 ⟨"C"⟩ pairView .empty = some (.ok pairValue, .empty) ∧
    (∃ x, pairSchema.extract ⟨"C"⟩ pairView = some (.ok x) ∧ x.UnfoldsTo pairValue) ∧
    pairSchema.plainTypedExtractor 2 pairView .empty = some (.ok none, .empty) ∧
    pairSchema.extractTyped pairView = some (.ok none) := by
  have hplain : Options.default.Plain := ⟨rfl, rfl, rfl⟩
  obtain ⟨hclass, htyped⟩ := memoization_unobservable hplain compile_pairShapes
    lexicallyDistinct_pairView 2 .empty
  have hnone : pairSchema.plainTypedExtractor 2 pairView .empty = some (.ok none, .empty) := by rfl
  obtain ⟨o, ho, hrel⟩ := htyped _ _ hnone
  cases hrel
  exact ⟨hplain, compile_pairShapes, lexicallyDistinct_pairView, plainExtractor_pairView,
    hclass _ _ _ plainExtractor_pairView, hnone, ho⟩

end Schema
end ShaclExtract
