import ShaclExtract.Proofs.Extractor.Tandem
import ShaclExtract.Proofs.Memo.Unfolding
import ShaclExtract.Proofs.Schema.Contents

/-!
# ShaclExtract.Proofs.Schema.Tandem

Shapes, instances of classes and dispatch in two evaluations that do the same all along. The nodes
of the two evaluations may differ. If the paths of a shape lead to nodes whose elements are
extracted together, then so is the shape, and the like holds of dispatch.
-/

namespace ShaclExtract

structure Value.Congruent (V : Value → Value → Prop) : Prop where
  list : ∀ {vs ws}, List.Forall₂ V vs ws → V (.list vs) (.list ws)
  record : ∀ {r r'}, Record.Related V r r' → V (.record r) (.record r')

theorem Value.congruent_eq : Value.Congruent Eq where
  list h := by
    rw [List.forall₂_eq_eq_eq] at h
    rw [h]
  record h := by rw [Record.related_eq h]

namespace Tandem

variable {σ τ : Type} {T : Tandem σ τ} {V : Value → Value → Prop} {view view' : View}

namespace Together

theorem hops {via : Path} {R : View → View → Prop}
    (h : Outcomes (List.Forall₂ fun n m => R (view.refocus n) (view'.refocus m))
      (via.walk view.graph view.focus) (via.walk view'.graph view'.focus)) :
    T.Together (List.Forall₂ R) (via.hops view) (via.hops view') := by
  rw [Path.hops, Path.hops, Extractor.ofExcept_apply, Extractor.ofExcept_apply]
  refine answer ?_
  obtain ⟨e, e', hw, hw'⟩ | ⟨nodes, nodes', hw, hw', hnodes⟩ := h.cases
  · rw [hw, hw']
    trivial
  · rw [hw, hw']
    exact List.forall₂_map_left_iff.2 (List.forall₂_map_right_iff.2 hnodes)

/-! ## shapes -/

theorem value {f : Property} {x : Extractor σ View Value} {y : Extractor τ View Value}
    (hV : Value.Congruent V)
    (h : Outcomes
      (List.Forall₂ fun n m => T.Together V (x (view.refocus n)) (y (view'.refocus m)))
      (f.path.walk view.graph view.focus) (f.path.walk view'.graph view'.focus)) (target : Iri) :
    T.Together V (f.value target x view) (f.value target y view') := by
  have hhops := hops (T := T) (R := fun v w => T.Together V (x v) (y w)) h
  unfold Property.value
  split
  · refine (hhops.andThen fun _ _ hviews => each hviews).andThen fun items items' hitems => ?_
    rw [Property.counted, Property.counted, Extractor.ofExcept_apply, Extractor.ofExcept_apply,
      ← hitems.length_eq]
    refine answer ?_
    split
    · exact hV.list hitems
    · trivial
  · exact (hhops.andThen fun _ _ hviews => only hviews).andThen fun _ _ hitem => hitem

theorem entry {f : Property} {x : Extractor σ View Value} {y : Extractor τ View Value}
    (hV : Value.Congruent V)
    (h : Outcomes
      (List.Forall₂ fun n m => T.Together V (x (view.refocus n)) (y (view'.refocus m)))
      (f.path.walk view.graph view.focus) (f.path.walk view'.graph view'.focus))
    (shapeId : String) (target : Iri) :
    T.Together (Record.Related V) (f.entry shapeId target x view)
      (f.entry shapeId target y view') := by
  have hfilled : T.Together (Record.Related V)
      ((((f.value target x).mapError (f.located shapeId target)).map fun v => [(f.name, v)]) view)
      ((((f.value target y).mapError (f.located shapeId target)).map
        fun v => [(f.name, v)]) view') :=
    (value hV h target).mapError.map fun _ _ hv => .cons ⟨rfl, hv⟩ .nil
  by_cases hmin : f.minCount = 0
  · rw [Property.entry_of_optional hmin, Property.entry_of_optional hmin]
    exact hfilled.bindError fun _ _ => answer (A := Record.Related V) List.Forall₂.nil
  · rw [Property.entry_of_mandatory hmin, Property.entry_of_mandatory hmin]
    exact hfilled

theorem shape {sh : Shape} {x : ValueType → Extractor σ View Value}
    {y : ValueType → Extractor τ View Value} (hV : Value.Congruent V)
    (h : ∀ f ∈ sh.properties, Outcomes
      (List.Forall₂ fun n m =>
        T.Together V (x f.type (view.refocus n)) (y f.type (view'.refocus m)))
      (f.path.walk view.graph view.focus) (f.path.walk view'.graph view'.focus)) :
    T.Together V (sh.extractor x view) (sh.extractor y view') := by
  refine map (all ?_) fun _ _ hentries => hV.record (Record.related_flatten hentries).ofList
  refine List.forall₂_map_left_iff.2 (List.forall₂_map_right_iff.2 (List.forall₂_same.2 ?_))
  exact fun f hf => entry hV (h f hf) sh.id sh.target

end Together

/-! ## classes and dispatch -/

/-- Records merged from values that are related are so, each merged the way of its evaluation. -/
def Merges (T : Tandem σ τ) (V : Value → Value → Prop) (E : Strategy σ) (E' : Strategy τ) : Prop :=
  ∀ s t vs ws, T.states s t → List.Forall₂ V vs ws →
    V (.record (Setting.mergedRecord (E.resolve s) vs))
      (.record (Setting.mergedRecord (E'.resolve t) ws))

def Transforms (T : Tandem σ τ) (V : Value → Value → Prop) (S : Setting) (E : Strategy σ)
    (E' : Strategy τ) : Prop :=
  ∀ cls v w, V v w → T.Together V (S.transformed E cls v) (S.transformed E' cls w)

theorem transforms_of_empty {S : Setting} (hS : S.transforms = .empty) (E : Strategy σ)
    (E' : Strategy τ) : T.Transforms V S E E' := by
  intro cls v w hvw
  rw [Setting.transformed_of_empty hS, Setting.transformed_of_empty hS]
  exact .answer hvw

variable {S : Setting} {E : Strategy σ} {E' : Strategy τ}
  {invoke : Routine → Extractor σ View Value} {invoke' : Routine → Extractor τ View Value}

theorem together_element (hT : T.Transforms V S E E') {t : ValueType}
    (hclass : ∀ cls, t = .ofClass cls →
      T.Together V (invoke (.ofClass cls) view) (invoke' (.ofClass cls) view'))
    (hdatatype : ∀ d, t = .datatype d → Outcomes V (Datatype.extract S.environment d view)
      (Datatype.extract S.environment d view')) :
    T.Together V (S.element E invoke t view) (S.element E' invoke' t view') := by
  cases t with
  | ofClass cls => exact (hclass cls rfl).andThen fun v w hvw => hT cls v w hvw
  | datatype d => exact .answer (hdatatype d rfl)

theorem together_merged (hm : T.Merges V E E') {vs ws : List Value} (h : List.Forall₂ V vs ws) :
    T.Together V (Setting.merged E vs) (Setting.merged E' ws) := by
  intro s t hst
  have hmerged := hm s t vs ws hst h
  cases h with
  | nil => exact .some ⟨hmerged, hst, T.refl t⟩
  | cons hv hrest =>
    cases hrest with
    | nil => exact .some ⟨hv, hst, T.refl t⟩
    | cons _ _ => exact .some ⟨hmerged, hst, T.refl t⟩

theorem together_dispatched (hT : T.Transforms V S E E') (hm : T.Merges V E E')
    (hasserted : Setting.assertedTypes view' = Setting.assertedTypes view)
    (h : ∀ cls ∈ S.applicable view,
      T.Together V (invoke (.ofClass cls) view) (invoke' (.ofClass cls) view')) :
    T.Together V (S.dispatched E invoke view) (S.dispatched E' invoke' view') := by
  have happlicable : S.applicable view' = S.applicable view := by
    simp only [Setting.applicable, hasserted]
  by_cases hc : S.applicable view = []
  · rw [Setting.dispatched_of_nil _ _ hc, Setting.dispatched_of_nil _ _ (happlicable.trans hc)]
    exact .answer trivial
  · obtain ⟨type, htype, heq⟩ := Setting.dispatched_eq E invoke hc
    obtain ⟨type', htype', heq'⟩ := Setting.dispatched_eq E' invoke' (happlicable ▸ hc)
    rw [hasserted] at htype'
    cases htype.symm.trans htype'
    rw [heq, heq', happlicable]
    refine Together.bindOk (.all (A := V) ?_) fun vs ws hvs =>
      (together_merged hm hvs).bindOk fun v w hvw => hT type v w hvw
    exact List.forall₂_map_left_iff.2 (List.forall₂_map_right_iff.2 (List.forall₂_same.2 h))

theorem together_typed (htypes : view'.types = [] ↔ view.types = [])
    (h : T.Together V (invoke .dispatch view) (invoke' .dispatch view')) :
    T.Together (Option.Rel V) (Setting.typed invoke view) (Setting.typed invoke' view') := by
  unfold Setting.typed
  simp only [htypes]
  split
  · exact .answer (A := Option.Rel V) .none
  · exact h.map fun _ _ hvw => .some hvw

end Tandem
end ShaclExtract
