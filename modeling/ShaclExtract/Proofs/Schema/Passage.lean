import Mathlib.Data.List.Forall2
import ShaclExtract.Proofs.Extractor.Action
import ShaclExtract.Proofs.Schema.Contents

/-!
# ShaclExtract.Proofs.Schema.Passage

What happened on the way, when an extractor has ended with an output. A `Passage` is what runs may
do to a state; an action keeps to it if that is all that happens (`Passage.Keeps`). The output of an
extractor that is put together from others comes from outputs of the parts, each from a state on the
way from the start to the end (`Passage.Occurs`): the fields of a shape come from the elements of
its properties (`Passage.collects_of_shape`).
-/

namespace ShaclExtract

structure Passage (σ : Type) where
  leads : σ → σ → Prop
  refl : ∀ s, leads s s
  trans : ∀ {s s' s''}, leads s s' → leads s' s'' → leads s s''

namespace Passage

variable {σ ι α β ο : Type} (K : Passage σ)

def Keeps (x : Action σ ο) : Prop := ∀ s r s', x s = some (r, s') → K.leads s s'

/-- On the way from the first state to the second, the action was run and put out `o`. -/
def Occurs (s s' : σ) (x : Action σ ο) (o : ο) : Prop :=
  ∃ t t', K.leads s t ∧ x t = some (.ok o, t') ∧ K.leads t' s'

variable {K}

namespace Keeps

theorem answer (r : Except Failure ο) : K.Keeps (Action.answer r) := by
  intro s r' s' h
  cases h
  exact K.refl s

theorem bind {x : Action σ α} {k : Except Failure α → Action σ ο} (hx : K.Keeps x)
    (hk : ∀ r, K.Keeps (k r)) : K.Keeps (Action.bind x k) := by
  intro s r s' h
  obtain ⟨r₁, s₁, h₁, h⟩ := Action.bind_eq_some_iff.1 h
  exact K.trans (hx s r₁ s₁ h₁) (hk r₁ s₁ r s' h)

theorem bindOk {x : Action σ α} {k : α → Action σ ο} (hx : K.Keeps x) (hk : ∀ a, K.Keeps (k a)) :
    K.Keeps (Action.bindOk x k) := by
  refine hx.bind fun r => ?_
  cases r with
  | ok a => exact hk a
  | error e => exact answer _

theorem bindError {x : Action σ ο} {k : Failure → Action σ ο} (hx : K.Keeps x)
    (hk : ∀ e, K.Keeps (k e)) : K.Keeps (Action.bindError x k) := by
  refine hx.bind fun r => ?_
  cases r with
  | ok a => exact answer _
  | error e => exact hk e

theorem each {x : Extractor σ ι ο} {is : List ι} (h : ∀ i ∈ is, K.Keeps (x i)) :
    K.Keeps (x.each is) := by
  induction is with
  | nil => exact answer (.ok [])
  | cons i is ih =>
    rw [Extractor.each_cons]
    exact (h i List.mem_cons_self).bindOk fun _ =>
      (ih fun j hj => h j (.tail _ hj)).bindOk fun _ => answer _

end Keeps

namespace Occurs

variable {x : Action σ ο} {o : ο} {s s' t t' : σ}

theorem of_run (h : x s = some (.ok o, s')) : K.Occurs s s' x o :=
  ⟨s, s', K.refl s, h, K.refl s'⟩

theorem before (h : K.Occurs s s' x o) (ht : K.leads t s) : K.Occurs t s' x o := by
  obtain ⟨u, u', hu, hrun, hu'⟩ := h
  exact ⟨u, u', K.trans ht hu, hrun, hu'⟩

theorem behind (h : K.Occurs s s' x o) (ht : K.leads s' t) : K.Occurs s t x o := by
  obtain ⟨u, u', hu, hrun, hu'⟩ := h
  exact ⟨u, u', hu, hrun, K.trans hu' ht⟩

end Occurs

/-! ## where outputs come from -/

theorem occurs_each {x : Extractor σ ι ο} {is : List ι} (hK : ∀ i ∈ is, K.Keeps (x i))
    {os : List ο} {s s' : σ} (h : x.each is s = some (.ok os, s')) :
    List.Forall₂ (fun i o => K.Occurs s s' (x i) o) is os := by
  induction is generalizing os s with
  | nil => cases h; exact .nil
  | cons i is ih =>
    rw [Extractor.each_cons] at h
    obtain ⟨o, s₁, ho, h⟩ := Action.ok_of_bindOk h
    obtain ⟨rest, s₂, hrest, h⟩ := Action.ok_of_bindOk h
    cases h
    have his : ∀ j ∈ is, K.Keeps (x j) := fun j hj => hK j (.tail _ hj)
    refine .cons ((Occurs.of_run ho).behind (Keeps.each his _ _ _ hrest)) ?_
    exact (ih his hrest).imp fun _ _ hy => hy.before (hK i List.mem_cons_self _ _ _ ho)

theorem occurs_all {xs : List (Extractor σ ι ο)} {i : ι} (hK : ∀ x ∈ xs, K.Keeps (x i))
    {os : List ο} {s s' : σ} (h : Extractor.all xs i s = some (.ok os, s')) :
    List.Forall₂ (fun x o => K.Occurs s s' (x i) o) xs os := by
  rw [Extractor.all_eq_each] at h
  exact occurs_each hK h

theorem occurs_firstOfAfter {xs : List (Extractor σ ι ο)} {i : ι} (hK : ∀ x ∈ xs, K.Keeps (x i))
    {last : Failure} {o : ο} {s s' : σ}
    (h : Extractor.firstOfAfter last xs i s = some (.ok o, s')) :
    ∃ x ∈ xs, K.Occurs s s' (x i) o := by
  induction xs generalizing last s with
  | nil => cases h
  | cons x xs ih =>
    rw [Extractor.firstOfAfter_cons] at h
    obtain h | ⟨e, s₁, he, h⟩ := Action.ok_of_bindError h
    · exact ⟨x, List.mem_cons_self, .of_run h⟩
    · obtain ⟨y, hy, hoccurs⟩ := ih (fun y hy => hK y (.tail _ hy)) h
      exact ⟨y, .tail _ hy, hoccurs.before (hK x List.mem_cons_self _ _ _ he)⟩

/-! ## shapes -/

/-- The value has an item for each hop of the path, in order, put out there by the element. -/
def Collects (K : Passage σ) (f : Property) (element : Extractor σ View Value) (view : View)
    (s s' : σ) (v : Value) : Prop :=
  ∃ hops items, f.path.walk view.graph view.focus = .ok hops ∧
    List.Forall₂ (fun n w => K.Occurs s s' (element (view.refocus n)) w) hops items ∧
    if f.isList then v = .list items else items = [v]

section shapes

variable {f : Property} {element : Extractor σ View Value} {view : View} {s s' t t' : σ} {v : Value}

theorem Collects.within (h : K.Collects f element view s s' v) (ht : K.leads t s)
    (ht' : K.leads s' t') : K.Collects f element view t t' v := by
  obtain ⟨hops, items, hwalk, hitems, hv⟩ := h
  exact ⟨hops, items, hwalk, hitems.imp fun _ _ hw => (hw.before ht).behind ht', hv⟩

theorem collects_of_value (hK : ∀ n, K.Keeps (element (view.refocus n))) {target : Iri}
    (h : f.value target element view s = some (.ok v, s')) :
    K.Collects f element view s s' v := by
  cases Property.value_iff.1 h with
  | list hl hwalk hruns =>
    have hoccurs := occurs_each (fun hop _ => hK hop) (Extractor.each_eq_ok_iff.2 hruns)
    exact ⟨_, _, hwalk, hoccurs, by rw [if_pos hl]⟩
  | single hl hwalk hrun =>
    exact ⟨[_], [v], hwalk, .cons (.of_run hrun) .nil, by rw [hl]; rfl⟩

theorem Keeps.value (hK : ∀ n, K.Keeps (element (view.refocus n))) (target : Iri) :
    K.Keeps (f.value target element view) := by
  cases hwalk : f.path.walk view.graph view.focus with
  | error e =>
    rw [Property.value_of_error hwalk]
    exact answer _
  | ok hops =>
    cases hl : f.isList with
    | true =>
      rw [Property.value_of_isList hl hwalk]
      exact (each fun n _ => hK n).bindOk fun _ => answer _
    | false =>
      by_cases hone : hops.length = 1
      · obtain ⟨n, rfl⟩ := List.length_eq_one_iff.1 hone
        rw [Property.value_of_single hl hwalk]
        exact hK n
      · rw [Property.value_of_missing hl hwalk hone]
        exact answer _

theorem Keeps.entry (hK : ∀ n, K.Keeps (element (view.refocus n))) (shapeId : String)
    (target : Iri) : K.Keeps (f.entry shapeId target element view) := by
  have hfilled : K.Keeps ((((f.value target element).mapError (f.located shapeId target)).map
      fun v => [(f.name, v)]) view) := by
    rw [Extractor.map_apply, Extractor.mapError_apply]
    exact ((value hK target).bindError fun _ => answer _).bindOk fun _ => answer _
  by_cases hmin : f.minCount = 0
  · rw [Property.entry_of_optional hmin]
    exact hfilled.bindError fun _ => answer _
  · rw [Property.entry_of_mandatory hmin]
    exact hfilled

theorem collects_of_entry (hK : ∀ n, K.Keeps (element (view.refocus n))) {shapeId : String}
    {target : Iri} {r : Record} (h : f.entry shapeId target element view s = some (.ok r, s')) :
    (∃ v, r = [(f.name, v)] ∧ K.Collects f element view s s' v) ∨ r = [] := by
  obtain ⟨v, hv, ⟨⟩⟩ | ⟨e, _, hr⟩ := Property.entry_iff.1 h
  · exact .inl ⟨v, rfl, collects_of_value hK (Property.value_iff.2 hv)⟩
  · split at hr
    · cases hr
      exact .inr rfl
    · cases hr

/-- A shape puts out a record. Each field is that of a property, and holds what its elements have
put out on the way. -/
theorem collects_of_shape {sh : Shape} {element : ValueType → Extractor σ View Value}
    (hK : ∀ t n, K.Keeps (element t (view.refocus n)))
    (h : sh.extractor element view s = some (.ok v, s')) :
    ∃ fields, v = .record fields ∧ ∀ name w, (name, w) ∈ fields → ∃ f ∈ sh.properties,
      f.name = name ∧ K.Collects f (element f.type) view s s' w := by
  obtain ⟨entries, hentries, rfl⟩ := Extractor.ok_of_map h
  have hoccurs := occurs_all (K := K) (fun x hx => by
    obtain ⟨f, _, rfl⟩ := List.mem_map.1 hx
    exact Keeps.entry (hK f.type) sh.id sh.target) hentries
  rw [List.forall₂_map_left_iff] at hoccurs
  refine ⟨_, rfl, fun name w hmem => ?_⟩
  obtain ⟨r, hr, hfield⟩ := List.mem_flatten.1 (Record.mem_ofList hmem)
  obtain ⟨f, hf, t, t', ht, hrun, ht'⟩ := hoccurs.exists_of_mem r hr
  obtain ⟨u, rfl, hcollects⟩ | rfl := collects_of_entry (hK f.type) hrun
  · cases List.mem_singleton.1 hfield
    exact ⟨f, hf, rfl, hcollects.within ht ht'⟩
  · cases hfield

end shapes
end Passage
end ShaclExtract
