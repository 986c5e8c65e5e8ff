import ShaclExtract.Proofs.Extractor.Action
import ShaclExtract.Shape.Extraction

/-!
# ShaclExtract.Proofs.Shape.Extraction

What extraction by a shape does, told without combinators. `Property.Evaluates` is the evaluation of
one property: the value or the failure that it ends with, and the state it leaves.
`Shape.Evaluates` goes through properties from the left, hands the state on and collects the fields;
an optional property without a value leaves the state as it has become, and no field.

Extractors do neither more nor less (`Property.value_iff`, `Shape.extractor_eq_ok_iff`,
`Shape.extractor_eq_error_iff`), whatever the state is and whatever reads the elements.
-/

namespace ShaclExtract

/-! ## one property -/

namespace Property

variable {σ : Type} {f : Property} {target : Iri} {element : Extractor σ View Value} {view : View}
  {s s' : σ}

theorem admits_iff {found : Nat} : f.admits found = true ↔
    f.minCount ≤ found ∧ ∀ m, f.maxCount = some m → found ≤ m := by
  unfold admits
  cases f.maxCount <;> simp

theorem value_of_error {e : Failure} (h : f.path.walk view.graph view.focus = .error e)
    (target : Iri) : f.value target element view = Action.answer (.error e) := by
  unfold value
  split
  · simp only [Extractor.andThen_apply, Path.hops, Extractor.ofExcept_apply, h, Action.bindOk_error]
  · simp only [Extractor.andThen_apply, Path.hops, Extractor.ofExcept_apply, h, Action.bindOk_error]

theorem value_of_isList (hl : f.isList = true) {hops : List Term}
    (h : f.path.walk view.graph view.focus = .ok hops) (target : Iri) :
    f.value target element view = Action.bindOk
      (Extractor.each (fun hop => element (view.refocus hop)) hops) (f.counted target) := by
  simp only [value, hl, if_true, Extractor.andThen_apply, Path.hops, Extractor.ofExcept_apply, h,
    Action.bindOk_ok, Extractor.each_map]

theorem value_of_single (hl : f.isList = false) {hop : Term}
    (h : f.path.walk view.graph view.focus = .ok [hop]) (target : Iri) :
    f.value target element view = element (view.refocus hop) := by
  simp only [value, hl, if_false, Bool.false_eq_true, Extractor.andThen_apply, Path.hops,
    Extractor.ofExcept_apply, h, Action.bindOk_ok, List.map_singleton, Extractor.only_singleton]

theorem value_of_missing (hl : f.isList = false) {hops : List Term}
    (h : f.path.walk view.graph view.focus = .ok hops) (hone : hops.length ≠ 1) (target : Iri) :
    f.value target element view = Action.answer (.error (.requiredValueMissing hops.length)) := by
  have hmap : (hops.map view.refocus).length ≠ 1 := by rwa [List.length_map]
  simp only [value, hl, if_false, Bool.false_eq_true, Extractor.andThen_apply, Path.hops,
    Extractor.ofExcept_apply, h, Action.bindOk_ok, Extractor.only_of_length_ne hmap,
    Action.bindOk_error, List.length_map]

/-- What the value of a property is, or why it has none, and the state after that. -/
inductive Evaluates (f : Property) (target : Iri) (element : Extractor σ View Value) (view : View)
    (s : σ) : Except Failure Value → σ → Prop
  /-- The path cannot be walked. -/
  | unwalked {e : Failure} :
    f.path.walk view.graph view.focus = .error e → Evaluates f target element view s (.error e) s
  /-- The values of all hops, in the order of the hops. -/
  | list {hops : List Term} {items : List Value} {s' : σ} : f.isList = true →
    f.path.walk view.graph view.focus = .ok hops →
    Extractor.Runs (fun hop => element (view.refocus hop)) hops s items s' →
    f.minCount ≤ items.length → (∀ m, f.maxCount = some m → items.length ≤ m) →
      Evaluates f target element view s (.ok (.list items)) s'
  /-- All hops have values, but there are too few or too many. -/
  | miscounted {hops : List Term} {items : List Value} {s' : σ} : f.isList = true →
    f.path.walk view.graph view.focus = .ok hops →
    Extractor.Runs (fun hop => element (view.refocus hop)) hops s items s' →
    ¬ (f.minCount ≤ items.length ∧ ∀ m, f.maxCount = some m → items.length ≤ m) →
      Evaluates f target element view s (.error (.cardinalityViolation target.text f.name f.minCount
        f.maxCount items.length)) s'
  /-- The first hop without a value. -/
  | unread {before after : List Term} {hop : Term} {items : List Value} {e : Failure} {s₁ s' : σ} :
    f.isList = true → f.path.walk view.graph view.focus = .ok (before ++ hop :: after) →
    Extractor.Runs (fun hop => element (view.refocus hop)) before s items s₁ →
    element (view.refocus hop) s₁ = some (.error e, s') →
      Evaluates f target element view s (.error e) s'
  /-- The only hop, with its value or without. -/
  | single {hop : Term} {r : Except Failure Value} {s' : σ} : f.isList = false →
    f.path.walk view.graph view.focus = .ok [hop] →
    element (view.refocus hop) s = some (r, s') → Evaluates f target element view s r s'
  /-- No hop, or more than one. -/
  | missing {hops : List Term} : f.isList = false →
    f.path.walk view.graph view.focus = .ok hops → hops.length ≠ 1 →
      Evaluates f target element view s (.error (.requiredValueMissing hops.length)) s

theorem value_iff {r : Except Failure Value} :
    f.value target element view s = some (r, s') ↔ f.Evaluates target element view s r s' := by
  constructor
  · intro h
    cases hwalk : f.path.walk view.graph view.focus with
    | error e =>
      rw [value_of_error hwalk] at h
      cases h
      exact .unwalked hwalk
    | ok hops =>
      cases hl : f.isList with
      | true =>
        rw [value_of_isList hl hwalk] at h
        obtain ⟨e, rfl, he⟩ | ⟨items, s₁, hitems, h⟩ := Action.bindOk_eq_some_iff.1 h
        · obtain ⟨before, hop, after, items, s₁, rfl, hbefore, he⟩ :=
            Extractor.each_eq_error_iff.1 he
          exact .unread hl hwalk hbefore he
        · have hruns := Extractor.each_eq_ok_iff.1 hitems
          simp only [counted, Extractor.ofExcept] at h
          split at h
          · rename_i hadmits
            cases h
            obtain ⟨hmin, hmax⟩ := admits_iff.1 hadmits
            exact .list hl hwalk hruns hmin hmax
          · rename_i hadmits
            cases h
            exact .miscounted hl hwalk hruns fun hbounds => hadmits (admits_iff.2 hbounds)
      | false =>
        by_cases hone : hops.length = 1
        · obtain ⟨hop, rfl⟩ := List.length_eq_one_iff.1 hone
          rw [value_of_single hl hwalk] at h
          exact .single hl hwalk h
        · rw [value_of_missing hl hwalk hone] at h
          cases h
          exact .missing hl hwalk hone
  · intro h
    cases h with
    | unwalked hwalk =>
      rw [value_of_error hwalk]
      rfl
    | list hl hwalk hruns hmin hmax =>
      rw [value_of_isList hl hwalk]
      refine Action.bindOk_eq_some_iff.2 (.inr ⟨_, _, Extractor.each_eq_ok_iff.2 hruns, ?_⟩)
      rw [counted, Extractor.ofExcept, if_pos (admits_iff.2 ⟨hmin, hmax⟩)]
    | miscounted hl hwalk hruns hbounds =>
      rw [value_of_isList hl hwalk]
      refine Action.bindOk_eq_some_iff.2 (.inr ⟨_, _, Extractor.each_eq_ok_iff.2 hruns, ?_⟩)
      rw [counted, Extractor.ofExcept, if_neg fun hadmits => hbounds (admits_iff.1 hadmits)]
    | unread hl hwalk hbefore he =>
      rw [value_of_isList hl hwalk]
      exact Action.bindOk_eq_some_iff.2 (.inl ⟨_, rfl,
        Extractor.each_eq_error_iff.2 ⟨_, _, _, _, _, rfl, hbefore, he⟩⟩)
    | single hl hwalk hrun =>
      rw [value_of_single hl hwalk]
      exact hrun
    | missing hl hwalk hone =>
      rw [value_of_missing hl hwalk hone]
      rfl

theorem entry_of_mandatory (h : f.minCount ≠ 0) (shapeId : String) (target : Iri) :
    f.entry shapeId target element view =
      ((f.value target element).mapError (f.located shapeId target)).map
        (fun v => [(f.name, v)]) view := by
  simp only [entry, isOptional, h, decide_false, Bool.false_eq_true, if_false]

theorem entry_of_optional (h : f.minCount = 0) (shapeId : String) (target : Iri) :
    f.entry shapeId target element view =
      Action.bindError (((f.value target element).mapError (f.located shapeId target)).map
        (fun v => [(f.name, v)]) view) fun _ => Action.answer (.ok []) := by
  simp only [entry, isOptional, h, decide_true, if_true, Extractor.orElse_const]

theorem filled_iff {shapeId : String} {r : Except Failure Record} :
    ((f.value target element).mapError (f.located shapeId target)).map
      (fun v => [(f.name, v)]) view s = some (r, s') ↔
      (∃ v, f.Evaluates target element view s (.ok v) s' ∧ r = .ok [(f.name, v)]) ∨
        ∃ e, f.Evaluates target element view s (.error e) s' ∧
          r = .error (f.located shapeId target e view) := by
  simp only [Extractor.map_eq_some_iff, Extractor.mapError_eq_some_iff, value_iff]
  constructor
  · rintro (⟨_, rfl, ⟨_, ⟨⟩, _⟩ | ⟨e, ⟨⟩, he⟩⟩ | ⟨v, rfl, ⟨_, ⟨⟩, hv⟩ | ⟨_, ⟨⟩, _⟩⟩)
    · exact .inr ⟨e, he, rfl⟩
    · exact .inl ⟨v, hv, rfl⟩
  · rintro (⟨v, hv, rfl⟩ | ⟨e, he, rfl⟩)
    · exact .inr ⟨v, rfl, .inl ⟨v, rfl, hv⟩⟩
    · exact .inl ⟨_, rfl, .inr ⟨e, rfl, he⟩⟩

/-- A property puts its field into a record. Without a value it puts nothing there if it is
optional, and fails with the place where it happened if it is not. -/
theorem entry_iff {shapeId : String} {r : Except Failure Record} :
    f.entry shapeId target element view s = some (r, s') ↔
      (∃ v, f.Evaluates target element view s (.ok v) s' ∧ r = .ok [(f.name, v)]) ∨
        ∃ e, f.Evaluates target element view s (.error e) s' ∧
          r = if f.minCount = 0 then .ok [] else .error (f.located shapeId target e view) := by
  by_cases hmin : f.minCount = 0
  · simp only [entry_of_optional hmin, if_pos hmin, Action.bindError_eq_some_iff, filled_iff]
    constructor
    · rintro (⟨_, rfl, ⟨v, hv, ⟨⟩⟩ | ⟨_, _, ⟨⟩⟩⟩ | ⟨_, s₁, ⟨_, _, ⟨⟩⟩ | ⟨e, he, ⟨⟩⟩, ⟨⟩⟩)
      · exact .inl ⟨v, hv, rfl⟩
      · exact .inr ⟨e, he, rfl⟩
    · rintro (⟨v, hv, rfl⟩ | ⟨e, he, rfl⟩)
      · exact .inl ⟨_, rfl, .inl ⟨v, hv, rfl⟩⟩
      · exact .inr ⟨_, s', .inr ⟨e, he, rfl⟩, rfl⟩
  · simp only [entry_of_mandatory hmin, if_neg hmin, filled_iff]

end Property

/-! ## all properties -/

namespace Shape

variable {σ : Type} {sh : Shape} {element : ValueType → Extractor σ View Value} {view : View}
  {s s' : σ}

/-- The properties are evaluated from the left, and these are the fields of those with a value. -/
inductive Evaluates (sh : Shape) (element : ValueType → Extractor σ View Value) (view : View) :
    List Property → σ → List (String × Value) → σ → Prop
  | nil (s : σ) : Evaluates sh element view [] s [] s
  | field {f : Property} {fs : List Property} {v : Value} {entries : List (String × Value)}
    {s s₁ s' : σ} : f.Evaluates sh.target (element f.type) view s (.ok v) s₁ →
      Evaluates sh element view fs s₁ entries s' →
        Evaluates sh element view (f :: fs) s ((f.name, v) :: entries) s'
  | absent {f : Property} {fs : List Property} {e : Failure} {entries : List (String × Value)}
    {s s₁ s' : σ} : f.minCount = 0 → f.Evaluates sh.target (element f.type) view s (.error e) s₁ →
      Evaluates sh element view fs s₁ entries s' → Evaluates sh element view (f :: fs) s entries s'

theorem evaluates_iff {fs : List Property} {entries : List (String × Value)} :
    sh.Evaluates element view fs s entries s' ↔ ∃ records : List Record, entries = records.flatten ∧
      Extractor.Runs (fun f => f.entry sh.id sh.target (element f.type) view) fs s records s' := by
  constructor
  · intro h
    induction h with
    | nil s => exact ⟨[], rfl, .nil s⟩
    | @field f fs v entries s s₁ s' hread _ ih =>
      obtain ⟨records, rfl, hruns⟩ := ih
      exact ⟨[(f.name, v)] :: records, rfl,
        .cons (Property.entry_iff.2 (.inl ⟨v, hread, rfl⟩)) hruns⟩
    | @absent f fs e entries s s₁ s' hmin hread _ ih =>
      obtain ⟨records, rfl, hruns⟩ := ih
      exact ⟨[] :: records, rfl,
        .cons (Property.entry_iff.2 (.inr ⟨e, hread, by rw [if_pos hmin]⟩)) hruns⟩
  · rintro ⟨records, rfl, hruns⟩
    induction hruns with
    | nil s => exact .nil s
    | @cons f fs record records s s₁ s' hentry _ ih =>
      obtain ⟨v, hread, ⟨⟩⟩ | ⟨e, hread, hr⟩ := Property.entry_iff.1 hentry
      · exact .field hread ih
      · split at hr
        · rename_i hmin
          cases hr
          exact .absent hmin hread ih
        · cases hr

/-- A shape puts out the record of the fields of its properties. -/
theorem extractor_eq_ok_iff {v : Value} :
    sh.extractor element view s = some (.ok v, s') ↔ ∃ entries,
      sh.Evaluates element view sh.properties s entries s' ∧
        v = .record (Record.ofList entries) := by
  rw [extractor, Extractor.map_eq_some_iff, Extractor.all_map]
  constructor
  · rintro (⟨_, ⟨⟩, _⟩ | ⟨records, ⟨⟩, hruns⟩)
    exact ⟨records.flatten, evaluates_iff.2 ⟨records, rfl, Extractor.each_eq_ok_iff.1 hruns⟩, rfl⟩
  · rintro ⟨entries, hentries, rfl⟩
    obtain ⟨records, rfl, hruns⟩ := evaluates_iff.1 hentries
    exact .inr ⟨records, rfl, Extractor.each_eq_ok_iff.2 hruns⟩

/-- A shape fails with its first mandatory property that fails. -/
theorem extractor_eq_error_iff {e : Failure} :
    sh.extractor element view s = some (.error e, s') ↔
      ∃ before f after entries s₁ e', sh.properties = before ++ f :: after ∧
        sh.Evaluates element view before s entries s₁ ∧ 1 ≤ f.minCount ∧
        f.Evaluates sh.target (element f.type) view s₁ (.error e') s' ∧
        e = f.located sh.id sh.target e' view := by
  rw [extractor, Extractor.map_eq_some_iff, Extractor.all_map]
  constructor
  · rintro (⟨_, ⟨⟩, herror⟩ | ⟨_, ⟨⟩, _⟩)
    obtain ⟨before, f, after, records, s₁, hfs, hruns, hentry⟩ :=
      Extractor.each_eq_error_iff.1 herror
    obtain ⟨_, _, ⟨⟩⟩ | ⟨e', hread, he⟩ := Property.entry_iff.1 hentry
    split at he
    · cases he
    · rename_i hmin
      cases he
      exact ⟨before, f, after, records.flatten, s₁, e', hfs, evaluates_iff.2 ⟨records, rfl, hruns⟩,
        Nat.pos_of_ne_zero hmin, hread, rfl⟩
  · rintro ⟨before, f, after, entries, s₁, e', hfs, hentries, hmin, hread, rfl⟩
    obtain ⟨records, rfl, hruns⟩ := evaluates_iff.1 hentries
    have hentry : f.entry sh.id sh.target (element f.type) view s₁ =
        some (.error (f.located sh.id sh.target e' view), s') :=
      Property.entry_iff.2 (.inr ⟨e', hread, by rw [if_neg (Nat.ne_of_gt hmin)]⟩)
    exact .inl ⟨_, rfl, Extractor.each_eq_error_iff.2
      ⟨before, f, after, records, s₁, hfs, hruns, hentry⟩⟩

end Shape
end ShaclExtract
