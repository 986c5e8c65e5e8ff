import ShaclExtract.Proofs.Dialogue.Represented
import ShaclExtract.Proofs.Path.Bounds
import ShaclExtract.Proofs.Shape.Extraction

/-!
# ShaclExtract.Proofs.Dialogue.Programs

Every program is a dialogue (`Program.represented`), and what it asks for can be read off the
program: the classes of its properties, dispatch, the classes that apply to the asserted types, its
own parts and procedures (`Program.Asks`). All requests are about the focus or nodes of the graph.
-/

namespace ShaclExtract

/-- The program may read a description of a path that refers to itself. -/
inductive Program.ReadsPath : Program → Prop where
  | path : ReadsPath .path
  | all {parts : List Program} {p : Program} : p ∈ parts → ReadsPath p → ReadsPath (.all parts)
  | firstOf {parts : List Program} {p : Program} :
      p ∈ parts → ReadsPath p → ReadsPath (.firstOf parts)
  | along {via : Path} {hops : Hops} {p : Program} : ReadsPath p → ReadsPath (.along via hops p)
  | resolved {p : Program} : ReadsPath p → ReadsPath (.resolved p)

/-- The program, run on the first view, may ask for the name on the second one. -/
inductive Program.Asks (S : Setting) : Program → View → Shareable → View → Prop where
  | typed {view : View} : Asks S .typed view (.routine .dispatch) view
  | dispatch {view : View} {cls : Iri} : cls ∈ S.applicable view →
      Asks S .dispatch view (.routine (.ofClass cls)) view
  | property {view view' : View} {sh : Shape} {f : Property} {cls : Iri} :
      f ∈ sh.properties → f.type = .ofClass cls → view.Near view' →
      Asks S (.shape sh) view (.routine (.ofClass cls)) view'
  | all {view view' : View} {parts : List Program} {p : Program} {name : Shareable} :
      p ∈ parts → Asks S p view name view' → Asks S (.all parts) view name view'
  | firstOf {view view' : View} {parts : List Program} {p : Program} {name : Shareable} :
      p ∈ parts → Asks S p view name view' → Asks S (.firstOf parts) view name view'
  | along {view view₁ view' : View} {via : Path} {hops : Hops} {p : Program} {name : Shareable} :
      view.Near view₁ → Asks S p view₁ name view' → Asks S (.along via hops p) view name view'
  | shared {view : View} {number : Nat} {p : Program} (h : p.Honest) :
      Asks S (.shared number p) view (.part number p h) view
  | call {view : View} {procedure : String} :
      Asks S (.call procedure) view (.routine (.procedure procedure)) view
  | resolved {view view' : View} {p : Program} {name : Shareable} :
      Asks S p view name view' → Asks S (.resolved p) view name view'

namespace Program.Asks

variable {S : Setting} {p : Program} {view view' : View}

theorem near {name : Shareable} (h : p.Asks S view name view') : view.Near view' := by
  induction h with
  | typed => exact .refl _
  | dispatch _ => exact .refl _
  | property _ _ h => exact h
  | all _ _ ih => exact ih
  | firstOf _ _ ih => exact ih
  | along h _ ih => exact h.trans ih
  | shared _ => exact .refl _
  | call => exact .refl _
  | resolved _ ih => exact ih

theorem sizeOf_part_lt {name : Shareable} (h : p.Asks S view name view') :
    ∀ number q hq, name = .part number q hq → sizeOf q < sizeOf p := by
  induction h with
  | typed => intro number q hq heq; cases heq
  | dispatch _ => intro number q hq heq; cases heq
  | property _ _ _ => intro number q hq heq; cases heq
  | all hp _ ih =>
    intro number q hq heq
    have := ih number q hq heq
    have := List.sizeOf_lt_of_mem hp
    simp only [Program.all.sizeOf_spec]
    omega
  | firstOf hp _ ih =>
    intro number q hq heq
    have := ih number q hq heq
    have := List.sizeOf_lt_of_mem hp
    simp only [Program.firstOf.sizeOf_spec]
    omega
  | along _ _ ih =>
    intro number q hq heq
    have := ih number q hq heq
    simp only [Program.along.sizeOf_spec]
    omega
  | shared _ =>
    intro number q hq heq
    cases heq
    simp only [Program.shared.sizeOf_spec]
    omega
  | call => intro number q hq heq; cases heq
  | resolved _ ih =>
    intro number q hq heq
    have := ih number q hq heq
    simp only [Program.resolved.sizeOf_spec]
    omega

end Program.Asks

/-! ## values without references -/

theorem Datatype.refs_extract {env : Environment} {datatype : Iri} {view : View} {v : Value}
    (h : Datatype.extract env datatype view = .ok v) : v.refs = [] := by
  have horInvalid : ∀ {α : Type} {lexical : String} {build : α → Value} {r : Option α},
      (∀ a, (build a).refs = []) → Datatype.orInvalid lexical datatype build r = .ok v →
        v.refs = [] := by
    intro α lexical build r hb h
    cases r with
    | none => cases h
    | some a => cases h; exact hb a
  simp only [Datatype.extract] at h
  split at h
  · cases h
  · split at h
    · cases h
    · simp only [Datatype.read] at h
      split at h
      · exact horInvalid (fun _ => rfl) h
      · split at h
        · exact horInvalid (fun _ => rfl) h
        · split at h
          · cases h; rfl
          · split at h
            · exact horInvalid (fun _ => rfl) h
            · split at h <;> (cases h; rfl)

/-- Transforms add no references and constants of programs hold none. -/
structure Setting.Honest (S : Setting) : Prop where
  transforms : ∀ cls t, S.transforms.get? cls = some t → ∀ v w, t v = .ok w → w.refs ⊆ v.refs
  programs : ∀ r p, S.program? r = some p → p.Honest

namespace Setting.Represented

variable {ο : Type} {S : Setting} {hangs : Prop} {P : Shareable → View → Prop}
  {known : List SlotId} {outputRefs : ο → List SlotId} {view : View}

/-! ## shapes -/

theorem hops {y : Invoke → Extractor RunState (List View) ο} {via : Path}
    (h : ∀ views, (∀ v ∈ views, view.Near v) →
      S.Represented hangs P known outputRefs fun i => y i views) :
    S.Represented hangs P known outputRefs fun i => via.hops.andThen (y i) view := by
  simp only [Extractor.andThen_apply, Path.hops, Extractor.ofExcept_apply]
  cases hw : via.walk view.graph view.focus with
  | error e => exact error e
  | ok nodes => exact h _ (View.near_refocus hw)

theorem only {x : Invoke → Extractor RunState View ο} {views : List View}
    (h : ∀ v ∈ views, S.Represented hangs P known outputRefs fun i => x i v) :
    S.Represented hangs P known outputRefs fun i => Extractor.only.andThen (x i) views := by
  simp only [Extractor.andThen_apply]
  by_cases hl : views.length = 1
  · obtain ⟨v, rfl⟩ := List.length_eq_one_iff.1 hl
    exact h v List.mem_cons_self
  · simp only [Extractor.only_of_length_ne hl]
    exact error _

theorem value {f : Property} {target : Iri} {element : Invoke → Extractor RunState View Value}
    (h : ∀ v, view.Near v → S.Represented hangs P known Value.refs fun i => element i v) :
    S.Represented hangs P known Value.refs fun i => f.value target (element i) view := by
  by_cases hl : f.isList
  · simp only [Property.value, hl, if_true]
    refine andThen (hops fun views hv => each fun v hmem => h v (hv v hmem)) fun items => ?_
    refine answer fun w hw => ?_
    dsimp only at hw
    split at hw
    · cases hw
      simp
    · cases hw
  · simp only [Property.value, hl, if_false, Bool.false_eq_true, Extractor.andThen_assoc]
    exact hops fun views hv => only fun v hmem => h v (hv v hmem)

theorem entry {f : Property} {shapeId : String} {target : Iri}
    {element : Invoke → Extractor RunState View Value}
    (h : ∀ v, view.Near v → S.Represented hangs P known Value.refs fun i => element i v) :
    S.Represented hangs P known Record.refs fun i =>
      f.entry shapeId target (element i) view := by
  have hfilled : S.Represented hangs P known Record.refs fun i =>
      (((f.value target (element i)).mapError (f.located shapeId target)).map
        fun v => [(f.name, v)]) view :=
    map (mapError (value h)) fun v => by simp [Record.refs]
  by_cases hmin : f.minCount = 0
  · simp only [Property.entry_of_optional hmin]
    exact hfilled.bindError fun e => ok (List.nil_subset _)
  · simp only [Property.entry_of_mandatory hmin]
    exact hfilled

theorem shape {sh : Shape} {element : Invoke → ValueType → Extractor RunState View Value}
    (h : ∀ f ∈ sh.properties, ∀ v, view.Near v →
      S.Represented hangs P known Value.refs fun i => element i f.type v) :
    S.Represented hangs P known Value.refs fun i => sh.extractor (element i) view := by
  refine map (all fun f hf => entry (h f hf)) fun entries => ?_
  rw [Value.refs_record]
  intro t ht
  obtain ⟨field, hfield, ht⟩ := List.mem_flatMap.1 (Record.refs_ofList _ ht)
  obtain ⟨r, hr, hfield⟩ := List.mem_flatten.1 hfield
  have hmem : t ∈ Record.refs r := List.mem_flatMap.2 ⟨field, hfield, ht⟩
  exact List.mem_append_left _ (List.mem_flatMap.2 ⟨r, hr, hmem⟩)

/-! ## classes -/

def applied (t : Transform) (v w : Value) : Action RunState Value := fun s =>
  match w with
  | .pending => some (.ok v, s)
  | w => some (t w, s)

theorem transformed (hS : S.Honest) (cls : Iri) {v : Value} (hv : v.refs ⊆ known) :
    S.Represented hangs P known Value.refs fun _ => S.transformed .memoized cls v := by
  cases ht : S.transforms.get? cls with
  | none =>
    unfold Setting.transformed
    simp only [ht]
    exact ok hv
  | some t =>
    have hk : ∀ w : Value, S.Represented hangs P (w.refs ++ known) Value.refs fun _ =>
        applied t v w := by
      intro w
      have happly : S.Represented hangs P (w.refs ++ known) Value.refs fun _ =>
          Action.answer (t w) :=
        answer fun u hu => List.subset_append_of_subset_left _ (hS.transforms cls t ht w u hu)
      cases w with
      | pending => exact ok (List.subset_append_of_subset_right _ hv)
      | _ => exact happly
    unfold Setting.transformed
    simp only [ht]
    exact resolve (k := fun w _ => applied t v w) hv hk

theorem instanceOf (hS : S.Honest) {cls : Iri} (h : P (.routine (.ofClass cls)) view) :
    S.Represented hangs P known Value.refs fun i => S.instanceOf .memoized i cls view :=
  andThen (ask (.routine (.ofClass cls)) view h) fun _ =>
    transformed hS cls (List.subset_append_left _ _)

theorem element (hS : S.Honest) {t : ValueType}
    (h : ∀ cls, t = .ofClass cls → P (.routine (.ofClass cls)) view) :
    S.Represented hangs P known Value.refs fun i => S.element .memoized i t view := by
  cases t with
  | ofClass cls => exact instanceOf hS (h cls rfl)
  | datatype d =>
    refine answer fun v hv => ?_
    rw [Datatype.refs_extract hv]
    exact List.nil_subset _

/-- Writes the fields of a value that is a record over those of another record. -/
def mergeFields (r : Record) : Value → Record
  | .record fields => Record.merge r fields
  | _ => r

theorem mergeFields_of_ne {r : Record} {w : Value} (h : ∀ fields, w ≠ .record fields) :
    mergeFields r w = r := by
  cases w with
  | record fields => exact absurd rfl (h fields)
  | _ => rfl

theorem refs_mergeFields (r : Record) (v : Value) :
    (mergeFields r v).refs ⊆ v.refs ++ r.refs := by
  unfold mergeFields
  split
  · rw [Value.refs_record]
    exact Record.refs_merge _ _
  · exact List.subset_append_right _ _

/-- The values are resolved one by one and their records written over each other. -/
theorem foldl_mergeFields (vs : List Value) : ∀ (r : Record) (known : List SlotId),
    r.refs ⊆ known → vs.flatMap Value.refs ⊆ known →
      S.Represented hangs P known Value.refs fun _ s =>
        some (.ok (.record (vs.foldl (fun r v => mergeFields r (s.memo.resolve v)) r)), s) := by
  induction vs with
  | nil =>
    intro r known hr _
    exact ok (a := Value.record r) (by rwa [Value.refs_record])
  | cons v vs ih =>
    intro r known hr hvs
    rw [List.flatMap_cons, List.append_subset] at hvs
    refine resolve (k := fun w _ s => some (.ok (Value.record
      (vs.foldl (fun r v => mergeFields r (s.memo.resolve v)) (mergeFields r w))), s))
      hvs.1 fun w => ?_
    refine ih _ _ ?_ (List.subset_append_of_subset_right _ hvs.2)
    exact List.Subset.trans (refs_mergeFields r w) (Dialogue.append_subset_append hr)

theorem merged (vs : List Value) (hvs : vs.flatMap Value.refs ⊆ known) :
    S.Represented hangs P known Value.refs fun _ => Setting.merged .memoized vs := by
  match vs, hvs with
  | [v], hvs => exact ok (by simpa using hvs)
  | [], hvs => exact foldl_mergeFields [] [] known (List.nil_subset _) hvs
  | v :: w :: vs, hvs => exact foldl_mergeFields (v :: w :: vs) [] known (List.nil_subset _) hvs

theorem dispatched (hS : S.Honest)
    (h : ∀ cls ∈ S.applicable view, P (.routine (.ofClass cls)) view) :
    S.Represented hangs P known Value.refs fun i => S.dispatched .memoized i view := by
  unfold Setting.dispatched
  cases hc : S.applicable view with
  | nil => exact error _
  | cons cls classes =>
    cases ht : Setting.assertedTypes view with
    | nil => exact error _
    | cons type types =>
      refine andThen (andThen (all fun cls hcls => ask (.routine (.ofClass cls)) view ?_)
        fun vs => merged vs (List.subset_append_left _ _)) fun v =>
          transformed hS type (List.subset_append_left _ _)
      rw [← hc] at hcls
      exact h cls hcls

theorem typed (h : P (.routine .dispatch) view) :
    S.Represented hangs P known (fun o => (Value.ofOption o).refs) fun i =>
      Setting.typed i view := by
  unfold Setting.typed
  by_cases ht : view.types = []
  · simp only [ht, if_true]
    exact ok (List.nil_subset _)
  · simp only [ht, if_false]
    exact map (ask (.routine .dispatch) view h) fun v => List.subset_append_left _ _

end Setting.Represented

namespace Program

theorem extractors_eq_map {σ : Type} (S : Setting) (E : Strategy σ)
    (invoke : Routine → Extractor σ View Value) : ∀ parts : List Program,
    extractors S E invoke parts = parts.map (extractor S E invoke)
  | [] => rfl
  | p :: ps => by rw [extractors, extractors_eq_map S E invoke ps, List.map_cons]

open Setting Setting.Represented

variable {S : Setting}

theorem represented_of_part {hangs : Prop} {P : Shareable → View → Prop} {p : Program}
    {view : View}
    (h : S.Represented p.ReadsPath (p.Asks S view) [] Value.refs fun i =>
      p.extractor S .memoized i view)
    (hh : p.ReadsPath → hangs) (hP : ∀ name view', p.Asks S view name view' → P name view') :
    S.Represented hangs P [] Value.refs fun i => p.extractor S .memoized i view :=
  h.mono hh hP (List.Subset.refl _)

theorem refs_list_subset (vs : List Value) :
    (Value.list vs).refs ⊆ vs.flatMap Value.refs ++ [] := by
  simp

theorem resolved_apply {σ : Type} (E : Strategy σ) (p : Program)
    (invoke : Routine → Extractor σ View Value) (view : View) :
    extractor S E invoke (.resolved p) view =
      Action.bindOk (extractor S E invoke p view) fun v s => some (.ok (E.resolve s v), s) := by
  funext s
  simp only [extractor, Action.bindOk, Action.bind]
  rcases extractor S E invoke p view s with _ | ⟨_ | _, _⟩ <;> rfl

theorem represented_onHops {via : Path} {p : Program} {view : View}
    (h : ∀ view', view.Near view' → S.Represented p.ReadsPath (p.Asks S view') [] Value.refs
      fun i => p.extractor S .memoized i view') (hops : Hops) :
    S.Represented (ReadsPath (.along via hops p)) (Asks S (.along via hops p) view) [] Value.refs
      fun i => onHops via (p.extractor S .memoized i) hops view := by
  have hpart : ∀ view', view.Near view' →
      S.Represented (ReadsPath (.along via hops p)) (Asks S (.along via hops p) view) []
        Value.refs fun i => p.extractor S .memoized i view' :=
    fun view' hv => represented_of_part (h view' hv) .along fun _ _ => .along hv
  cases hops with
  | one =>
    simp only [onHops, Extractor.andThen_assoc]
    exact Represented.hops fun views hv => only fun v hmem => hpart v (hv v hmem)
  | all =>
    exact map (Represented.hops fun views hv => each fun v hmem => hpart v (hv v hmem))
      refs_list_subset
  | some =>
    exact map (Represented.hops fun views hv => kept fun v hmem => hpart v (hv v hmem))
      refs_list_subset

mutual

/-- Every program is a dialogue that starts without references. -/
theorem represented (hS : S.Honest) : ∀ (p : Program) (view : View), p.Honest →
    S.Represented p.ReadsPath (p.Asks S view) [] Value.refs fun i =>
      p.extractor S .memoized i view
  | .focus, view, _ => ok (List.nil_subset _)
  | .const v, view, hp => ok (by rw [show v.refs = [] from hp]; exact List.nil_subset _)
  | .fail e, view, _ => error e
  | .tick name, view, _ => Represented.tick name
  | .description, view, _ => ok (List.nil_subset _)
  | .context, view, _ => ok (List.nil_subset _)
  | .path, view, _ => by
    simp only [extractor]
    unfold pathExtractor
    cases hread : Path.read view.graph view.focus with
    | none => exact endless .path
    | some r =>
      cases r with
      | error e => exact error e
      | ok via => exact ok (List.nil_subset _)
  | .typed, view, _ => map (Represented.typed .typed) fun o => List.subset_append_left _ _
  | .dispatch, view, _ => Represented.dispatched hS fun _ => .dispatch
  | .shape sh, view, _ =>
    Represented.shape fun f hf v hv => Represented.element hS fun cls hcls => .property hf hcls hv
  | .all parts, view, hp => by
    simp only [extractor, extractors_eq_map]
    refine map (Represented.all fun p hmem => ?_) refs_list_subset
    exact represented_of_part (represented_list hS parts hp p hmem view) (.all hmem)
      fun _ _ => .all hmem
  | .firstOf parts, view, hp => by
    simp only [extractor, extractors_eq_map]
    refine firstOfAfter (fun p hmem => ?_) .noAlternative
    exact represented_of_part (represented_list hS parts hp p hmem view) (.firstOf hmem)
      fun _ _ => .firstOf hmem
  | .along via hops part, view, hp =>
    represented_onHops (fun view' _ => represented hS part view' hp) hops
  | .shared number part, view, hp => ask (.part number part hp) view (.shared (p := part) hp)
  | .call procedure, view, _ => ask (.routine (.procedure procedure)) view .call
  | .resolved part, view, hp => by
    have hpart : S.Represented (ReadsPath (.resolved part)) (Asks S (.resolved part) view) []
        Value.refs fun i => part.extractor S .memoized i view :=
      represented_of_part (represented hS part view hp) .resolved fun _ _ => .resolved
    simp only [resolved_apply]
    refine hpart.bindOk fun v => ?_
    exact resolve (k := fun w _ => Action.answer (.ok w)) (List.subset_append_left _ _) fun w =>
      ok (List.subset_append_left _ _)

theorem represented_list (hS : S.Honest) : ∀ (ps : List Program), AllHonest ps → ∀ p ∈ ps,
    ∀ view, S.Represented p.ReadsPath (p.Asks S view) [] Value.refs fun i =>
      p.extractor S .memoized i view
  | [], _, p, hmem, _ => by cases hmem
  | q :: qs, hqs, p, hmem, view => by
    rcases List.mem_cons.1 hmem with heq | hmem
    · rw [heq]
      exact represented hS q view hqs.1
    · exact represented_list hS qs hqs.2 p hmem view

end

end Program

end ShaclExtract
