import ShaclExtract.Proofs.Extractor.Safety
import ShaclExtract.Proofs.Schema.Contents

/-!
# ShaclExtract.Proofs.Schema.Acceptance

Which routines succeed at which nodes, by itself and without extraction. It extends conformance to
the built-in classes and to dispatch: a program is accepted at a node depending on which calls are
(`Program.Accepted`), `Setting.acceptance` takes one step of this dependency, and a call in its
greatest fixpoint never fails, whatever memo it is run in (`Setting.safe_of_mem_gfp`).

Conversely, what has failed at any time is not in the greatest fixpoint. That is how an alternative
that was passed over, or a field that was left out, is known to be so in every other run.
-/

namespace ShaclExtract

abbrev Calls := Set (Routine × Term)

def Calls.pairs (Z : Calls) : Pairs := {q | (.ofClass q.1, q.2) ∈ Z}

theorem Calls.pairs_mono {Z Z' : Calls} (h : Z ⊆ Z') : Z.pairs ⊆ Z'.pairs := fun _ hq => h hq

/-- A program that is registered for a class or dispatch has an output at the view if the calls
have. -/
inductive Program.Accepted (S : Setting) (Z : Calls) : Program → View → Prop where
  | description {view : View} : Accepted S Z .description view
  | context {view : View} : Accepted S Z .context view
  | path {view : View} {p : Path} : Path.read view.graph view.focus = some (.ok p) →
      Accepted S Z .path view
  | untyped {view : View} : view.types = [] → Accepted S Z .typed view
  | typed {view : View} : (.dispatch, view.focus) ∈ Z → Accepted S Z .typed view
  | dispatch {view : View} : S.applicable view ≠ [] →
      (∀ cls ∈ S.applicable view, (.ofClass cls, view.focus) ∈ Z) → Accepted S Z .dispatch view
  | shape {view : View} {sh : Shape} :
      sh.Conforms S.environment view.graph Z.pairs view.focus → Accepted S Z (.shape sh) view
  | firstOf {view : View} {parts : List Program} {p : Program} : p ∈ parts → Accepted S Z p view →
      Accepted S Z (.firstOf parts) view

theorem Program.Accepted.mono {S : Setting} {Z Z' : Calls} {p : Program} {view : View}
    (h : p.Accepted S Z view) (hZ : Z ⊆ Z') : p.Accepted S Z' view := by
  induction h with
  | description => exact .description
  | context => exact .context
  | path h => exact .path h
  | untyped h => exact .untyped h
  | typed h => exact .typed (hZ h)
  | dispatch hne h => exact .dispatch hne fun cls hcls => hZ (h cls hcls)
  | shape h => exact .shape (h.mono (Calls.pairs_mono hZ))
  | firstOf hp _ ih => exact .firstOf hp ih

/-- The calls that have an output if the given ones have. -/
def Setting.acceptance (S : Setting) (g : Graph) : Calls →o Calls where
  toFun Z := {c | ∃ p, S.program? c.1 = some p ∧ p.Accepted S Z ⟨c.2, g⟩}
  monotone' := by
    rintro Z Z' hZ c ⟨p, hp, h⟩
    exact ⟨p, hp, h.mono hZ⟩

theorem Setting.mem_acceptance {S : Setting} {g : Graph} {Z : Calls} {r : Routine} {node : Term} :
    (r, node) ∈ S.acceptance g Z ↔ ∃ p, S.program? r = some p ∧ p.Accepted S Z ⟨node, g⟩ := Iff.rfl

/-! ## what is accepted never fails -/

namespace Safe

variable {env : Environment} {view : View} {S : Pairs}

theorem value {f : Property} {element : Extractor RunState View Value}
    (hf : f.Satisfied env view.graph S view.focus)
    (h : ∀ node, f.type.Accepts env view.graph S node → Safe (element (view.refocus node)))
    (target : Iri) : Safe (f.value target element view) := by
  obtain ⟨hops, hwalk, hcount, hall⟩ := hf
  cases hl : f.isList with
  | true =>
    rw [Property.value_of_isList hl hwalk]
    refine bindOk (each fun node hnode => h node (hall node hnode)) fun s items s' hrun => ?_
    · have hadmits : f.admits items.length = true := by
        rw [Extractor.length_each hrun]
        exact (Property.counts_of_isList hl _).1 hcount
      rw [Property.counted, Extractor.ofExcept_apply, if_pos hadmits]
      exact ok _
  | false =>
    obtain ⟨node, rfl⟩ := List.length_eq_one_iff.1 ((Property.counts_of_not_isList hl _).1 hcount)
    rw [Property.value_of_single hl hwalk]
    exact h node (hall node List.mem_cons_self)

theorem shape {sh : Shape} {element : ValueType → Extractor RunState View Value}
    (hsh : sh.Conforms env view.graph S view.focus)
    (h : ∀ t node, ValueType.Accepts env view.graph S t node →
      Safe (element t (view.refocus node))) :
    Safe (sh.extractor element view) := by
  refine map (all fun f hf => ?_) _
  by_cases hmin : f.minCount = 0
  · rw [Property.entry_of_optional hmin]
    exact bindError_right _ fun e => ok []
  · rw [Property.entry_of_mandatory hmin]
    have hsat := hsh f hf (Nat.pos_of_ne_zero hmin)
    exact map (mapError (value hsat (h f.type) sh.target) _) _

end Safe

variable {S : Setting} {Z : Calls} {invoke : Invoke}

theorem Setting.safe_element {view : View} (ht : S.transforms = .empty)
    (hi : ∀ r node, (r, node) ∈ Z → Safe (invoke r (view.refocus node))) {t : ValueType}
    {node : Term} (h : t.Accepts S.environment view.graph Z.pairs node) :
    Safe (S.element .memoized invoke t (view.refocus node)) := by
  cases t with
  | ofClass cls =>
    rw [element, instanceOf_of_empty ht]
    exact hi _ _ h
  | datatype d =>
    obtain ⟨v, hv⟩ := h
    intro s e s' h
    simp only [element, Extractor.ofExcept, View.refocus, hv] at h
    cases h

theorem Program.Accepted.safe {p : Program} {view : View} (ht : S.transforms = .empty)
    (h : p.Accepted S Z view)
    (hi : ∀ r node, (r, node) ∈ Z → Safe (invoke r (view.refocus node))) :
    Safe (p.extractor S .memoized invoke view) := by
  induction h with
  | description => exact .ok _
  | context => exact .ok _
  | path hread =>
    intro s e s' h
    simp only [extractor, pathExtractor, hread] at h
    cases h
  | untyped htypes =>
    refine Safe.map (fun s e s' h => ?_) _
    simp only [Setting.typed, htypes, if_true] at h
    cases h
  | @typed view hdispatch =>
    refine Safe.map ?_ _
    unfold Setting.typed
    split
    · exact .ok none
    · exact Safe.map (hi _ _ hdispatch) _
  | @dispatch view hne hclasses =>
    rw [extractor, Setting.dispatched_of_ne_nil ht _ _ hne]
    refine (Safe.all fun cls hcls => hi _ _ (hclasses cls hcls)).bindOk fun s vs s' _ => ?_
    intro s e s' h
    unfold Setting.merged at h
    split at h <;> cases h
  | shape hsh => exact Safe.shape hsh fun t node hnode => Setting.safe_element ht hi hnode
  | firstOf hp _ ih =>
    simp only [extractor, extractors_eq_map, Extractor.firstOf]
    exact Safe.firstOfAfter hp (ih hi) .noAlternative

/-- A call in the greatest fixpoint never fails, whatever it is run with. -/
theorem Setting.safe_of_mem_gfp (ht : S.transforms = .empty) {g : Graph} (depth : Nat) :
    ∀ r node, (r, node) ∈ (S.acceptance g).gfp → Safe (S.invoke .memoized depth r ⟨node, g⟩) := by
  induction depth with
  | zero =>
    intro r node _ s e s' h
    cases h
  | succ depth ih =>
    intro r node hmem
    rw [← OrderHom.map_gfp, mem_acceptance] at hmem
    obtain ⟨p, hp, haccepted⟩ := hmem
    rw [invoke_of_program _ hp]
    exact .shared (haccepted.safe ht ih)

end ShaclExtract
