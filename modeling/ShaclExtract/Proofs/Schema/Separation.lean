import ShaclExtract.Proofs.Dialogue.Separation
import ShaclExtract.Proofs.Schema.Contents

/-!
# ShaclExtract.Proofs.Schema.Separation

Nodes are kept apart as far as their kind and lexical form tell them apart. Two literals that differ
only in datatype or language have one key, and the one that comes second is served the value of the
first (`shared_same_lexical`).
-/

namespace ShaclExtract
namespace Schema

/-- Whatever was run before, a node of which no other node with its kind and lexical form is asked
for is served its own result, and different keys have different slots. In an extraction, the items
of a list of instances are read from the hops of its path one by one, and so each element of the
context class is the record of its own node. -/
theorem nodes_apart :
    (∀ {Λ : Type} {R : Repertoire Λ} {P : Λ → View → Prop} {ℓ : Λ}
      {f : View → Except Failure Value}, R.Keeps P → R.Pure ℓ f →
      ∀ {g : Graph} {t₁ t₂ : Term}, P ℓ ⟨t₁, g⟩ → P ℓ ⟨t₂, g⟩ →
        (t₁.kind ≠ t₂.kind ∨ t₁.lexical ≠ t₂.lexical) →
        (∀ view, P ℓ view → view.focus.kind = t₂.kind → view.focus.lexical = t₂.lexical →
          view = ⟨t₂, g⟩) →
        ∀ {s : RunState}, R.Reached P s → ∀ depth, ∃ r₁ s₁ r₂ s₂,
          R.invoke (depth + 1) ℓ ⟨t₁, g⟩ s = some (r₁, s₁) ∧
          R.invoke (depth + 1) ℓ ⟨t₂, g⟩ s₁ = some (r₂, s₂) ∧
          R.Served ℓ f ⟨t₂, g⟩ r₂ s₂.memo ∧
          (∀ slot, r₁ = .ok (.ref slot) → r₂ ≠ .ok (.ref slot)) ∧
          ∀ key key' slot, s₂.memo.lookup key = some slot → s₂.memo.lookup key' = some slot →
            key = key') ∧
    (∀ {options : Options} {g : Graph} {schema : Schema} {view : View}, options.Plain →
      compile options g = some (.ok schema) → view.LexicallyDistinct →
      ∀ {x : Extraction} {r : Routine}, schema.Extracts view x r →
        (∀ cls node slot, cls ∉ builtinClasses → Path.Within view.graph view.focus node →
          x.memo.lookup (classKey cls node) = some slot → ∃ v, x.memo.slot? slot = some (.ready v) ∧
            ∃ sh ∈ schema.shapes, sh.target = cls ∧
              sh.Reads schema.setting.environment x.memo ⟨node, view.graph⟩ v) ∧
        ∀ node slot, Path.Within view.graph view.focus node →
          x.memo.lookup (classKey Rdfl.context node) = some slot →
            x.memo.slot? slot = some (.ready (.record (View.record ⟨node, view.graph⟩)))) := by
  refine ⟨?_, ?_⟩
  · intro Λ R P ℓ f hR hℓ g t₁ t₂ h₁ h₂ hne huniq s hs depth
    obtain ⟨r₁, s₁, r₂, s₂, hrun₁, hrun₂, hserved, hslots⟩ := hs.apart hR hℓ h₁ h₂ hne huniq depth
    have hs₂ : R.Reached P s₂ := (hs.run h₁ hrun₁).run h₂ hrun₂
    exact ⟨r₁, s₁, r₂, s₂, hrun₁, hrun₂, hserved, hslots, (hs₂.faithful hR hℓ).regular.separate⟩
  · intro options g schema view ho hc hlit x r hx
    have hown := hx.own ho hc hlit
    refine ⟨fun cls node slot hcls hnear hslot => ?_, fun node slot hnear hslot => ?_⟩
    · obtain ⟨v, hv⟩ := hx.ready ho hc hslot
      exact ⟨v, hv, (hown _ slot v hslot hv cls node hnear rfl).1 hcls⟩
    · obtain ⟨v, hv⟩ := hx.ready ho hc hslot
      rw [hv, (hown _ slot v hslot hv Rdfl.context node hnear rfl).2 rfl]

/-! ## nodes with one lexical form -/

def focusOnly : Repertoire Unit where
  id _ := .part 0
  dialogue? _ := some fun view => .answer (.ok (.term view.focus))
  unknown _ := .noAlternative

def focusValue (view : View) : Except Failure Value := .ok (.term view.focus)

theorem pure_focusOnly : focusOnly.Pure () focusValue where
  known := ⟨_, rfl, fun _ _ _ => rfl⟩
  alone _ _ := rfl

theorem keeps_focusOnly (P : Unit → View → Prop) : focusOnly.Keeps P := by
  rintro name d view hd _
  cases hd
  trivial

/-- Each value of a property is a node with the graph. -/
def contextsShapes : Graph :=
  [⟨.iri ⟨"S"⟩, Rdf.type, .iri Sh.nodeShape, none⟩,
    ⟨.iri ⟨"S"⟩, Sh.targetClass, .iri ⟨"C"⟩, none⟩,
    ⟨.iri ⟨"S"⟩, Sh.property, .blank "p", none⟩,
    ⟨.blank "p", Sh.path, .iri ⟨"next"⟩, none⟩,
    ⟨.blank "p", Sh.name, .literal (.simple "next"), none⟩,
    ⟨.blank "p", Sh.classOf, .iri Rdfl.context, none⟩]

def contextsShape : Shape :=
  ⟨"S", ⟨"C"⟩, none, [⟨"next", .predicate ⟨"next"⟩, 0, none, .ofClass Rdfl.context⟩]⟩

def contextsSchema : Schema :=
  ⟨[contextsShape], registry [] [contextsShape], .ofGraph contextsShapes, .empty, fun _ => none,
    .empty⟩

theorem compile_contextsShapes : compile .default contextsShapes = some (.ok contextsSchema) :=
  compile_of_readAll (by rfl) .default

/-- The two values have one lexical form, but only one of them is a literal. -/
def contextsView : View :=
  ⟨.iri ⟨"a"⟩, [⟨.iri ⟨"a"⟩, ⟨"next"⟩, .iri ⟨"b"⟩, none⟩,
    ⟨.iri ⟨"a"⟩, ⟨"next"⟩, .literal (.simple "b"), none⟩]⟩

def contextsExtraction : Extraction :=
  ⟨.ref ⟨0⟩,
    ⟨[.ready (.record [("next", .list [.ref ⟨1⟩, .ref ⟨2⟩])]),
        .ready (.record (View.record (contextsView.refocus (.iri ⟨"b"⟩)))),
        .ready (.record (View.record (contextsView.refocus (.literal (.simple "b")))))],
      [(classKey Rdfl.context (.literal (.simple "b")), ⟨2⟩),
        (classKey Rdfl.context (.iri ⟨"b"⟩), ⟨1⟩), (classKey ⟨"C"⟩ (.iri ⟨"a"⟩), ⟨0⟩)]⟩⟩

theorem extract_contextsView :
    contextsSchema.extract ⟨"C"⟩ contextsView = some (.ok contextsExtraction) := by rfl

theorem lexicallyDistinct_contextsView : contextsView.LexicallyDistinct := by decide

/-- An IRI and a literal with one lexical form are kept apart. -/
theorem nodes_apart_contexts :
    focusOnly.Pure () focusValue ∧
    (∃ r₁ s₁ r₂ s₂,
      focusOnly.invoke 1 () ⟨.iri ⟨"b"⟩, []⟩ (.start .empty) = some (r₁, s₁) ∧
      focusOnly.invoke 1 () ⟨.literal (.simple "b"), []⟩ s₁ = some (r₂, s₂) ∧
      focusOnly.Served () focusValue ⟨.literal (.simple "b"), []⟩ r₂ s₂.memo) ∧
    compile .default contextsShapes = some (.ok contextsSchema) ∧
    contextsView.LexicallyDistinct ∧
    contextsSchema.Extracts contextsView contextsExtraction (.ofClass ⟨"C"⟩) ∧
    contextsExtraction.memo.slot? ⟨2⟩ =
      some (.ready (.record (View.record (contextsView.refocus (.literal (.simple "b")))))) := by
  let P : Unit → View → Prop := fun _ view =>
    view = ⟨.iri ⟨"b"⟩, []⟩ ∨ view = ⟨.literal (.simple "b"), []⟩
  have huniq : ∀ view, P () view → view.focus.kind = .literal → view.focus.lexical = "b" →
      view = ⟨.literal (.simple "b"), []⟩ := by
    rintro view (rfl | rfl) hkind _
    · cases hkind
    · rfl
  obtain ⟨r₁, s₁, r₂, s₂, hrun₁, hrun₂, hserved, _⟩ := nodes_apart.1 (keeps_focusOnly P)
    pure_focusOnly (.inl rfl) (.inr rfl) (.inl (by decide)) huniq (.start .empty) 0
  have hx : contextsSchema.Extracts contextsView contextsExtraction (.ofClass ⟨"C"⟩) :=
    .byClass extract_contextsView
  have hnear : Path.Within contextsView.graph contextsView.focus (.literal (.simple "b")) :=
    .inr (by decide)
  exact ⟨pure_focusOnly, ⟨r₁, s₁, r₂, s₂, hrun₁, hrun₂, hserved⟩, compile_contextsShapes,
    lexicallyDistinct_contextsView, hx,
    (nodes_apart.2 ⟨rfl, rfl, rfl⟩ compile_contextsShapes lexicallyDistinct_contextsView hx).2
      _ ⟨2⟩ hnear rfl⟩

/-- Two literals that differ in their datatype share a slot, and the second is served the first. -/
theorem shared_same_lexical :
    focusOnly.Pure () focusValue ∧
    (∃ s₁, focusOnly.invoke 1 () ⟨.literal (.typed "1" Xsd.integer), []⟩ (.start .empty) =
        some (.ok (.ref ⟨0⟩), s₁) ∧
      focusOnly.invoke 1 () ⟨.literal (.simple "1"), []⟩ s₁ = some (.ok (.ref ⟨0⟩), s₁) ∧
      s₁.memo.resolve (.ref ⟨0⟩) = .term (.literal (.typed "1" Xsd.integer))) ∧
    focusValue ⟨.literal (.simple "1"), []⟩ = .ok (.term (.literal (.simple "1"))) ∧
    Term.literal (.typed "1" Xsd.integer) ≠ .literal (.simple "1") :=
  ⟨pure_focusOnly, ⟨_, rfl, rfl, rfl⟩, rfl, by decide⟩

end Schema
end ShaclExtract
