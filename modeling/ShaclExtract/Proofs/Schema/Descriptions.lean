import ShaclExtract.Proofs.Path.SelfReference
import ShaclExtract.Schema

/-!
# ShaclExtract.Proofs.Schema.Descriptions

Everything that reads path descriptions ends unless it comes to one that refers to itself: the
built-in program for paths, and the compilation of a shapes graph. Such a description is not
rejected. Each of the six places of a part lets a description refer to itself
(`selfReferences`).
-/

namespace ShaclExtract

theorem Collection.read_single {g : Graph} {cell member : Term} (hcell : cell ≠ .iri Rdf.nil)
    (hfirst : g.objects cell Rdf.first = [member])
    (hrest : g.objects cell Rdf.rest = [.iri Rdf.nil]) : read g cell = .ok [member] :=
  readFrom_cell hcell List.not_mem_nil hfirst hrest (readFrom_nil g [cell])

theorem Property.readEach_ends {g : Graph} (h : ∀ q ∈ g, q.predicate = Sh.path →
    ¬ Path.SelfReferring g q.object) (nodes : List Term) : readEach g nodes ≠ none := by
  have hread : ∀ node, read g node ≠ none := by
    intro node
    unfold read
    split
    · exact Option.some_ne_none _
    · rename_i p hp
      obtain ⟨q, hq, -, hpath, rfl⟩ := Graph.mem_objects.1 (List.mem_of_mem_head? hp)
      obtain ⟨r, hr⟩ := (Path.read_ends_iff g q.object).2 (h q hq hpath)
      rw [hr]
      cases r <;> exact Option.some_ne_none _
  induction nodes with
  | nil => exact Option.some_ne_none _
  | cons node nodes ih =>
    unfold readEach
    split
    · rename_i hnone
      exact absurd hnone (hread node)
    · exact Option.some_ne_none _
    · split
      · rename_i hnone
        exact absurd hnone ih
      · exact Option.some_ne_none _
      · exact Option.some_ne_none _

theorem Shape.readSubject_ends {g : Graph} (h : ∀ q ∈ g, q.predicate = Sh.path →
    ¬ Path.SelfReferring g q.object) (subject : Term) : readSubject g subject ≠ none := by
  unfold readSubject
  split
  · exact Option.some_ne_none _
  · split
    · rename_i hnone
      exact absurd hnone (Property.readEach_ends h _)
    · exact Option.some_ne_none _
    · split <;> exact Option.some_ne_none _

theorem Shape.readSubjects_ends {g : Graph} (h : ∀ q ∈ g, q.predicate = Sh.path →
    ¬ Path.SelfReferring g q.object) (subjects : List Term) : readSubjects g subjects ≠ none := by
  induction subjects with
  | nil => exact Option.some_ne_none _
  | cons subject subjects ih =>
    unfold readSubjects
    split
    · rename_i hnone
      exact absurd hnone (readSubject_ends h subject)
    · exact Option.some_ne_none _
    · split
      · rename_i hnone
        exact absurd hnone ih
      · exact Option.some_ne_none _
      · exact Option.some_ne_none _

theorem Program.pathExtractor_ends_iff {σ : Type} (view : View) (s : σ) :
    (∃ r, pathExtractor view s = some r) ↔ ∃ r, Path.read view.graph view.focus = some r := by
  unfold pathExtractor
  rcases Path.read view.graph view.focus with _ | e | p <;> simp

namespace Schema

theorem compile_ends {g : Graph} (h : ∀ q ∈ g, q.predicate = Sh.path →
    ¬ Path.SelfReferring g q.object) (options : Options) : ∃ r, compile options g = some r := by
  rw [← Option.ne_none_iff_exists']
  unfold compile
  split
  · rename_i hnone
    exact absurd hnone (Shape.readSubjects_ends h _)
  · exact Option.some_ne_none _
  · exact Option.some_ne_none _

/-- A description is read, to a path or a failure, exactly if it does not refer to itself. What is
read within any depth is what is read; the program for paths ends when reading does, and
compilation ends if no `sh:path` leads to a description that refers to itself. -/
theorem reading_ends_iff (g : Graph) (node : Term) :
    ((∃ r, Path.read g node = some r) ↔ ¬ Path.SelfReferring g node) ∧
      (∀ depth r, Path.readWithin g depth node = some r → Path.read g node = some r) ∧
      (∀ s : RunState, (∃ r, Program.pathExtractor ⟨node, g⟩ s = some r) ↔
        ¬ Path.SelfReferring g node) ∧
      ((∀ q ∈ g, q.predicate = Sh.path → ¬ Path.SelfReferring g q.object) →
        ∀ options, ∃ r, compile options g = some r) :=
  ⟨Path.read_ends_iff g node, fun _ _ h => Path.read_of_readWithin h,
    fun s => (Program.pathExtractor_ends_iff ⟨node, g⟩ s).trans (Path.read_ends_iff g node),
    compile_ends⟩

/-! ## descriptions that refer to themselves -/

def selfReference (p : Iri) : Graph := [⟨.blank "p", p, .blank "p", none⟩]

def selfMember (cell : Resource) : Graph :=
  [⟨cell, Rdf.first, .blank "p", none⟩, ⟨cell, Rdf.rest, .iri Rdf.nil, none⟩]

/-- In each graph the description at one node has that node as its part: below an inverse or one of
the three repetitions, or in the list of a sequence or of an alternative. -/
def selfReferences : List Graph :=
  [selfReference Sh.inversePath, selfReference Sh.zeroOrMorePath, selfReference Sh.oneOrMorePath,
    selfReference Sh.zeroOrOnePath, selfMember (.blank "p"),
    ⟨.blank "p", Sh.alternativePath, .blank "l", none⟩ :: selfMember (.blank "l")]

theorem awaits_selfReferences :
    ∀ g ∈ selfReferences, Path.Awaits g (.blank "p") (.blank "p") := by
  simp only [selfReferences, List.forall_mem_cons]
  refine ⟨.inverse rfl ⟨_, rfl⟩ rfl, .repetition rfl ⟨_, rfl⟩ ⟨_, rfl⟩ (.zeroOrMore rfl),
    .repetition rfl ⟨_, rfl⟩ ⟨_, rfl⟩ (.oneOrMore rfl rfl),
    .repetition rfl ⟨_, rfl⟩ ⟨_, rfl⟩ (.zeroOrOne rfl rfl rfl), ?_, ?_, by simp⟩
  · exact .sequence rfl ⟨_, Collection.read_single (by simp) rfl rfl, [], [], rfl, by simp⟩
  · exact .alternative rfl rfl
      ⟨_, Collection.read_single (by simp) rfl rfl, [], [], rfl, by simp⟩

/-- They are neither read nor rejected: no depth is enough. -/
theorem read_selfReferences :
    Path.read (selfReference Sh.inversePath) (.blank "p") = none ∧
      ∀ g ∈ selfReferences, ∀ depth, Path.readWithin g depth (.blank "p") = none := by
  have hnone : ∀ g ∈ selfReferences, ∀ depth, Path.readWithin g depth (.blank "p") = none := by
    intro g hg depth
    have hself : Path.SelfReferring g (.blank "p") :=
      ⟨.blank "p", .refl, .single (awaits_selfReferences g hg)⟩
    by_contra hends
    exact Path.not_selfReferring_of_readWithin hends hself
  exact ⟨hnone _ List.mem_cons_self _, hnone⟩

end Schema
end ShaclExtract
