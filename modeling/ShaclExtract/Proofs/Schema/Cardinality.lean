import ShaclExtract.Proofs.Schema.Dispatch

/-!
# ShaclExtract.Proofs.Schema.Cardinality

The number of values that a field of a record stands for. A property with room for two or more
values is in the record only if its path leads to as many nodes as it admits. One with a maximum
below two is read as a single value, and then it is in the record only if its path leads to exactly
one node, whatever its minimum and its maximum are; so of the bounds that can be declared, a maximum
of zero, and a minimum of two or more together with a maximum of one, are not respected
(`Schema.cardinality_respected`).
-/

namespace ShaclExtract

/-! ## names of fields -/

theorem Record.mem_names_ofList {fields : List (String × Value)} {name : String} :
    name ∈ (ofList fields).names ↔ name ∈ fields.map Prod.fst := by
  rw [ofList, mem_names_merge]
  simp [names]

namespace Shape

theorem nodup_of_duplicate? {seen names : List String} (h : duplicate? seen names = none) :
    names.Nodup ∧ ∀ name ∈ names, name ∉ seen := by
  induction names generalizing seen with
  | nil => simp
  | cons name names ih =>
    simp only [duplicate?] at h
    split at h
    · cases h
    · rename_i hname
      obtain ⟨hnodup, hseen⟩ := ih h
      refine ⟨List.nodup_cons.2 ⟨fun hmem => hseen name hmem List.mem_cons_self, hnodup⟩, ?_⟩
      intro n hn
      rcases List.mem_cons.1 hn with rfl | hn
      · exact hname
      · exact fun hmem => hseen n hn (List.mem_cons_of_mem _ hmem)

/-- No two properties of a shape have one name. -/
def NamesApart (sh : Shape) : Prop := (sh.properties.map Property.name).Nodup

theorem namesApart_of_readSubject {g : Graph} {subject : Term} {shapes : List Shape}
    (h : readSubject g subject = some (.ok shapes)) : ∀ sh ∈ shapes, sh.NamesApart := by
  simp only [readSubject] at h
  split at h
  · cases h
  · split at h
    · cases h
    · cases h
    · rename_i properties _
      split at h
      · cases h
      · rename_i hduplicate
        cases h
        intro sh hsh
        obtain ⟨target, _, rfl⟩ := List.mem_map.1 hsh
        exact (nodup_of_duplicate? hduplicate).1

theorem namesApart_of_readSubjects {g : Graph} {subjects : List Term} {shapes : List Shape}
    (h : readSubjects g subjects = some (.ok shapes)) : ∀ sh ∈ shapes, sh.NamesApart := by
  induction subjects generalizing shapes with
  | nil => cases h; simp
  | cons subject rest ih =>
    simp only [readSubjects] at h
    split at h
    · cases h
    · cases h
    · rename_i first hfirst
      split at h
      · cases h
      · cases h
      · rename_i more hmore
        cases h
        intro sh hsh
        rcases List.mem_append.1 hsh with hsh | hsh
        · exact namesApart_of_readSubject hfirst sh hsh
        · exact ih hmore sh hsh

end Shape

/-! ## the number of hops -/

namespace Property

variable {σ : Type} {f : Property} {target : Iri} {element : Extractor σ View Value} {view : View}
  {s s' : σ}

theorem Evaluates.counts {v : Value} (h : f.Evaluates target element view s (.ok v) s') :
    ∃ hops, f.path.walk view.graph view.focus = .ok hops ∧ f.Counts hops.length := by
  cases h with
  | list hl hwalk hruns hmin hmax =>
    rw [hruns.length_eq] at hmin hmax
    exact ⟨_, hwalk, (counts_of_isList hl _).2 (admits_iff.2 ⟨hmin, hmax⟩)⟩
  | single hl hwalk _ => exact ⟨_, hwalk, (counts_of_not_isList hl _).2 rfl⟩

/-- The bounds are respected, unless a property that is read as a single value rules one out. -/
theorem Counts.bounds {found : Nat} (h : f.Counts found) (hzero : f.maxCount ≠ some 0)
    (hone : f.maxCount = some 1 → f.minCount ≤ 1) :
    f.minCount ≤ found ∧ ∀ m, f.maxCount = some m → found ≤ m := by
  unfold Counts at h
  cases hm : f.maxCount with
  | none =>
    rw [hm] at h
    exact ⟨h, by simp⟩
  | some m =>
    simp only [hm] at h
    split at h
    · have hm1 : m = 1 := by
        have : m ≠ 0 := fun hm0 => hzero (hm0 ▸ hm)
        omega
      subst hm1
      have := hone hm
      simp [h, this]
    · simpa using h

end Property

namespace Schema

variable {options : Options} {g : Graph} {schema : Schema} {view : View}

theorem namesApart_of_compile (hc : compile options g = some (.ok schema)) :
    ∀ sh ∈ schema.shapes, sh.NamesApart := by
  obtain ⟨shapes, hshapes, rfl⟩ := compile_cases hc
  exact Shape.namesApart_of_readSubjects hshapes

/-- What each property of a shape put into the record of the shape. -/
theorem entries_of_runProgram {sh : Shape} {s s' : RunState} {v : Value}
    (h : schema.setting.runProgram (.shape sh) view s = some (.ok v, s')) :
    ∃ entries : List Record, v = .record (Record.ofList entries.flatten) ∧
      List.Forall₂ (fun f (r : Record) => (r.names = [f.name] ∧ ∃ hops,
          f.path.walk view.graph view.focus = .ok hops ∧ f.Counts hops.length) ∨
        r = [] ∧ f.minCount = 0) sh.properties entries := by
  obtain ⟨entries, hentries, rfl⟩ := Extractor.ok_of_map h
  refine ⟨entries, rfl, (Extractor.forall₂_of_all hentries).imp ?_⟩
  rintro f r ⟨s₁, s₂, hr⟩
  obtain ⟨v, hv, ⟨⟩⟩ | ⟨e, _, hnone⟩ := Property.entry_iff.1 hr
  · exact .inl ⟨rfl, hv.counts⟩
  · split at hnone
    · rename_i hmin
      cases hnone
      exact .inr ⟨rfl, hmin⟩
    · cases hnone

/-- Declared cardinalities are respected. If a shape is extracted and has a field, the path of the
property leads to one node if its maximum is below two, and to a number of nodes within its bounds
otherwise. A field with a minimum of one or more is there. -/
theorem cardinality_respected (hc : compile options g = some (.ok schema)) {sh : Shape}
    (hsh : sh ∈ schema.shapes) {f : Property} (hf : f ∈ sh.properties) {s s' : RunState}
    {v : Value} (hrun : schema.setting.runProgram (.shape sh) view s = some (.ok v, s')) :
    ∃ fields : Record, v = .record fields ∧
      (f.name ∈ fields.names → ∃ hops, f.path.walk view.graph view.focus = .ok hops ∧
        (f.isList = false → hops.length = 1) ∧
        (f.maxCount ≠ some 0 → (f.maxCount = some 1 → f.minCount ≤ 1) →
          f.minCount ≤ hops.length ∧ ∀ m, f.maxCount = some m → hops.length ≤ m)) ∧
      (1 ≤ f.minCount → f.name ∈ fields.names) := by
  obtain ⟨entries, rfl, hentries⟩ := entries_of_runProgram hrun
  have hnames : ∀ name, name ∈ (Record.ofList entries.flatten).names ↔
      ∃ r ∈ entries, name ∈ r.names := by
    intro name
    rw [Record.mem_names_ofList, List.map_flatten, List.mem_flatten]
    simp [Record.names]
  refine ⟨_, rfl, fun hname => ?_, fun hmin => ?_⟩
  · -- the name is that of one property only, so it was put in by this one
    obtain ⟨r, hr, hname⟩ := (hnames f.name).1 hname
    obtain ⟨f', hf', ⟨hr', hops, hwalk, hcounts⟩ | ⟨rfl, _⟩⟩ := hentries.exists_of_mem r hr
    · rw [hr', List.mem_singleton] at hname
      obtain rfl : f = f' :=
        List.inj_on_of_nodup_map (namesApart_of_compile hc sh hsh) hf hf' hname
      exact ⟨hops, hwalk, fun hl => (Property.counts_of_not_isList hl _).1 hcounts,
        hcounts.bounds⟩
    · cases hname
  · obtain ⟨r, hr, ⟨hr', _⟩ | ⟨_, hzero⟩⟩ := hentries.flip.exists_of_mem f hf
    · exact (hnames f.name).2 ⟨r, hr, by rw [hr']; exact List.mem_singleton_self _⟩
    · omega

/-! ## one successor -/

def linkProperty : Property := ⟨"next", .predicate ⟨"next"⟩, 1, some 1, .ofClass ⟨"C"⟩⟩

/-- The successor and the node it leads back to have slots, and the focus has the second one. -/
def linkState : RunState :=
  ⟨⟨[.ready (.record [("next", .ref ⟨1⟩)]), .ready (.record [("next", .ref ⟨0⟩)])],
    [(.of (.routine (.ofClass ⟨"C"⟩)) (.iri ⟨"a"⟩), ⟨1⟩),
      (.of (.routine (.ofClass ⟨"C"⟩)) (.iri ⟨"b"⟩), ⟨0⟩)]⟩, .empty⟩

theorem run_link : linkSchema.setting.runProgram (.shape link) linkView (.start .empty) =
    some (.ok (.record [("next", .ref ⟨0⟩)]), linkState) := by rfl

/-- The field is there, and there is one successor, as the shape asks for. -/
theorem cardinality_respected_link :
    compile .default linkShapes = some (.ok linkSchema) ∧ link ∈ linkSchema.shapes ∧
    linkProperty ∈ link.properties ∧
    linkSchema.setting.runProgram (.shape link) linkView (.start .empty) =
      some (.ok (.record [("next", .ref ⟨0⟩)]), linkState) ∧
    linkProperty.name ∈ Record.names [("next", .ref ⟨0⟩)] ∧
    ∃ hops, linkProperty.path.walk linkView.graph linkView.focus = .ok hops ∧ hops.length = 1 ∧
      linkProperty.minCount ≤ hops.length := by
  have hsh : link ∈ linkSchema.shapes := List.mem_singleton_self _
  have hf : linkProperty ∈ link.properties := List.mem_singleton_self _
  obtain ⟨fields, hfields, hhops, hthere⟩ :=
    cardinality_respected compile_linkShapes hsh hf run_link
  cases hfields
  have hname := hthere (Nat.le_refl 1)
  obtain ⟨hops, hwalk, hone, hbounds⟩ := hhops hname
  exact ⟨compile_linkShapes, hsh, hf, run_link, hname, hops, hwalk, hone rfl,
    (hbounds (by decide) fun _ => Nat.le_refl 1).1⟩

/-! ## a maximum of zero -/

def noneShapes : Graph :=
  [⟨.iri ⟨"S"⟩, Rdf.type, .iri Sh.nodeShape, none⟩,
    ⟨.iri ⟨"S"⟩, Sh.targetClass, .iri ⟨"C"⟩, none⟩,
    ⟨.iri ⟨"S"⟩, Sh.property, .blank "p", none⟩,
    ⟨.blank "p", Sh.path, .iri ⟨"tag"⟩, none⟩,
    ⟨.blank "p", Sh.name, .literal (.simple "tag"), none⟩,
    ⟨.blank "p", Sh.datatype, .iri Xsd.string, none⟩,
    ⟨.blank "p", Sh.maxCount, .literal (.simple "0"), none⟩]

def noneProperty : Property :=
  ⟨"tag", .predicate ⟨"tag"⟩, 0, some 0, .datatype Xsd.string⟩

def noneShape : Shape := ⟨"S", ⟨"C"⟩, none, [noneProperty]⟩

def noneSchema : Schema :=
  ⟨[noneShape], registry [] [noneShape], .ofGraph noneShapes, .empty, fun _ => none, .empty⟩

theorem compile_noneShapes : compile .default noneShapes = some (.ok noneSchema) :=
  compile_of_readAll (by rfl) .default

def taggedView : View := ⟨.iri ⟨"a"⟩, [⟨.iri ⟨"a"⟩, ⟨"tag"⟩, .literal (.simple "t"), none⟩]⟩

/-- The field is there, though its maximum is zero and there is a value. -/
theorem cardinality_exceeded :
    compile .default noneShapes = some (.ok noneSchema) ∧ noneShape ∈ noneSchema.shapes ∧
    noneProperty ∈ noneShape.properties ∧
    noneSchema.setting.runProgram (.shape noneShape) taggedView (.start .empty) =
      some (.ok (.record [("tag", .text "t")]), .start .empty) ∧
    noneProperty.path.walk taggedView.graph taggedView.focus =
      .ok [.literal (.simple "t")] ∧
    noneProperty.maxCount = some 0 ∧ ¬ [Term.literal (.simple "t")].length ≤ 0 :=
  ⟨compile_noneShapes, List.mem_singleton_self _, List.mem_singleton_self _, by rfl, by rfl, rfl,
    by decide⟩

end Schema
end ShaclExtract
