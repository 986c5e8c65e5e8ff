import Mathlib.Data.String.Basic
import ShaclExtract.Proofs.Schema.Cardinality

/-!
# ShaclExtract.Proofs.Shape.Record

The record of a shape. Fields are put into a record one after the other, each in its place; if no
two have the same name, none is overwritten, so the record is the fields in the order of their names
(`Record.perm_ofList`, `Record.ordered_ofList`).

The properties of a shape have different names, so its record has a field for each property that has
a value, with that value, and no other; and if a mandatory property has none, the shape fails with
the first one (`Shape.extractor_iff`).
-/

namespace ShaclExtract

namespace Record

/-- The fields stand in the order of their names, and no name comes twice. -/
def Ordered (r : Record) : Prop := r.Pairwise fun field field' => field.1 < field'.1

theorem Ordered.insert {r : Record} (h : r.Ordered) (name : String) (v : Value) :
    (r.insert name v).Ordered := by
  induction r with
  | nil => exact List.pairwise_singleton _ _
  | cons field r ih =>
    obtain ⟨n, w⟩ := field
    obtain ⟨hn, hr⟩ := List.pairwise_cons.1 h
    unfold Record.insert
    split
    · rename_i heq
      subst heq
      exact List.pairwise_cons.2 ⟨hn, hr⟩
    · rename_i hne
      split
      · rename_i hlt
        refine List.pairwise_cons.2 ⟨?_, h⟩
        exact List.forall_mem_cons.2 ⟨hlt, fun field hfield => hlt.trans (hn field hfield)⟩
      · rename_i hle
        refine List.pairwise_cons.2 ⟨fun field hfield => ?_, ih hr⟩
        have hname := mem_names_insert.1 (List.mem_map_of_mem hfield)
        obtain heq | hmem := hname
        · rw [heq]
          exact lt_of_le_of_ne (not_lt.1 hle) (Ne.symm hne)
        · obtain ⟨field', hfield', heq⟩ := List.mem_map.1 hmem
          rw [← heq]
          exact hn field' hfield'

theorem Ordered.merge {old : Record} (h : old.Ordered) (new : Record) :
    (old.merge new).Ordered := by
  induction new generalizing old with
  | nil => exact h
  | cons field new ih => exact ih (h.insert field.1 field.2)

theorem ordered_ofList (fields : List (String × Value)) : (ofList fields).Ordered := by
  have hempty : Ordered [] := .nil
  exact hempty.merge fields

theorem perm_insert {r : Record} {name : String} (h : name ∉ r.names) (v : Value) :
    (r.insert name v).Perm ((name, v) :: r) := by
  induction r with
  | nil => exact .refl _
  | cons field r ih =>
    obtain ⟨n, w⟩ := field
    obtain ⟨hne, hr⟩ := List.ne_and_not_mem_of_not_mem_cons h
    unfold Record.insert
    rw [if_neg hne]
    split
    · exact .refl _
    · exact ((ih hr).cons _).trans (.swap _ _ _)

theorem perm_merge {old new : Record} (h : (old.names ++ new.names).Nodup) :
    (old.merge new).Perm (old ++ new) := by
  induction new generalizing old with
  | nil =>
    rw [List.append_nil]
    exact .refl old
  | cons field new ih =>
    have hname : field.1 ∉ old.names := fun hmem =>
      (List.nodup_append.1 h).2.2 field.1 hmem field.1 List.mem_cons_self rfl
    have hinsert := perm_insert hname field.2
    have hnames : ((old.insert field.1 field.2).names ++ names new).Perm
        (old.names ++ field.1 :: names new) :=
      ((hinsert.map Prod.fst).append_right (names new)).trans List.perm_middle.symm
    have hmerge : ((old.insert field.1 field.2).merge new).Perm
        (old.insert field.1 field.2 ++ new) := ih (hnames.nodup_iff.2 h)
    exact hmerge.trans ((hinsert.append_right new).trans List.perm_middle.symm)

theorem perm_ofList {fields : List (String × Value)} (h : (fields.map Prod.fst).Nodup) :
    (ofList fields).Perm fields :=
  perm_merge (show (names [] ++ names fields).Nodup from h)

theorem Ordered.eq_of_perm {r r' : Record} (h : r.Ordered) (h' : r'.Ordered) (hperm : r.Perm r') :
    r = r' :=
  hperm.eq_of_pairwise (fun _ _ _ _ hlt hgt => absurd hgt hlt.not_gt) h h'

theorem Ordered.nodup_names {r : Record} (h : r.Ordered) : r.names.Nodup :=
  List.pairwise_map.2 (h.imp fun hlt => hlt.ne)

theorem Ordered.ofList_eq {r : Record} (h : r.Ordered) : ofList r = r :=
  (ordered_ofList r).eq_of_perm h (perm_ofList h.nodup_names)

/-! ## several records -/

theorem get?_eq_none {r : Record} {name : String} (h : name ∉ r.names) : r.get? name = none := by
  induction r with
  | nil => rfl
  | cons field r ih =>
    obtain ⟨hne, hr⟩ := List.ne_and_not_mem_of_not_mem_cons h
    rw [get?, if_neg (Ne.symm hne)]
    exact ih hr

theorem get?_insert (r : Record) (n name : String) (v : Value) :
    (r.insert n v).get? name = if n = name then some v else r.get? name := by
  split
  · rename_i heq
    rw [heq, get?_insert_self]
  · rename_i hne
    exact get?_insert_of_ne r v hne

/-- A field of the new record comes before one of the old record. -/
theorem get?_merge (old : Record) {new : Record} (h : new.names.Nodup) (name : String) :
    (old.merge new).get? name = (new.get? name).or (old.get? name) := by
  induction new generalizing old with
  | nil => rfl
  | cons field new ih =>
    obtain ⟨n, v⟩ := field
    obtain ⟨hn, hnew⟩ := List.nodup_cons.1 h
    have hrest : (old.merge ((n, v) :: new)).get? name = _ := ih (old.insert n v) hnew
    rw [hrest, get?_insert, get?]
    by_cases heq : n = name
    · subst heq
      rw [if_pos rfl, if_pos rfl, get?_eq_none hn, Option.none_or, Option.some_or]
    · rw [if_neg heq, if_neg heq]

/-- All records written over each other, in order. -/
def mergeAll (records : List Record) : Record := records.foldl merge []

theorem mem_names_mergeAll {records : List Record} {name : String} :
    name ∈ (mergeAll records).names ↔ ∃ r ∈ records, name ∈ r.names := by
  have hfold : ∀ (records : List Record) (old : Record),
      name ∈ names (records.foldl merge old) ↔
        name ∈ old.names ∨ ∃ r ∈ records, name ∈ r.names := by
    intro records
    induction records with
    | nil => simp
    | cons r records ih =>
      intro old
      rw [List.foldl_cons, ih, mem_names_merge, List.exists_mem_cons_iff, or_comm (a := name ∈ _),
        or_assoc]
  refine (hfold records []).trans ?_
  simp [names]

theorem ordered_mergeAll (records : List Record) : (mergeAll records).Ordered := by
  have hfold : ∀ (records : List Record) (old : Record), old.Ordered →
      Ordered (records.foldl merge old) := by
    intro records
    induction records with
    | nil => exact fun _ h => h
    | cons r records ih => exact fun old h => ih _ (h.merge r)
  exact hfold records [] .nil

/-- The last record that has a field of the name decides its value. -/
theorem get?_mergeAll {records : List Record} (h : ∀ r ∈ records, r.names.Nodup) (name : String) :
    (mergeAll records).get? name = records.reverse.findSome? fun r => r.get? name := by
  have hfold : ∀ (records : List Record) (old : Record), (∀ r ∈ records, r.names.Nodup) →
      get? (records.foldl merge old) name =
        (records.reverse.findSome? fun r => r.get? name).or (old.get? name) := by
    intro records
    induction records with
    | nil => exact fun _ _ => rfl
    | cons r records ih =>
      intro old h
      obtain ⟨hr, hrecords⟩ := List.forall_mem_cons.1 h
      rw [List.foldl_cons, ih _ hrecords, get?_merge old hr, List.reverse_cons,
        List.findSome?_append, List.findSome?_singleton, Option.or_assoc]
  rw [mergeAll, hfold records [] h]
  exact Option.or_none

/-- The record has the fields of all records, each with the value of the last one that has it. -/
structure MergedFrom (fields : Record) (records : List Record) : Prop where
  ordered : fields.Ordered
  names : ∀ name, name ∈ fields.names ↔ ∃ r ∈ records, name ∈ r.names
  values : ∀ name, fields.get? name = records.reverse.findSome? fun r => r.get? name

theorem mergedFrom_mergeAll {records : List Record} (h : ∀ r ∈ records, r.Ordered) :
    (mergeAll records).MergedFrom records where
  ordered := ordered_mergeAll records
  names _ := mem_names_mergeAll
  values := get?_mergeAll fun r hr => (h r hr).nodup_names

end Record

namespace Shape

variable {σ : Type} {sh : Shape} {element : ValueType → Extractor σ View Value} {view : View}
  {s s' : σ}

theorem Evaluates.sublist {fs : List Property} {entries : List (String × Value)}
    (h : sh.Evaluates element view fs s entries s') :
    (entries.map Prod.fst).Sublist (fs.map Property.name) := by
  induction h with
  | nil s => exact .slnil
  | field _ _ ih => exact ih.cons_cons _
  | absent _ _ _ ih => exact ih.cons _

/-- What is extracted by a shape whose properties have different names. The properties are evaluated
from the left. If each mandatory one has a value, the record has a field for each property with a
value, that value in it, and nothing else. If one has none, the first such failure is that of the
shape, with the place where it happened, and nothing was run after it. -/
theorem extractor_iff (hnames : sh.NamesApart) (element : ValueType → Extractor σ View Value)
    (view : View) (s s' : σ) (r : Except Failure Value) :
    sh.extractor element view s = some (r, s') ↔
      (∃ entries fields, sh.Evaluates element view sh.properties s entries s' ∧
        fields.Perm entries ∧ Record.Ordered fields ∧ r = .ok (.record fields)) ∨
      ∃ before f after entries s₁ e, sh.properties = before ++ f :: after ∧
        sh.Evaluates element view before s entries s₁ ∧ 1 ≤ f.minCount ∧
        f.Evaluates sh.target (element f.type) view s₁ (.error e) s' ∧
        r = .error (.field sh.id sh.target.text f.name view.focus.toText e) := by
  cases r with
  | ok v =>
    rw [extractor_eq_ok_iff]
    constructor
    · rintro ⟨entries, hentries, rfl⟩
      have hnodup := hentries.sublist.nodup hnames
      exact .inl ⟨entries, Record.ofList entries, hentries, Record.perm_ofList hnodup,
        Record.ordered_ofList entries, rfl⟩
    · rintro (⟨entries, fields, hentries, hperm, hordered, ⟨⟩⟩ | ⟨_, _, _, _, _, _, _, _, _, _, ⟨⟩⟩)
      have hnodup := hentries.sublist.nodup hnames
      have hfields : fields = Record.ofList entries := hordered.eq_of_perm
        (Record.ordered_ofList entries) (hperm.trans (Record.perm_ofList hnodup).symm)
      exact ⟨entries, hentries, by rw [hfields]⟩
  | error e =>
    rw [extractor_eq_error_iff]
    constructor
    · rintro ⟨before, f, after, entries, s₁, e', hfs, hentries, hmin, hread, rfl⟩
      exact .inr ⟨before, f, after, entries, s₁, e', hfs, hentries, hmin, hread, rfl⟩
    · rintro (⟨_, _, _, _, _, ⟨⟩⟩ |
        ⟨before, f, after, entries, s₁, e', hfs, hentries, hmin, hread, ⟨⟩⟩)
      exact ⟨before, f, after, entries, s₁, e', hfs, hentries, hmin, hread, rfl⟩

def called (name : String) (minCount : Nat) (maxCount : Option Nat) : Property :=
  ⟨name, .predicate ⟨name⟩, minCount, maxCount, .ofClass ⟨"Name"⟩⟩

def person : Shape :=
  ⟨"_:person", ⟨"Person"⟩, none,
    [called "nick" 0 (some 1), called "name" 1 (some 1), called "alias" 0 none]⟩

/-- Somebody with a nickname that is no name, and somebody without a name. -/
def people : Graph :=
  [⟨.iri ⟨"a"⟩, ⟨"alias"⟩, .iri ⟨"x"⟩, none⟩, ⟨.iri ⟨"a"⟩, ⟨"nick"⟩, .blank "n", none⟩,
    ⟨.iri ⟨"a"⟩, ⟨"name"⟩, .iri ⟨"z"⟩, none⟩, ⟨.iri ⟨"a"⟩, ⟨"alias"⟩, .iri ⟨"y"⟩, none⟩,
    ⟨.iri ⟨"b"⟩, ⟨"nick"⟩, .iri ⟨"x"⟩, none⟩, ⟨.iri ⟨"b"⟩, ⟨"alias"⟩, .iri ⟨"y"⟩, none⟩]

/-- Names are IRIs. Counts how many nodes were looked at. -/
def reading : ValueType → Extractor Nat View Value := fun _ view looked =>
  match view.focus with
  | .iri i => some (.ok (.term (.iri i)), looked + 1)
  | node => some (.error (.typeMismatch node.toText), looked + 1)

/-- The nickname of the first was looked at in vain, and the aliases of the second were not looked
at, as the name is missing. -/
theorem extractor_iff_person :
    person.NamesApart ∧
    person.extractor reading ⟨.iri ⟨"a"⟩, people⟩ 0 = some (.ok (.record
      [("alias", .list [.term (.iri ⟨"x"⟩), .term (.iri ⟨"y"⟩)]),
        ("name", .term (.iri ⟨"z"⟩))]), 4) ∧
    person.extractor reading ⟨.iri ⟨"b"⟩, people⟩ 0 =
      some (.error (.field "_:person" "Person" "name" "<b>" (.requiredValueMissing 0)), 1) := by
  have hnames : person.NamesApart := by
    unfold NamesApart
    decide
  refine ⟨hnames, (extractor_iff hnames reading _ 0 4 _).2 (.inl ?_),
    (extractor_iff hnames reading _ 0 1 _).2 (.inr ?_)⟩
  · have haliases : (called "alias" 0 none).Evaluates person.target (reading (.ofClass ⟨"Name"⟩))
        ⟨.iri ⟨"a"⟩, people⟩ 2 (.ok (.list [.term (.iri ⟨"x"⟩), .term (.iri ⟨"y"⟩)])) 4 :=
      .list rfl rfl (.cons rfl (.cons rfl (.nil 4))) (Nat.zero_le 2) nofun
    refine ⟨[("name", .term (.iri ⟨"z"⟩)), ("alias", .list _)], _, ?_, .swap _ _ _, ?_, rfl⟩
    · exact .absent rfl (.single rfl rfl rfl) (.field (.single rfl rfl rfl)
        (.field haliases (.nil 4)))
    · unfold Record.Ordered
      decide
  · exact ⟨[called "nick" 0 (some 1)], called "name" 1 (some 1), [called "alias" 0 none], _, 1, _,
      rfl, .field (.single rfl rfl rfl) (.nil 1), Nat.le_refl 1, .missing rfl rfl nofun, rfl⟩

end Shape
end ShaclExtract
