import ShaclExtract.Proofs.Rdf.Lookup
import ShaclExtract.Rdf.Collection

/-!
# ShaclExtract.Proofs.Rdf.Collection

Which chains of cells are lists. A list is read exactly if its cells are different, none is
`rdf:nil`, each has one link of each kind, and the last one leads to `rdf:nil`; otherwise reading
fails at the first cell that has been met before or lacks this form (`Collection.members_spec`).
Both answers come from one fact: cells that form a chain (`Collection.Chain`) are passed one after
the other, whatever they lead to (`Collection.readFrom_of_chain`).

A list that is written is a chain in every graph that has its quads, in any order, and no other ones
at its cells (`Collection.chain_write`).
-/

namespace ShaclExtract
namespace Collection

/-! ## single cells -/

theorem objects_of_cell {g : Graph} {b : String} {s : Resource} {member tail : Term}
    (h : (g.outgoing (.blank b)).Perm [⟨s, Rdf.first, member, none⟩, ⟨s, Rdf.rest, tail, none⟩]) :
    g.objects (.blank b) Rdf.first = [member] ∧ g.objects (.blank b) Rdf.rest = [tail] := by
  have hne : Rdf.first ≠ Rdf.rest := by decide
  constructor
  · refine List.perm_singleton.1 ((Graph.objects_of_outgoing h Rdf.first).trans ?_)
    simp [hne.symm]
  · refine List.perm_singleton.1 ((Graph.objects_of_outgoing h Rdf.rest).trans ?_)
    simp [hne]

theorem readFrom_subset {g : Graph} (seen : List Term) (cell : Term) :
    ∀ nodes, readFrom g seen cell = .ok nodes → nodes ⊆ g.terms := by
  fun_induction readFrom g seen cell with
  | case1 => intro nodes h; cases h; simp
  | case2 => intro nodes h; cases h
  | case3 seen cell hnil hs first rest hf hr items hitems ih =>
    intro nodes h
    cases h
    have hfirst : first ∈ g.objects cell Rdf.first := by
      rw [hf]
      exact List.mem_singleton_self first
    obtain ⟨q, hq, -, -, rfl⟩ := Graph.mem_objects.1 hfirst
    exact List.cons_subset.2 ⟨Graph.object_mem_terms hq, ih items hitems⟩
  | case4 => intro nodes h; cases h
  | case5 => intro nodes h; cases h
  | case6 => intro nodes h; cases h
  | case7 => intro nodes h; cases h

theorem readFrom_links {g : Graph} {seen : List Term} {cell first rest : Term}
    (hcell : cell ≠ .iri Rdf.nil) (hseen : cell ∉ seen)
    (hfirst : g.objects cell Rdf.first = [first]) (hrest : g.objects cell Rdf.rest = [rest]) :
    readFrom g seen cell = (readFrom g (cell :: seen) rest).map (first :: ·) := by
  rw [readFrom, if_neg hcell, dif_neg hseen]
  split
  · rename_i first' rest' hf hr
    cases hfirst.symm.trans hf
    cases hrest.symm.trans hr
    cases readFrom g (cell :: seen) rest <;> rfl
  · rename_i hf
    cases hfirst.symm.trans hf
  · rename_i hr _
    cases hrest.symm.trans hr
  · rename_i hone
    exact absurd hrest (hone _ _ hfirst)

theorem readFrom_cell {g : Graph} {seen nodes : List Term} {cell first rest : Term}
    (hcell : cell ≠ .iri Rdf.nil) (hseen : cell ∉ seen)
    (hfirst : g.objects cell Rdf.first = [first]) (hrest : g.objects cell Rdf.rest = [rest])
    (h : readFrom g (cell :: seen) rest = .ok nodes) :
    readFrom g seen cell = .ok (first :: nodes) := by
  rw [readFrom_links hcell hseen hfirst hrest, h]
  rfl

theorem readFrom_malformed {g : Graph} {seen : List Term} {cell : Term}
    (hcell : cell ≠ .iri Rdf.nil) (h : cell ∈ seen ∨ ∀ first rest,
      g.objects cell Rdf.first = [first] → g.objects cell Rdf.rest ≠ [rest]) :
    ∃ e, readFrom g seen cell = .error e := by
  rw [readFrom, if_neg hcell]
  split
  · exact ⟨_, rfl⟩
  · rename_i hseen
    split
    · rename_i first rest hf hr
      exact absurd hr (h.resolve_left hseen first rest hf)
    all_goals exact ⟨_, rfl⟩

theorem readFrom_nil (g : Graph) (seen : List Term) : readFrom g seen (.iri Rdf.nil) = .ok [] := by
  rw [readFrom, if_pos rfl]

theorem read_subset {g : Graph} {head : Term} {nodes : List Term} (h : read g head = .ok nodes) :
    nodes ⊆ g.terms := readFrom_subset [] head nodes h

/-! ## chains -/

/-- The cells met from the first one on, with their members, up to a cell that is not passed. Each
has one quad of each kind, and none is `rdf:nil`. -/
inductive Chain (g : Graph) : Term → List Term → List Term → Term → Prop where
  | stop (cell : Term) : Chain g cell [] [] cell
  | pass {cell member next last : Term} {cells members : List Term} :
      cell ≠ .iri Rdf.nil → g.objects cell Rdf.first = [member] →
      g.objects cell Rdf.rest = [next] → Chain g next cells members last →
      Chain g cell (cell :: cells) (member :: members) last

/-- What keeps a cell from being passed, once the given cells have been met. -/
inductive Faulty (g : Graph) (seen : List Term) (cell : Term) : Fault → Prop where
  | revisited : cell ∈ seen → Faulty g seen cell .revisited
  | missingFirst : cell ∉ seen → g.objects cell Rdf.first = [] → Faulty g seen cell .missingFirst
  | missingRest : cell ∉ seen → g.objects cell Rdf.first ≠ [] → g.objects cell Rdf.rest = [] →
      Faulty g seen cell .missingRest
  | severalLinks : cell ∉ seen → g.objects cell Rdf.first ≠ [] → g.objects cell Rdf.rest ≠ [] →
      (∀ member next, g.objects cell Rdf.first = [member] → g.objects cell Rdf.rest ≠ [next]) →
      Faulty g seen cell .severalLinks

variable {g : Graph} {seen cells members : List Term} {cell last : Term} {fault : Fault}

theorem Faulty.congr {seen' : List Term} (hseen : ∀ c, c ∈ seen ↔ c ∈ seen')
    (h : Faulty g seen cell fault) : Faulty g seen' cell fault := by
  cases h with
  | revisited hs => exact .revisited ((hseen _).1 hs)
  | missingFirst hs hf => exact .missingFirst (mt (hseen _).2 hs) hf
  | missingRest hs hf hr => exact .missingRest (mt (hseen _).2 hs) hf hr
  | severalLinks hs hf hr hone => exact .severalLinks (mt (hseen _).2 hs) hf hr hone

theorem readFrom_of_faulty (hcell : cell ≠ .iri Rdf.nil) (h : Faulty g seen cell fault) :
    readFrom g seen cell = .error (malformed cell fault) := by
  rw [readFrom, if_neg hcell]
  cases h with
  | revisited hs => rw [dif_pos hs]
  | missingFirst hs hf =>
    rw [dif_neg hs]
    split <;> simp_all
  | missingRest hs hf hr =>
    rw [dif_neg hs]
    split <;> simp_all
  | severalLinks hs hf hr hone =>
    rw [dif_neg hs]
    split <;> simp_all

/-- New cells that form a chain are passed, and what follows is read knowing them. -/
theorem readFrom_of_chain (h : Chain g cell cells members last) (hnodup : cells.Nodup)
    (hnew : ∀ c ∈ cells, c ∉ seen) :
    readFrom g seen cell = (readFrom g (cells.reverse ++ seen) last).map (members ++ ·) := by
  induction h generalizing seen with
  | stop cell =>
    rw [List.reverse_nil, List.nil_append]
    cases readFrom g seen cell <;> rfl
  | @pass cell member next last cells members hcell hfirst hrest _ ih =>
    obtain ⟨hmem, hnodup⟩ := List.nodup_cons.1 hnodup
    obtain ⟨hseen, hnew⟩ := List.forall_mem_cons.1 hnew
    have hnext : ∀ c ∈ cells, c ∉ cell :: seen := by
      intro c hc hs
      rcases List.mem_cons.1 hs with rfl | hs
      · exact hmem hc
      · exact hnew c hc hs
    rw [readFrom_links hcell hseen hfirst hrest, ih hnodup hnext, List.reverse_cons,
      List.append_assoc, List.singleton_append]
    cases readFrom g (cells.reverse ++ cell :: seen) last <;> rfl

/-- What reading answers at a cell that is not passed. -/
inductive Ending (g : Graph) (seen : List Term) : Term → Except Failure (List Term) → Prop where
  | nil : Ending g seen (.iri Rdf.nil) (.ok [])
  | fault {cell : Term} {fault : Fault} : cell ≠ .iri Rdf.nil → Faulty g seen cell fault →
      Ending g seen cell (.error (malformed cell fault))

theorem readFrom_of_ending {r : Except Failure (List Term)} (h : Ending g seen cell r) :
    readFrom g seen cell = r := by
  cases h with
  | nil => exact readFrom_nil g seen
  | fault hcell hfault => exact readFrom_of_faulty hcell hfault

/-- The cell is the first of a chain of new cells that comes to an end. -/
def Stops (g : Graph) (seen : List Term) (cell : Term) : Prop :=
  ∃ cells members last r, cells.Nodup ∧ (∀ c ∈ cells, c ∉ seen) ∧
    Chain g cell cells members last ∧ Ending g (cells.reverse ++ seen) last r

theorem Stops.of_faulty (hcell : cell ≠ .iri Rdf.nil) (h : Faulty g seen cell fault) :
    Stops g seen cell :=
  ⟨[], [], cell, _, List.nodup_nil, List.forall_mem_nil _, .stop cell, .fault hcell h⟩

theorem Stops.pass {member next : Term} (hcell : cell ≠ .iri Rdf.nil) (hseen : cell ∉ seen)
    (hfirst : g.objects cell Rdf.first = [member]) (hrest : g.objects cell Rdf.rest = [next])
    (h : Stops g (cell :: seen) next) : Stops g seen cell := by
  obtain ⟨cells, members, last, r, hnodup, hnew, hchain, hend⟩ := h
  refine ⟨cell :: cells, member :: members, last, r, List.nodup_cons.2 ⟨?_, hnodup⟩, ?_,
    .pass hcell hfirst hrest hchain, ?_⟩
  · exact fun hc => hnew cell hc List.mem_cons_self
  · exact List.forall_mem_cons.2 ⟨hseen, fun c hc hs => hnew c hc (List.mem_cons_of_mem cell hs)⟩
  · rwa [List.reverse_cons, List.append_assoc, List.singleton_append]

/-- Every chain stops: it does so where reading does. -/
theorem stops (g : Graph) (seen : List Term) (cell : Term) : Stops g seen cell := by
  fun_induction readFrom g seen cell with
  | case1 seen =>
    exact ⟨[], [], _, _, List.nodup_nil, List.forall_mem_nil _, .stop _, .nil⟩
  | case2 seen cell hcell hs => exact .of_faulty hcell (.revisited hs)
  | case3 seen cell hcell hs member next hfirst hrest members _ ih =>
    exact .pass hcell hs hfirst hrest ih
  | case4 seen cell hcell hs member next hfirst hrest e _ ih =>
    exact .pass hcell hs hfirst hrest ih
  | case5 seen cell hcell hs hfirst => exact .of_faulty hcell (.missingFirst hs hfirst)
  | case6 seen cell hcell hs hrest hfirst => exact .of_faulty hcell (.missingRest hs hfirst hrest)
  | case7 seen cell hcell hs hfirst hrest hone =>
    exact .of_faulty hcell (.severalLinks hs hfirst hrest hone)

/-! ## reading from the head -/

variable {head : Term} {e : Failure}

theorem read_eq_ok_iff :
    read g head = .ok members ↔
      ∃ cells, cells.Nodup ∧ Chain g head cells members (.iri Rdf.nil) := by
  constructor
  · intro h
    obtain ⟨cells, members', last, r, hnodup, hnew, hchain, hend⟩ := stops g [] head
    rw [read, readFrom_of_chain hchain hnodup hnew, readFrom_of_ending hend] at h
    cases hend with
    | nil =>
      cases h
      exact ⟨cells, hnodup, by simpa using hchain⟩
    | fault => cases h
  · rintro ⟨cells, hnodup, hchain⟩
    rw [read, readFrom_of_chain hchain hnodup fun _ _ => List.not_mem_nil, readFrom_nil]
    simp [Except.map]

theorem read_eq_error_iff :
    read g head = .error e ↔
      ∃ cells members last fault, cells.Nodup ∧ Chain g head cells members last ∧
        last ≠ .iri Rdf.nil ∧ Faulty g cells last fault ∧ e = malformed last fault := by
  have hsame : ∀ cells : List Term, ∀ c, c ∈ cells.reverse ++ [] ↔ c ∈ cells := by simp
  constructor
  · intro h
    obtain ⟨cells, members, last, r, hnodup, hnew, hchain, hend⟩ := stops g [] head
    rw [read, readFrom_of_chain hchain hnodup hnew, readFrom_of_ending hend] at h
    cases hend with
    | nil => cases h
    | @fault _ fault hlast hfault =>
      cases h
      exact ⟨cells, members, last, fault, hnodup, hchain, hlast, hfault.congr (hsame cells), rfl⟩
  · rintro ⟨cells, members, last, fault, hnodup, hchain, hlast, hfault, rfl⟩
    rw [read, readFrom_of_chain hchain hnodup fun _ _ => List.not_mem_nil,
      readFrom_of_faulty hlast (hfault.congr fun c => (hsame cells c).symm)]
    rfl

/-! ## written lists -/

def links (label : String) (member next : Term) : Graph :=
  [⟨.blank label, Rdf.first, member, none⟩, ⟨.blank label, Rdf.rest, next, none⟩]

theorem write_cons (label : String) (member : Term) (more : List (String × Term)) :
    write ((label, member) :: more) =
      (.blank label, links label member (write more).1 ++ (write more).2) := rfl

theorem subject_links {label : String} {member next : Term} :
    ∀ q ∈ links label member next, q.subject = .blank label := by
  simp [links]

theorem outgoing_links (label : String) (member next : Term) :
    (links label member next).outgoing (.blank label) = links label member next :=
  List.filter_eq_self.2 fun q hq => by simp [subject_links q hq, Resource.toTerm]

theorem subject_write {entries : List (String × Term)} :
    ∀ q ∈ (write entries).2, ∃ entry ∈ entries, q.subject = .blank entry.1 := by
  induction entries with
  | nil => exact List.forall_mem_nil _
  | cons entry more ih =>
    intro q hq
    rcases List.mem_append.1 (write_cons entry.1 entry.2 more ▸ hq) with hq | hq
    · exact ⟨entry, List.mem_cons_self, subject_links q hq⟩
    · obtain ⟨e, he, hsubject⟩ := ih q hq
      exact ⟨e, List.mem_cons_of_mem entry he, hsubject⟩

/-- In a graph that has the quads of a written list, and no others at its cells, these are a
chain. -/
theorem chain_write {entries : List (String × Term)} {others : Graph}
    (hlabels : (entries.map Prod.fst).Nodup)
    (hfresh : ∀ q ∈ others, ∀ entry ∈ entries, q.subject ≠ .blank entry.1)
    (hg : g.Perm ((write entries).2 ++ others)) :
    Chain g (write entries).1 (entries.map fun entry => .blank entry.1) (entries.map Prod.snd)
      (.iri Rdf.nil) := by
  induction entries generalizing others with
  | nil => exact .stop _
  | cons entry more ih =>
    obtain ⟨label, member⟩ := entry
    obtain ⟨hlabel, hlabels⟩ := List.nodup_cons.1 hlabels
    obtain ⟨hhead, hfresh⟩ : (∀ q ∈ others, q.subject ≠ .blank label) ∧
        ∀ q ∈ others, ∀ e ∈ more, q.subject ≠ .blank e.1 :=
      ⟨fun q hq => hfresh q hq _ List.mem_cons_self,
        fun q hq e he => hfresh q hq e (List.mem_cons_of_mem _ he)⟩
    have hmore : ∀ e ∈ more, Resource.blank label ≠ .blank e.1 := fun e he heq =>
      hlabel (List.mem_map.2 ⟨e, he, (Resource.blank.inj heq).symm⟩)
    rw [write_cons, List.append_assoc] at hg
    -- none of the other quads is at the cell
    have hnone : ∀ q ∈ (write more).2 ++ others, q.subject ≠ .blank label := by
      intro q hq
      rcases List.mem_append.1 hq with hq | hq
      · obtain ⟨e, he, hsubject⟩ := subject_write q hq
        exact hsubject ▸ (hmore e he).symm
      · exact hhead q hq
    have hout : (g.outgoing (.blank label)).Perm (links label member (write more).1) := by
      have hperm : (g.outgoing (.blank label)).Perm (Graph.outgoing
          (links label member (write more).1 ++ ((write more).2 ++ others)) (.blank label)) :=
        hg.filter _
      have hrest : Graph.outgoing ((write more).2 ++ others) (.blank label) = [] :=
        Graph.outgoing_eq_nil (r := .blank label) hnone
      rwa [Graph.outgoing_append, outgoing_links, hrest, List.append_nil] at hperm
    obtain ⟨hfirst, hrest⟩ := objects_of_cell hout
    refine .pass (by simp [write_cons]) hfirst hrest
      (ih hlabels ?_ (hg.trans (List.perm_append_comm_assoc _ _ _)))
    intro q hq e he
    rcases List.mem_append.1 hq with hq | hq
    · exact subject_links q hq ▸ hmore e he
    · exact hfresh q hq e he

/-! ## the members of a list -/

theorem members_eq_ok_iff {view : View} {items : List View} :
    view.members = .ok items ↔
      ∃ members, read view.graph view.focus = .ok members ∧ items = members.map view.refocus := by
  unfold View.members
  cases read view.graph view.focus <;> simp [eq_comm]

theorem members_eq_error_iff {view : View} :
    view.members = .error e ↔ read view.graph view.focus = .error e := by
  unfold View.members
  cases read view.graph view.focus <;> simp

/-- A list is read exactly if different cells lead from its head to `rdf:nil`; the members are seen
in the same graph. Otherwise reading fails at the first cell that has been met or has not one link
of each kind. Whatever is written into cells of its own, among other quads in any order, is read. -/
theorem members_spec (view : View) :
    (∀ items, view.members = .ok items ↔
      ∃ cells members, cells.Nodup ∧ Chain view.graph view.focus cells members (.iri Rdf.nil) ∧
        items = members.map view.refocus) ∧
    (∀ e, view.members = .error e ↔
      ∃ cells members last fault, cells.Nodup ∧ Chain view.graph view.focus cells members last ∧
        last ≠ .iri Rdf.nil ∧ Faulty view.graph cells last fault ∧
        e = .malformedList last.toText fault.reason) ∧
    ∀ (entries : List (String × Term)) (others : Graph), (entries.map Prod.fst).Nodup →
      (∀ q ∈ others, ∀ entry ∈ entries, q.subject ≠ .blank entry.1) →
      view.graph.Perm ((write entries).2 ++ others) → view.focus = (write entries).1 →
      view.members = .ok (entries.map fun entry => view.refocus entry.2) := by
  refine ⟨fun items => ?_, fun e => members_eq_error_iff.trans read_eq_error_iff, ?_⟩
  · rw [members_eq_ok_iff]
    constructor
    · rintro ⟨members, hread, rfl⟩
      obtain ⟨cells, hnodup, hchain⟩ := read_eq_ok_iff.1 hread
      exact ⟨cells, members, hnodup, hchain, rfl⟩
    · rintro ⟨cells, members, hnodup, hchain, rfl⟩
      exact ⟨members, read_eq_ok_iff.2 ⟨cells, hnodup, hchain⟩, rfl⟩
  · intro entries others hlabels hfresh hg hfocus
    have hchain := chain_write hlabels hfresh hg
    rw [← hfocus] at hchain
    have hcells : (entries.map fun entry => Term.blank entry.1).Nodup := by
      have hblank : ((entries.map Prod.fst).map Term.blank).Nodup :=
        List.Pairwise.map Term.blank (fun _ _ hne heq => hne (Term.blank.inj heq)) hlabels
      rwa [List.map_map] at hblank
    refine members_eq_ok_iff.2 ⟨_, read_eq_ok_iff.2 ⟨_, hcells, hchain⟩, ?_⟩
    rw [List.map_map]
    rfl

/-- Two members with the labels of their cells, the first one being the second cell. -/
def chained : List (String × Term) := [("x", .blank "y"), ("y", .literal (.simple "1"))]

def referrer : Graph := [⟨.iri ⟨"a"⟩, ⟨"next"⟩, .blank "x", none⟩]

/-- The quads of the written list in another order, with the other quad in between. -/
def scattered : Graph :=
  [⟨.blank "y", Rdf.rest, .iri Rdf.nil, none⟩, ⟨.blank "x", Rdf.first, .blank "y", none⟩,
    ⟨.iri ⟨"a"⟩, ⟨"next"⟩, .blank "x", none⟩, ⟨.blank "y", Rdf.first, .literal (.simple "1"), none⟩,
    ⟨.blank "x", Rdf.rest, .blank "y", none⟩]

/-- A chain that comes back to its second cell. -/
def looped : Graph :=
  [⟨.blank "x", Rdf.first, .iri ⟨"a"⟩, none⟩, ⟨.blank "x", Rdf.rest, .blank "y", none⟩,
    ⟨.blank "y", Rdf.first, .iri ⟨"b"⟩, none⟩, ⟨.blank "y", Rdf.rest, .blank "y", none⟩]

/-- The list that was written is read, and the chain that comes back is not. -/
theorem members_spec_scattered :
    (chained.map Prod.fst).Nodup ∧
    (∀ q ∈ referrer, ∀ entry ∈ chained, q.subject ≠ .blank entry.1) ∧
    scattered.Perm ((write chained).2 ++ referrer) ∧
    View.members ⟨.blank "x", scattered⟩ =
      .ok [⟨.blank "y", scattered⟩, ⟨.literal (.simple "1"), scattered⟩] ∧
    View.members ⟨.blank "x", looped⟩ =
      .error (.malformedList (Term.blank "y").toText Fault.revisited.reason) := by
  have hlabels : (chained.map Prod.fst).Nodup := by decide
  have hfresh : ∀ q ∈ referrer, ∀ entry ∈ chained, q.subject ≠ .blank entry.1 := by decide
  have hperm : scattered.Perm ((write chained).2 ++ referrer) := by decide
  have hchain : Chain looped (.blank "x") [.blank "x", .blank "y"] [.iri ⟨"a"⟩, .iri ⟨"b"⟩]
      (.blank "y") :=
    .pass (by decide) rfl rfl (.pass (by decide) rfl rfl (.stop _))
  exact ⟨hlabels, hfresh, hperm,
    (members_spec ⟨.blank "x", scattered⟩).2.2 chained referrer hlabels hfresh hperm rfl,
    ((members_spec ⟨.blank "x", looped⟩).2.1 _).2
      ⟨_, _, _, .revisited, by decide, hchain, by decide, .revisited (by decide), rfl⟩⟩

end Collection
end ShaclExtract
