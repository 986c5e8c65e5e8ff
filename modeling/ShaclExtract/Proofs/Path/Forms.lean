import ShaclExtract.Proofs.Path.SelfReference

/-!
# ShaclExtract.Proofs.Path.Forms

Which form a node is read as, and which failure is reported.

At the head of a list, the failure of the list or of its first member that fails is reported. Below
`sh:alternativePath` it never is: every node is read as if the alternative were not there, and the
node itself fails only as a node of no form (`Path.read_of_broken_alternative`).
-/

namespace ShaclExtract

/-! ## graphs without one predicate of one node -/

namespace Graph

variable {node x : Term} {p i : Iri}

def without (g : Graph) (node : Term) (predicate : Iri) : Graph :=
  g.filter fun q => ¬ (q.subject.toTerm = node ∧ q.predicate = predicate)

theorem objects_without_self (g : Graph) (node : Term) (p : Iri) :
    (g.without node p).objects node p = [] := by
  refine List.eq_nil_iff_forall_not_mem.2 fun o ho => ?_
  obtain ⟨q, hq, hsubject, hpredicate, -⟩ := mem_objects.1 ho
  simpa [hsubject, hpredicate] using (List.mem_filter.1 hq).2

theorem objects_without (g : Graph) (h : x ≠ node ∨ i ≠ p) :
    (g.without node p).objects x i = g.objects x i := by
  simp only [objects, outgoing, without, List.filter_filter]
  refine congrArg (List.map Quad.object) (List.filter_congr fun q _ => ?_)
  by_cases hx : q.subject.toTerm = x <;> by_cases hi : q.predicate = i <;> simp [hx, hi]
  exact h

theorem object?_without (g : Graph) (h : x ≠ node ∨ i ≠ p) :
    (g.without node p).object? x i = g.object? x i := by
  rw [object?, objects_without g h, object?]

theorem object?_without_self (g : Graph) (node : Term) (p : Iri) :
    (g.without node p).object? node p = none := by
  rw [object?, objects_without_self, List.head?_nil]

end Graph

namespace Collection

/-- Of the graph, a list is read by the links of the cells only. -/
theorem readFrom_congr {g g' : Graph} (hfirst : ∀ c, g'.objects c Rdf.first = g.objects c Rdf.first)
    (hrest : ∀ c, g'.objects c Rdf.rest = g.objects c Rdf.rest) (seen : List Term) (cell : Term) :
    readFrom g' seen cell = readFrom g seen cell := by
  fun_induction readFrom g seen cell with
  | case1 seen => exact readFrom_nil g' seen
  | case2 seen cell hcell hs => exact readFrom_of_faulty hcell (.revisited hs)
  | case3 seen cell hcell hs member next hf hr members hmembers ih =>
    rw [readFrom_links hcell hs ((hfirst cell).trans hf) ((hrest cell).trans hr), ih,
      hmembers]
    rfl
  | case4 seen cell hcell hs member next hf hr e he ih =>
    rw [readFrom_links hcell hs ((hfirst cell).trans hf) ((hrest cell).trans hr), ih, he]
    rfl
  | case5 seen cell hcell hs hf =>
    exact readFrom_of_faulty hcell (.missingFirst hs ((hfirst cell).trans hf))
  | case6 seen cell hcell hs hr hf =>
    refine readFrom_of_faulty hcell (.missingRest hs ?_ ((hrest cell).trans hr))
    rwa [hfirst]
  | case7 seen cell hcell hs hf hr hone =>
    refine readFrom_of_faulty hcell (.severalLinks hs ?_ ?_ ?_)
    · rwa [hfirst]
    · rwa [hrest]
    · rwa [hfirst, hrest]

end Collection

namespace Path

variable {child : Reader} {g : Graph} {node head x : Term} {e : Failure}

/-! ## failures of lists -/

theorem readEach_eq_error_iff {nodes : List Term} :
    readEach child nodes = some (.error e) ↔
      ∃ x, ReadUpTo child nodes x ∧ child x = some (.error e) := by
  refine eq_error_iff_readUpTo nofun fun y nodes => ?_
  rw [readEach]
  rcases child y with _ | e' | p
  · simp
  · simp
  · rcases readEach child nodes with _ | e' | ps <;> simp

theorem built_eq_error_iff {α : Type} {f : α → Path} {r : Option (Except Failure α)} :
    built f r = some (.error e) ↔ r = some (.error e) := by
  rcases r with _ | e' | a <;> simp [built]

theorem readMembers_eq_error_iff :
    readMembers child g head = some (.error e) ↔ Collection.read g head = .error e ∨
      ∃ x, NextMember child g head x ∧ child x = some (.error e) := by
  unfold readMembers NextMember
  cases Collection.read g head with
  | error e' => simp
  | ok nodes => simp [readEach_eq_error_iff]

/-- The failure of the list at a node, or of the first of its members that fails. -/
def BrokenList (g : Graph) (head : Term) (e : Failure) : Prop :=
  Collection.read g head = .error e ∨
    ∃ x, NextMember (read g) g head x ∧ read g x = some (.error e)

/-! ## failures of other nodes -/

theorem readPredicate_eq_error_iff :
    readPredicate node = .error e ↔ (∀ i, node ≠ .iri i) ∧ e = .invalidPath node.toText := by
  cases node <;> simp [readPredicate, eq_comm]

/-- The failures of the other forms are dropped. -/
theorem readForm_eq_error (h : readForm child g node = some (.error e)) :
    readPredicate node = .error e := by
  unfold readForm at h
  split at h
  · split at h
    · split at h
      · exact Option.some.inj h
      · rename_i hno
        exact absurd h (hno e)
    · rename_i hno
      exact absurd h (hno e)
  · rename_i hno
    exact absurd h (hno e)

/-- The node has a failure of its own: it is the head of a malformed list, or has no form. -/
inductive FailsAt (g : Graph) (node : Term) : Failure → Prop where
  | list {e : Failure} : Collection.read g node = .error e → FailsAt g node e
  | form : (∀ i, node ≠ .iri i) → FailsAt g node (.invalidPath node.toText)

theorem failsAt_or_nextMember (h : readLevel child g node = some (.error e)) :
    FailsAt g node e ∨ Collection.isHead g node = true ∧
      ∃ x, NextMember child g node x ∧ child x = some (.error e) := by
  unfold readLevel at h
  split at h
  · rename_i hlist
    rw [built_eq_error_iff, readMembers_eq_error_iff] at h
    exact h.imp .list fun hx => ⟨hlist, hx⟩
  · obtain ⟨hform, rfl⟩ := readPredicate_eq_error_iff.1 (readForm_eq_error h)
    exact .inl (.form hform)

theorem NextMember.refined {child' : Reader} (h : NextMember child g head x)
    (hchild : ∀ y, Refined (child y) (child' y)) : NextMember child' g head x := by
  obtain ⟨nodes, hnodes, before, after, heq, hbefore⟩ := h
  exact ⟨nodes, hnodes, before, after, heq, fun y hy =>
    (hbefore y hy).imp fun p hp => hchild y _ hp⟩

/-- Every failure that is reported is one that a node has of its own. -/
theorem exists_failsAt (h : read g node = some (.error e)) :
    ∃ x, Relation.ReflTransGen (Awaits g) node x ∧ FailsAt g x e := by
  have hwithin : ∀ depth node, readWithin g depth node = some (.error e) →
      ∃ x, Relation.ReflTransGen (Awaits g) node x ∧ FailsAt g x e := by
    intro depth
    induction depth with
    | zero =>
      intro node h
      cases h
    | succ depth ih =>
      intro node h
      rcases failsAt_or_nextMember h with hnode | ⟨hlist, x, hx, herror⟩
      · exact ⟨node, .refl, hnode⟩
      · obtain ⟨y, hxy, hy⟩ := ih x herror
        exact ⟨y, .head (.sequence hlist (hx.refined (refined_read g depth))) hxy, hy⟩
  exact hwithin _ node h

/-! ## an alternative that fails -/

theorem isHead_without (g : Graph) (node x : Term) :
    Collection.isHead (g.without node Sh.alternativePath) x = Collection.isHead g x := by
  rw [Collection.isHead, Graph.object?_without g (.inr (by decide)), Collection.isHead]

theorem readMembers_without (child : Reader) (g : Graph) (node head : Term) :
    readMembers child (g.without node Sh.alternativePath) head = readMembers child g head := by
  have hread : Collection.read (g.without node Sh.alternativePath) head = Collection.read g head :=
    Collection.readFrom_congr (fun c => Graph.objects_without g (.inr (by decide)))
      (fun c => Graph.objects_without g (.inr (by decide))) [] head
  rw [readMembers, hread, readMembers]

theorem readInverse_without (child : Reader) (g : Graph) (node x : Term) :
    readInverse child (g.without node Sh.alternativePath) x = readInverse child g x := by
  rw [readInverse, Graph.object?_without g (.inr (by decide)), readInverse]

theorem readRepetition_without (child : Reader) (g : Graph) (node x : Term) :
    readRepetition child (g.without node Sh.alternativePath) x = readRepetition child g x := by
  unfold readRepetition
  rw [Graph.object?_without g (.inr (by decide)), Graph.object?_without g (.inr (by decide)),
    Graph.object?_without g (.inr (by decide))]

theorem readAlternative_without (child : Reader) (g : Graph) (hx : x ≠ node) :
    readAlternative child (g.without node Sh.alternativePath) x = readAlternative child g x := by
  unfold readAlternative
  rw [Graph.object?_without g (.inl hx)]
  cases g.object? x Sh.alternativePath with
  | none => rfl
  | some head => simp only [readMembers_without]

theorem readLevel_without (child : Reader) (g : Graph) (node : Term) (hnode : x = node →
      Collection.isHead g node = false → Fails (readAlternative child g node)) :
    readLevel child (g.without node Sh.alternativePath) x = readLevel child g x := by
  simp only [readLevel, isHead_without, readMembers_without]
  cases hlist : Collection.isHead g x with
  | true => rfl
  | false =>
    simp only [Bool.false_eq_true, if_false, readForm, readInverse_without, readRepetition_without]
    by_cases hx : x = node
    · subst hx
      obtain ⟨e, he⟩ := hnode rfl hlist
      rw [he, readAlternative, Graph.object?_without_self]
    · rw [readAlternative_without child g hx]

theorem refined_read_of_without (halt : Fails (readAlternative (read g) g node)) (depth : Nat)
    (x : Term) :
    Refined (readWithin (g.without node Sh.alternativePath) depth x) (read g x) := by
  induction depth generalizing x with
  | zero => exact .none_left _
  | succ depth ih =>
    intro r hr
    have hlevel := refined_readLevel x (fun y _ => ih y) r hr
    rwa [readLevel_without _ g node fun _ _ => halt, ← read_eq_readLevel] at hlevel

theorem fails_of_readLevel {depth : Nat} {r : Except Failure Path}
    (hlist : Collection.isHead g node = false) (halt : Fails (readAlternative (read g) g node))
    (h : readLevel (readWithin g depth) g node = some r) :
    Fails (readAlternative (readWithin g depth) g node) := by
  obtain ⟨e, he⟩ := halt
  rw [readLevel, hlist, if_neg Bool.false_ne_true] at h
  rcases ha : readAlternative (readWithin g depth) g node with _ | s
  · simp [readForm, ha] at h
  · have hs := refined_readAlternative node (fun y _ => refined_read g depth y) s ha
    exact ⟨e, hs.symm.trans he⟩

theorem refined_without_of_read (hlist : Collection.isHead g node = false)
    (halt : Fails (readAlternative (read g) g node)) (depth : Nat) (x : Term) :
    Refined (readWithin g depth x) (read (g.without node Sh.alternativePath) x) := by
  induction depth generalizing x with
  | zero => exact .none_left _
  | succ depth ih =>
    intro r hr
    have hr : readLevel (readWithin g depth) g x = some r := hr
    rw [← readLevel_without _ g node] at hr
    · rw [read_eq_readLevel]
      exact refined_readLevel x (fun y _ => ih y) r hr
    · rintro rfl -
      exact fails_of_readLevel hlist halt hr

/-- Every node is read as if an alternative that fails were not there. -/
theorem read_without (hlist : Collection.isHead g node = false)
    (halt : Fails (readAlternative (read g) g node)) (x : Term) :
    read g x = read (g.without node Sh.alternativePath) x :=
  (refined_without_of_read hlist halt _ x).antisymm (refined_read_of_without halt _ x)

theorem fails_of_brokenList (hhead : g.object? node Sh.alternativePath = some head)
    (h : BrokenList g head e) : Fails (readAlternative (read g) g node) := by
  refine ⟨e, ?_⟩
  simp only [readAlternative, hhead]
  exact built_eq_error_iff.2 (readMembers_eq_error_iff.2 h)

/-- Blank nodes are told from other nodes that are no IRIs by how they are written. -/
theorem eq_of_toText_eq {x y : Term} {b : String} (hx : x = .blank b) (hy : ∀ i, y ≠ .iri i)
    (h : y.toText = x.toText) : y = x := by
  subst hx
  have h := congrArg String.toList h
  cases y with
  | iri i => exact absurd rfl (hy i)
  | blank b' => simpa [Term.toText, String.toList_inj] using h
  | literal l =>
    rcases l with ⟨lexical, d | tag⟩
    · simp only [Term.toText, Literal.toText] at h
      split at h <;> simp [Text.quote] at h
    · simp [Term.toText, Literal.toText, Text.quote] at h

/-- A node that is no list fails as a node of no form only. -/
theorem read_form_error (hlist : Collection.isHead g node = false)
    (h : read g node = some (.error e)) :
    (∀ i, node ≠ .iri i) ∧ e = .invalidPath node.toText := by
  rw [read_eq_readLevel, readLevel, hlist, if_neg Bool.false_ne_true] at h
  exact readPredicate_eq_error_iff.1 (readForm_eq_error h)

theorem ne_of_malformed (h : Collection.read g head = .error e) (text : String) :
    e ≠ .invalidPath text := by
  obtain ⟨_, _, _, _, _, _, _, _, rfl⟩ := Collection.read_eq_error_iff.1 h
  simp [Collection.malformed]

theorem blank_of_object? {i : Iri} (h : g.object? node i = some x) (hnode : ∀ i, node ≠ .iri i) :
    ∃ b, node = .blank b := by
  obtain ⟨q, -, hq, -⟩ := Graph.mem_objects.1 (List.mem_of_mem_head? h)
  cases hs : q.subject with
  | iri i =>
    rw [hs] at hq
    exact absurd hq.symm (hnode i)
  | blank b =>
    rw [hs] at hq
    exact ⟨b, hq.symm⟩

/-- The failure of a list below `sh:alternativePath`, or of a member, is not reported. -/
theorem read_ne_of_brokenList (hlist : Collection.isHead g node = false)
    (hhead : g.object? node Sh.alternativePath = some head) (hbroken : BrokenList g head e) :
    read g node ≠ some (.error e) := by
  intro h
  obtain ⟨hnode, rfl⟩ := read_form_error hlist h
  rcases hbroken with hmalformed | ⟨x, hx, herror⟩
  · exact absurd rfl (ne_of_malformed hmalformed _)
  · obtain ⟨y, hxy, hy⟩ := exists_failsAt herror
    generalize he : Failure.invalidPath node.toText = e at hy
    cases hy with
    | list hmalformed => exact ne_of_malformed hmalformed _ he.symm
    | form hy =>
      -- the node itself is what has failed, so it waits for itself
      obtain ⟨b, hb⟩ := blank_of_object? hhead hnode
      obtain rfl := eq_of_toText_eq hb hy (Failure.invalidPath.inj he).symm
      have hloop : Relation.TransGen (Awaits g) y y := .head' (.alternative hlist hhead hx) hxy
      exact (read_ends_iff g y).1 ⟨_, h⟩ ⟨y, .refl, hloop⟩

/-- Below `sh:alternativePath`, a list that fails is passed over: every node is read as if it were
not there, its failure is not the one that is reported, and none is reported for an IRI. -/
theorem read_of_broken_alternative (hlist : Collection.isHead g node = false)
    (hhead : g.object? node Sh.alternativePath = some head) (hbroken : BrokenList g head e) :
    (∀ x, read g x = read (g.without node Sh.alternativePath) x) ∧
      read g node ≠ some (.error e) ∧
      ∀ e', read g node = some (.error e') →
        (∀ i, node ≠ .iri i) ∧ e' = .invalidPath node.toText :=
  ⟨read_without hlist (fails_of_brokenList hhead hbroken),
    read_ne_of_brokenList hlist hhead hbroken, fun _ h => read_form_error hlist h⟩

/-- An inverse beside an alternative whose list has no end. -/
def brokenAlternative : Graph :=
  [⟨.iri ⟨"n"⟩, Sh.alternativePath, .blank "l", none⟩,
    ⟨.blank "l", Rdf.first, .iri ⟨"part"⟩, none⟩,
    ⟨.iri ⟨"n"⟩, Sh.inversePath, .iri ⟨"next"⟩, none⟩]

theorem read_of_broken_alternative_inverse :
    Collection.isHead brokenAlternative (.iri ⟨"n"⟩) = false ∧
      brokenAlternative.object? (.iri ⟨"n"⟩) Sh.alternativePath = some (.blank "l") ∧
      BrokenList brokenAlternative (.blank "l")
        (Collection.malformed (.blank "l") .missingRest) ∧
      read brokenAlternative (.iri ⟨"n"⟩) = some (.ok (.inverse (.predicate ⟨"next"⟩))) := by
  have hlist : Collection.isHead brokenAlternative (.iri ⟨"n"⟩) = false := by decide
  have hhead : brokenAlternative.object? (.iri ⟨"n"⟩) Sh.alternativePath = some (.blank "l") := by
    decide
  have hbroken : BrokenList brokenAlternative (.blank "l")
      (Collection.malformed (.blank "l") .missingRest) :=
    .inl (Collection.readFrom_of_faulty (by decide)
      (.missingRest (by decide) (by decide) (by decide)))
  obtain ⟨hread, -, -⟩ := read_of_broken_alternative hlist hhead hbroken
  exact ⟨hlist, hhead, hbroken, (hread _).trans (by rfl)⟩

/-- The same alternative, and no other form beside it. -/
def brokenAlternativeOnly : Graph :=
  [⟨.iri ⟨"n"⟩, Sh.alternativePath, .blank "l", none⟩,
    ⟨.blank "l", Rdf.first, .iri ⟨"part"⟩, none⟩]

/-- The list is malformed, and its node is read as a predicate. -/
theorem predicate_of_broken_alternative :
    Collection.isHead brokenAlternativeOnly (.iri ⟨"n"⟩) = false ∧
      brokenAlternativeOnly.object? (.iri ⟨"n"⟩) Sh.alternativePath = some (.blank "l") ∧
      Collection.read brokenAlternativeOnly (.blank "l") =
        .error (Collection.malformed (.blank "l") .missingRest) ∧
      read brokenAlternativeOnly (.iri ⟨"n"⟩) = some (.ok (.predicate ⟨"n"⟩)) := by
  have hlist : Collection.isHead brokenAlternativeOnly (.iri ⟨"n"⟩) = false := by decide
  have hhead : brokenAlternativeOnly.object? (.iri ⟨"n"⟩) Sh.alternativePath =
      some (.blank "l") := by decide
  have hmalformed : Collection.read brokenAlternativeOnly (.blank "l") =
      .error (Collection.malformed (.blank "l") .missingRest) :=
    Collection.readFrom_of_faulty (by decide) (.missingRest (by decide) (by decide) (by decide))
  exact ⟨hlist, hhead, hmalformed,
    (read_without hlist (fails_of_brokenList hhead (.inl hmalformed)) _).trans (by rfl)⟩

end Path
end ShaclExtract
