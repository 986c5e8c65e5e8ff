import Mathlib.Data.Finset.Card
import Mathlib.Data.Set.Finite.List
import Mathlib.Logic.Relation
import Mathlib.Order.WellFoundedSet
import ShaclExtract.Path.Reading
import ShaclExtract.Proofs.Rdf.Collection

/-!
# ShaclExtract.Proofs.Path.SelfReference

When the reading of a path description ends.

* `ReadUpTo` — the node that is read next, with all nodes before it read.
* `Path.readLevel` — one level of a description, given how its parts are read.
* `Path.Awaited` — the parts that a level waits for, one case for each place of a part.
* `Path.Refined` — an answer that is kept once it is there.

Deeper reading only adds answers, and after as many levels as the graph has terms it adds none
(`read_eq_readLevel`). Reading therefore ends exactly when no description that it waits for waits
for itself (`read_ends_iff`).
-/

namespace ShaclExtract

theorem Graph.mem_terms_of_object? {g : Graph} {node o : Term} {p : Iri}
    (h : g.object? node p = some o) : o ∈ g.terms := by
  obtain ⟨q, hq, -, -, rfl⟩ := mem_objects.1 (List.mem_of_mem_head? h)
  exact object_mem_terms hq

/-! ## nodes that are read one after the other -/

section reading

variable {α β : Type} {read : Term → Option (Except Failure α)} {nodes : List Term} {x y : Term}

/-- All nodes before `x` are read, so `x` is the next one. -/
def ReadUpTo {α : Type} (read : Term → Option (Except Failure α)) (nodes : List Term)
    (x : Term) : Prop :=
  ∃ before after, nodes = before ++ x :: after ∧ ∀ y ∈ before, ∃ a, read y = some (.ok a)

theorem readUpTo_cons : ReadUpTo read (y :: nodes) x ↔
    x = y ∨ (∃ a, read y = some (.ok a)) ∧ ReadUpTo read nodes x := by
  constructor
  · rintro ⟨before, after, heq, hbefore⟩
    cases before with
    | nil => exact .inl (List.cons.inj heq).1.symm
    | cons z before =>
      obtain ⟨rfl, rfl⟩ := List.cons.inj heq
      obtain ⟨hy, hbefore⟩ := List.forall_mem_cons.1 hbefore
      exact .inr ⟨hy, before, after, rfl, hbefore⟩
  · rintro (rfl | ⟨hy, before, after, rfl, hbefore⟩)
    · exact ⟨[], nodes, rfl, List.forall_mem_nil _⟩
    · exact ⟨y :: before, after, rfl, List.forall_mem_cons.2 ⟨hy, hbefore⟩⟩

theorem ReadUpTo.mem (h : ReadUpTo read nodes x) : x ∈ nodes := by
  obtain ⟨before, after, rfl, -⟩ := h
  simp

/-- What stops at the first node that cannot be read reports the failure of that node. -/
theorem eq_error_iff_readUpTo {each : List Term → Option (Except Failure β)} {e : Failure}
    (hnil : each [] ≠ some (.error e))
    (hcons : ∀ y nodes, each (y :: nodes) = some (.error e) ↔ read y = some (.error e) ∨
      (∃ a, read y = some (.ok a)) ∧ each nodes = some (.error e)) :
    each nodes = some (.error e) ↔ ∃ x, ReadUpTo read nodes x ∧ read x = some (.error e) := by
  induction nodes with
  | nil => exact iff_of_false hnil fun ⟨_, hx, _⟩ => absurd hx.mem List.not_mem_nil
  | cons y nodes ih =>
    simp only [readUpTo_cons, or_and_right, exists_or, exists_eq_left, and_assoc, exists_and_left,
      ← ih]
    exact hcons y nodes

end reading

namespace Path

abbrev Reader := Term → Option (Except Failure Path)

/-! ## answers that are kept -/

/-- What the first has answered, the second answers too. -/
def Refined {α : Type} (x y : Option α) : Prop := ∀ r, x = some r → y = some r

theorem Refined.refl {α : Type} (x : Option α) : Refined x x := fun _ h => h

theorem Refined.none_left {α : Type} (y : Option α) : Refined none y := by
  intro r h
  cases h

theorem Refined.antisymm {α : Type} {x y : Option α} (h : Refined x y) (h' : Refined y x) :
    x = y := by
  cases x with
  | some r => exact (h r rfl).symm
  | none =>
    cases y with
    | none => rfl
    | some r => exact h' r rfl

variable {child child' : Reader} {g : Graph} {node x : Term}

theorem refined_built {α : Type} (f : α → Path) {x y : Option (Except Failure α)}
    (h : Refined x y) : Refined (built f x) (built f y) := by
  cases x with
  | none => exact .none_left _
  | some r => rw [h r rfl]; exact .refl _

theorem built_eq_none {α : Type} {f : α → Path} {x : Option (Except Failure α)} :
    built f x = none ↔ x = none := by
  rcases x with _ | e | p <;> simp [built]

/-! ## members of a list, one after the other -/

theorem refined_readEach {nodes : List Term} (h : ∀ y ∈ nodes, Refined (child y) (child' y)) :
    Refined (readEach child nodes) (readEach child' nodes) := by
  induction nodes with
  | nil => exact .refl _
  | cons y nodes ih =>
    have hy := h y List.mem_cons_self
    have hrest := ih fun z hz => h z (List.mem_cons_of_mem _ hz)
    unfold readEach
    rcases hc : child y with _ | e | p
    · exact .none_left _
    · rw [hy _ hc]
      exact .refl _
    · rw [hy _ hc]
      cases hr : readEach child nodes with
      | none => exact .none_left _
      | some r => rw [hrest r hr]; exact .refl _

theorem exists_readUpTo_of_none {nodes : List Term} (h : readEach child nodes = none) :
    ∃ x, ReadUpTo child nodes x ∧ child x = none := by
  induction nodes with
  | nil => cases h
  | cons y nodes ih =>
    unfold readEach at h
    split at h
    · rename_i hy
      exact ⟨y, readUpTo_cons.2 (.inl rfl), hy⟩
    · cases h
    · rename_i p hy
      split at h
      · rename_i hrest
        obtain ⟨x, hx, hnone⟩ := ih hrest
        exact ⟨x, readUpTo_cons.2 (.inr ⟨⟨p, hy⟩, hx⟩), hnone⟩
      · cases h
      · cases h

theorem readUpTo_ends {nodes : List Term} (hx : ReadUpTo child' nodes x)
    (hchild : ∀ y ∈ nodes, Refined (child y) (child' y)) (h : readEach child nodes ≠ none) :
    child x ≠ none := by
  induction nodes with
  | nil => exact absurd hx.mem List.not_mem_nil
  | cons y nodes ih =>
    obtain rfl | ⟨⟨p, hp⟩, hx⟩ := readUpTo_cons.1 hx
    · intro hnone
      simp [readEach, hnone] at h
    · refine ih hx (fun z hz => hchild z (List.mem_cons_of_mem _ hz)) fun hrest => ?_
      rcases hy : child y with _ | e | p'
      · simp [readEach, hy] at h
      · -- the refined answer is the path, so this one is no failure
        cases hp.symm.trans (hchild y List.mem_cons_self _ hy)
      · simp [readEach, hy, hrest] at h

theorem refined_readMembers (head : Term) (h : ∀ y ∈ g.terms, Refined (child y) (child' y)) :
    Refined (readMembers child g head) (readMembers child' g head) := by
  unfold readMembers
  cases hr : Collection.read g head with
  | error e => exact .refl _
  | ok nodes => exact refined_readEach fun y hy => h y (Collection.read_subset hr hy)

/-- The members of the list at a node, if there is one, up to the one that is being read. -/
def NextMember (child : Reader) (g : Graph) (head x : Term) : Prop :=
  ∃ nodes, Collection.read g head = .ok nodes ∧ ReadUpTo child nodes x

theorem NextMember.mem_terms {head : Term} (h : NextMember child g head x) : x ∈ g.terms := by
  obtain ⟨nodes, hnodes, hx⟩ := h
  exact Collection.read_subset hnodes hx.mem

theorem exists_nextMember_of_none {head : Term} (h : readMembers child g head = none) :
    ∃ x, NextMember child g head x ∧ child x = none := by
  unfold readMembers at h
  split at h
  · cases h
  · rename_i nodes hnodes
    obtain ⟨x, hx, hnone⟩ := exists_readUpTo_of_none h
    exact ⟨x, ⟨nodes, hnodes, hx⟩, hnone⟩

theorem nextMember_ends {head : Term} (hchild : ∀ y ∈ g.terms, Refined (child y) (child' y))
    (h : readMembers child g head ≠ none) (hx : NextMember child' g head x) : child x ≠ none := by
  obtain ⟨nodes, hnodes, hx⟩ := hx
  simp only [readMembers, hnodes] at h
  exact readUpTo_ends hx (fun y hy => hchild y (Collection.read_subset hnodes hy)) h

/-! ## the forms of a node -/

theorem refined_readAlternative (node : Term) (h : ∀ y ∈ g.terms, Refined (child y) (child' y)) :
    Refined (readAlternative child g node) (readAlternative child' g node) := by
  unfold readAlternative
  split
  · exact .refl _
  · exact refined_built _ (refined_readMembers _ h)

theorem refined_readInverse (node : Term) (h : ∀ y ∈ g.terms, Refined (child y) (child' y)) :
    Refined (readInverse child g node) (readInverse child' g node) := by
  unfold readInverse
  split
  · exact .refl _
  · rename_i inner hinner
    exact refined_built _ (h inner (Graph.mem_terms_of_object? hinner))

/-- The node below a repetition, and which of the three it is. -/
inductive Repeated (g : Graph) (node x : Term) : Prop
  | zeroOrMore (hx : g.object? node Sh.zeroOrMorePath = some x)
  | oneOrMore (hmore : g.object? node Sh.zeroOrMorePath = none)
      (hx : g.object? node Sh.oneOrMorePath = some x)
  | zeroOrOne (hmore : g.object? node Sh.zeroOrMorePath = none)
      (hone : g.object? node Sh.oneOrMorePath = none)
      (hx : g.object? node Sh.zeroOrOnePath = some x)

theorem Repeated.mem_terms (h : Repeated g node x) : x ∈ g.terms := by
  cases h with
  | zeroOrMore hx => exact Graph.mem_terms_of_object? hx
  | oneOrMore _ hx => exact Graph.mem_terms_of_object? hx
  | zeroOrOne _ _ hx => exact Graph.mem_terms_of_object? hx

theorem readRepetition_cases (g : Graph) (node : Term) :
    (∃ x f, Repeated g node x ∧ ∀ child, readRepetition child g node = built f (child x)) ∨
      ((∀ x, ¬ Repeated g node x) ∧
        ∀ child, readRepetition child g node = some (.error (notA "a repetition" node))) := by
  cases hmore : g.object? node Sh.zeroOrMorePath with
  | some x =>
    exact .inl ⟨x, .zeroOrMore, .zeroOrMore hmore,
      fun child => by simp only [readRepetition, hmore]⟩
  | none =>
    cases hone : g.object? node Sh.oneOrMorePath with
    | some x =>
      exact .inl ⟨x, .oneOrMore, .oneOrMore hmore hone,
        fun child => by simp only [readRepetition, hmore, hone]⟩
    | none =>
      cases hopt : g.object? node Sh.zeroOrOnePath with
      | some x =>
        exact .inl ⟨x, .zeroOrOne, .zeroOrOne hmore hone hopt,
          fun child => by simp only [readRepetition, hmore, hone, hopt]⟩
      | none =>
        refine .inr ⟨?_, fun child => by simp only [readRepetition, hmore, hone, hopt]⟩
        rintro x (hx | ⟨-, hx⟩ | ⟨-, -, hx⟩)
        · cases hmore.symm.trans hx
        · cases hone.symm.trans hx
        · cases hopt.symm.trans hx

theorem Repeated.eq {x y : Term} (hx : Repeated g node x) (hy : Repeated g node y) : x = y := by
  cases hx <;> cases hy <;> simp_all

theorem refined_readRepetition (node : Term) (h : ∀ y ∈ g.terms, Refined (child y) (child' y)) :
    Refined (readRepetition child g node) (readRepetition child' g node) := by
  rcases readRepetition_cases g node with ⟨x, f, hx, heq⟩ | ⟨-, heq⟩
  · rw [heq, heq]
    exact refined_built f (h x hx.mem_terms)
  · rw [heq, heq]
    exact .refl _

theorem refined_readForm (node : Term) (h : ∀ y ∈ g.terms, Refined (child y) (child' y)) :
    Refined (readForm child g node) (readForm child' g node) := by
  unfold readForm
  rcases halt : readAlternative child g node with _ | e | p
  · exact .none_left _
  · rw [refined_readAlternative node h _ halt]
    rcases hinv : readInverse child g node with _ | e | p
    · exact .none_left _
    · rw [refined_readInverse node h _ hinv]
      rcases hrep : readRepetition child g node with _ | e | p
      · exact .none_left _
      · rw [refined_readRepetition node h _ hrep]
        exact .refl _
      · rw [refined_readRepetition node h _ hrep]
        exact .refl _
    · rw [refined_readInverse node h _ hinv]
      exact .refl _
  · rw [refined_readAlternative node h _ halt]
    exact .refl _

/-! ## one level -/

/-- The description at a node, where its parts are read by the given reader. -/
def readLevel (child : Reader) (g : Graph) (node : Term) : Option (Except Failure Path) :=
  if Collection.isHead g node then built .sequence (readMembers child g node)
  else readForm child g node

theorem refined_readLevel (node : Term) (h : ∀ y ∈ g.terms, Refined (child y) (child' y)) :
    Refined (readLevel child g node) (readLevel child' g node) := by
  unfold readLevel
  split
  · exact refined_built _ (refined_readMembers node h)
  · exact refined_readForm node h

def Fails {α : Type} (r : Option (Except Failure α)) : Prop := ∃ e, r = some (.error e)

/-- The parts that the reading of a node waits for, where the reader answers for the parts before
them. -/
inductive Awaited (child : Reader) (g : Graph) (node x : Term) : Prop
  | sequence (hlist : Collection.isHead g node = true) (hx : NextMember child g node x)
  | alternative {head : Term} (hlist : Collection.isHead g node = false)
      (hhead : g.object? node Sh.alternativePath = some head) (hx : NextMember child g head x)
  | inverse (hlist : Collection.isHead g node = false)
      (halt : Fails (readAlternative child g node)) (hx : g.object? node Sh.inversePath = some x)
  | repetition (hlist : Collection.isHead g node = false)
      (halt : Fails (readAlternative child g node)) (hinv : Fails (readInverse child g node))
      (hx : Repeated g node x)

theorem Awaited.mem_terms (h : Awaited child g node x) : x ∈ g.terms := by
  cases h with
  | sequence _ hx => exact hx.mem_terms
  | alternative _ _ hx => exact hx.mem_terms
  | inverse _ _ hx => exact Graph.mem_terms_of_object? hx
  | repetition _ _ _ hx => exact hx.mem_terms

theorem exists_awaited_of_none (h : readLevel child g node = none) :
    ∃ x, Awaited child g node x ∧ child x = none := by
  unfold readLevel at h
  split at h
  · rename_i hlist
    obtain ⟨x, hx, hnone⟩ := exists_nextMember_of_none (built_eq_none.1 h)
    exact ⟨x, .sequence hlist hx, hnone⟩
  · rename_i hlist
    have hlist := Bool.eq_false_iff.2 hlist
    unfold readForm at h
    rcases halt : readAlternative child g node with _ | e | p
    · unfold readAlternative at halt
      split at halt
      · cases halt
      · rename_i head hhead
        obtain ⟨x, hx, hnone⟩ := exists_nextMember_of_none (built_eq_none.1 halt)
        exact ⟨x, .alternative hlist hhead hx, hnone⟩
    · rcases hinv : readInverse child g node with _ | e' | p
      · unfold readInverse at hinv
        split at hinv
        · cases hinv
        · rename_i inner hinner
          exact ⟨inner, .inverse hlist ⟨e, halt⟩ hinner, built_eq_none.1 hinv⟩
      · rcases readRepetition_cases g node with ⟨x, f, hx, heq⟩ | ⟨-, heq⟩
        · refine ⟨x, .repetition hlist ⟨e, halt⟩ ⟨e', hinv⟩ hx, ?_⟩
          rcases hchild : child x with _ | e | p
          · rfl
          · simp [halt, hinv, heq, hchild, built] at h
          · simp [halt, hinv, heq, hchild, built] at h
        · simp [halt, hinv, heq] at h
      · simp [halt, hinv] at h
    · simp [halt] at h

theorem awaited_ends (hchild : ∀ y ∈ g.terms, Refined (child y) (child' y))
    (h : readLevel child g node ≠ none) (hx : Awaited child' g node x) : child x ≠ none := by
  cases hx with
  | sequence hlist hx =>
    simp only [readLevel, hlist, if_true] at h
    exact nextMember_ends hchild (mt built_eq_none.2 h) hx
  | alternative hlist hhead hx =>
    simp only [readLevel, hlist, Bool.false_eq_true, if_false] at h
    refine nextMember_ends hchild ?_ hx
    intro hnone
    simp [readForm, readAlternative, hhead, hnone, built] at h
  | inverse hlist halt hx =>
    simp only [readLevel, hlist, Bool.false_eq_true, if_false] at h
    intro hnone
    obtain ⟨e, halt⟩ := halt
    have hinv : readInverse child g node = none := by simp [readInverse, hx, hnone, built]
    rcases ha : readAlternative child g node with _ | e' | p
    · simp [readForm, ha] at h
    · simp [readForm, ha, hinv] at h
    · cases halt.symm.trans (refined_readAlternative node hchild _ ha)
  | repetition hlist halt hinv hx =>
    simp only [readLevel, hlist, Bool.false_eq_true, if_false] at h
    intro hnone
    obtain ⟨e, halt⟩ := halt
    obtain ⟨e', hinv⟩ := hinv
    have hrep : readRepetition child g node = none := by
      rcases readRepetition_cases g node with ⟨y, f, hy, heq⟩ | ⟨hno, -⟩
      · rw [heq, hy.eq hx, hnone]
        rfl
      · exact absurd hx (hno x)
    rcases ha : readAlternative child g node with _ | e' | p
    · simp [readForm, ha] at h
    · rcases hi : readInverse child g node with _ | e' | p
      · simp [readForm, ha, hi] at h
      · simp [readForm, ha, hi, hrep] at h
      · cases hinv.symm.trans (refined_readInverse node hchild _ hi)
    · cases halt.symm.trans (refined_readAlternative node hchild _ ha)

/-! ## all levels -/

theorem refined_readWithin_succ (g : Graph) (depth : Nat) (node : Term) :
    Refined (readWithin g depth node) (readWithin g (depth + 1) node) := by
  induction depth generalizing node with
  | zero => exact .none_left _
  | succ depth ih => exact refined_readLevel node fun y _ => ih y

theorem refined_readWithin (g : Graph) {d d' : Nat} (h : d ≤ d') (node : Term) :
    Refined (readWithin g d node) (readWithin g d' node) := by
  induction h with
  | refl => exact .refl _
  | step _ ih => exact fun r hr => refined_readWithin_succ g _ node r (ih r hr)

/-- The nodes of the graph whose descriptions are read within the depth. -/
def ended (g : Graph) (depth : Nat) : Finset Term :=
  g.terms.toFinset.filter fun node => (readWithin g depth node).isSome

theorem mem_ended {depth : Nat} :
    node ∈ ended g depth ↔ node ∈ g.terms ∧ ∃ r, readWithin g depth node = some r := by
  simp [ended, Option.isSome_iff_exists]

theorem ended_subset {d d' : Nat} (h : d ≤ d') : ended g d ⊆ ended g d' := by
  intro node hnode
  obtain ⟨hmem, r, hr⟩ := mem_ended.1 hnode
  exact mem_ended.2 ⟨hmem, r, refined_readWithin g h node r hr⟩

theorem card_ended_le (g : Graph) (depth : Nat) : (ended g depth).card ≤ g.terms.length :=
  (Finset.card_filter_le _ _).trans (List.toFinset_card_le _)

/-- A level that answers for no new node of the graph changes nothing above it. -/
theorem refined_of_ended_eq {depth : Nat} (h : ended g depth = ended g (depth + 1)) (node : Term) :
    Refined (readWithin g (depth + 2) node) (readWithin g (depth + 1) node) := by
  refine refined_readLevel node fun y hy r hr => ?_
  obtain ⟨-, r', hr'⟩ := mem_ended.1 (h ▸ mem_ended.2 ⟨hy, r, hr⟩)
  rwa [← hr, refined_readWithin_succ g depth y r' hr']

theorem ended_eq_succ {depth : Nat} (h : ended g depth = ended g (depth + 1)) :
    ended g (depth + 1) = ended g (depth + 2) := by
  refine Finset.Subset.antisymm (ended_subset (Nat.le_succ _)) fun node hnode => ?_
  obtain ⟨hmem, r, hr⟩ := mem_ended.1 hnode
  exact mem_ended.2 ⟨hmem, r, refined_of_ended_eq h node r hr⟩

theorem ended_eq_of_card_eq {depth : Nat} (h : (ended g depth).card = (ended g (depth + 1)).card) :
    ended g depth = ended g (depth + 1) :=
  Finset.eq_of_subset_of_card_le (ended_subset (Nat.le_succ _)) h.ge

/-- After as many levels as the graph has terms, no further level answers for a new node. -/
theorem ended_length_eq (g : Graph) :
    ended g g.terms.length = ended g (g.terms.length + 1) := by
  have hmono : Monotone fun d => (ended g d).card := fun _ _ h =>
    Finset.card_le_card (ended_subset h)
  have hstable := Nat.stabilises_of_monotone hmono (card_ended_le g)
    (fun d h => congrArg Finset.card (ended_eq_succ (ended_eq_of_card_eq h)))
    (Nat.le_succ g.terms.length)
  exact ended_eq_of_card_eq hstable.symm

/-- No depth answers more than `read`. -/
theorem read_of_readWithin {depth : Nat} {r : Except Failure Path}
    (h : readWithin g depth node = some r) : read g node = some r := by
  have hstep : ∀ k, ended g (g.terms.length + k) = ended g (g.terms.length + k + 1) := by
    intro k
    induction k with
    | zero => exact ended_length_eq g
    | succ k ih => exact ended_eq_succ ih
  have hback : ∀ k, Refined (readWithin g (g.terms.length + k + 1) node) (read g node) := by
    intro k
    induction k with
    | zero => exact .refl _
    | succ k ih => exact fun r hr => ih r (refined_of_ended_eq (hstep k) node r hr)
  have hle : depth ≤ g.terms.length + depth + 1 := by omega
  exact hback depth r (refined_readWithin g hle node r h)

theorem refined_read (g : Graph) (depth : Nat) (node : Term) :
    Refined (readWithin g depth node) (read g node) := fun _ h => read_of_readWithin h

theorem read_eq_readLevel (g : Graph) (node : Term) :
    read g node = readLevel (read g) g node := by
  cases h : readLevel (read g) g node with
  | some r =>
    have hdeep : readWithin g (g.terms.length + 2) node = some r := h
    exact read_of_readWithin hdeep
  | none =>
    cases hr : read g node with
    | none => rfl
    | some r =>
      have hlevel := refined_readLevel node (fun y _ => refined_read g g.terms.length y) r hr
      cases h.symm.trans hlevel

/-! ## waiting for itself -/

/-- The reading of the first node asks for the description of the second. -/
def Awaits (g : Graph) (node x : Term) : Prop := Awaited (read g) g node x

/-- The description at a node waits, over any number of parts, for one that waits for itself. -/
def SelfReferring (g : Graph) (node : Term) : Prop :=
  ∃ x, Relation.ReflTransGen (Awaits g) node x ∧ Relation.TransGen (Awaits g) x x

theorem not_selfReferring_of_readWithin {depth : Nat} (h : readWithin g depth node ≠ none) :
    ¬ SelfReferring g node := by
  induction depth generalizing node with
  | zero => exact absurd rfl h
  | succ depth ih =>
    rintro ⟨y, hy, hloop⟩
    -- whether the node is on the cycle or before it, its next part leads to the cycle
    have hnext : ∃ z, Awaits g node z ∧ Relation.ReflTransGen (Awaits g) z y := by
      rcases hy.cases_head with rfl | ⟨z, hz, hzy⟩
      · exact Relation.TransGen.head'_iff.1 hloop
      · exact ⟨z, hz, hzy⟩
    obtain ⟨z, hz, hzy⟩ := hnext
    exact ih (awaited_ends (fun x _ => refined_read g depth x) h hz) ⟨y, hzy, hloop⟩

theorem finite_awaited (g : Graph) (node : Term) :
    {x | Relation.ReflTransGen (Awaits g) node x}.Finite := by
  refine Set.Finite.subset (List.finite_toSet (node :: g.terms)) fun x hx => ?_
  rcases hx.cases_tail with rfl | ⟨y, -, hyx⟩
  · exact List.mem_cons_self
  · exact List.mem_cons_of_mem _ hyx.mem_terms

theorem read_ends_of_not_selfReferring (h : ¬ SelfReferring g node) : read g node ≠ none := by
  let met := {x // Relation.ReflTransGen (Awaits g) node x}
  let below : met → met → Prop := fun x y => Relation.TransGen (Awaits g) y.1 x.1
  have : Finite met := (finite_awaited g node).to_subtype
  have : IsTrans met below := ⟨fun _ _ _ hxy hyz => hyz.trans hxy⟩
  have : Std.Irrefl below := ⟨fun x hx => h ⟨x.1, x.2, hx⟩⟩
  have hwf : WellFounded below := Finite.wellFounded_of_trans_of_irrefl below
  have hends : ∀ x : met, read g x.1 ≠ none := by
    intro x
    induction x using hwf.induction with
    | _ x ih =>
      intro hnone
      rw [read_eq_readLevel] at hnone
      obtain ⟨y, hy, hynone⟩ := exists_awaited_of_none hnone
      exact ih ⟨y, x.2.tail hy⟩ (.single hy) hynone
  exact hends ⟨node, .refl⟩

/-- Reading ends exactly when no description that it waits for waits for itself. -/
theorem read_ends_iff (g : Graph) (node : Term) :
    (∃ r, read g node = some r) ↔ ¬ SelfReferring g node := by
  rw [← Option.ne_none_iff_exists']
  exact ⟨not_selfReferring_of_readWithin, read_ends_of_not_selfReferring⟩

end Path
end ShaclExtract
