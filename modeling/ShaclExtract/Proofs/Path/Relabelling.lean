import ShaclExtract.Path.Walk
import ShaclExtract.Proofs.Extractor.Tandem
import ShaclExtract.Proofs.Path.SelfReference
import ShaclExtract.Proofs.Rdf.Relabelling

/-!
# ShaclExtract.Proofs.Path.Relabelling

Paths in relabelled graphs. A walk has the relabelled hops, in the same order and as often
(`Path.walk_relabelled`). A description that is relabelled describes the same path, for there are
only IRIs in paths; what fails may fail with another text (`Path.read_relabelled`).
-/

namespace ShaclExtract

variable (f : String ↪ String)

/-! ## walks -/

section answers

variable {α β ε : Type} {h : α → β}

theorem gather_map {step : α → Except ε (List α)} {step' : β → Except ε (List β)}
    (hstep : ∀ x, step' (h x) = (step x).map (List.map h)) (xs : List α) :
    gather step' (xs.map h) = (gather step xs).map (List.map h) := by
  induction xs with
  | nil => rfl
  | cons x xs ih =>
    rw [List.map_cons, gather, hstep, ih, gather]
    cases step x with
    | error e => rfl
    | ok ys =>
      cases gather step xs with
      | error e => rfl
      | ok zs => simp only [Except.map, List.map_append]

theorem prefer_map (first second : Except ε (List α)) :
    prefer (first.map (List.map h)) (second.map (List.map h)) =
      (prefer first second).map (List.map h) := by
  rcases first with e | _ | ⟨x, xs⟩ <;> rcases second with e' | ys <;> rfl

end answers

namespace Path

theorem optional_relabelled {step step' : Term → Except Failure (List Term)}
    (hstep : ∀ x, step' (x.relabelled f) = (step x).map (List.map (Term.relabelled f)))
    (x : Term) :
    optional step' (x.relabelled f) = (optional step x).map (List.map (Term.relabelled f)) := by
  rw [optional, hstep, optional]
  cases step x with
  | error e => rfl
  | ok hops =>
    have hothers := Search.filter_ne_map (Term.relabelling f) x hops
    exact congrArg (fun ys => Except.ok (x.relabelled f :: ys)) hothers

mutual

theorem follow_relabelled (g : Graph) : ∀ (p : Path) (d : Direction) (x : Term),
    follow (g.relabelled f) p d (x.relabelled f) =
      (follow g p d x).map (List.map (Term.relabelled f))
  | .predicate i, .forward, x => congrArg Except.ok (g.objects_relabelled f x i)
  | .predicate i, .backward, x => congrArg Except.ok (g.subjects_relabelled f x i)
  | .inverse p, d, x => follow_relabelled g p d.flip x
  | .sequence ps, d, x => followAll_relabelled g ps d [x]
  | .alternative ps, d, x => choose_relabelled g ps d x (.error .noAlternative)
  | .zeroOrMore p, d, x => by
    simp only [follow, closure, Graph.terms_relabelled]
    exact Search.tryReach_map (Term.relabelling f) (follow_relabelled g p d) g.terms x
  | .oneOrMore p, d, x => by
    simp only [follow, closureBeyond, Graph.terms_relabelled]
    exact Search.tryReachBeyond_map (Term.relabelling f) (follow_relabelled g p d) (x :: g.terms) x
  | .zeroOrOne p, d, x => optional_relabelled f (follow_relabelled g p d) x

theorem followAll_relabelled (g : Graph) : ∀ (ps : List Path) (d : Direction) (xs : List Term),
    followAll (g.relabelled f) ps d (xs.map (Term.relabelled f)) =
      (followAll g ps d xs).map (List.map (Term.relabelled f))
  | [], d, xs => rfl
  | p :: ps, .forward, xs => by
    simp only [followAll, gather_map (follow_relabelled g p .forward)]
    cases gather (follow g p .forward) xs with
    | error e => rfl
    | ok ys => exact followAll_relabelled g ps .forward ys
  | p :: ps, .backward, xs => by
    simp only [followAll, followAll_relabelled g ps .backward xs]
    cases followAll g ps .backward xs with
    | error e => rfl
    | ok ys => exact gather_map (follow_relabelled g p .backward) ys

theorem choose_relabelled (g : Graph) : ∀ (ps : List Path) (d : Direction) (x : Term)
    (best : Except Failure (List Term)),
    choose (g.relabelled f) ps d (x.relabelled f) (best.map (List.map (Term.relabelled f))) =
      (choose g ps d x best).map (List.map (Term.relabelled f))
  | [], d, x, best => rfl
  | p :: ps, d, x, best => by
    have hrest : ∀ r : Except Failure (List Term),
        choose (g.relabelled f) ps d (x.relabelled f)
            (prefer (best.map (List.map (Term.relabelled f)))
              (r.map (List.map (Term.relabelled f)))) =
          (choose g ps d x (prefer best r)).map (List.map (Term.relabelled f)) := by
      intro r
      rw [prefer_map]
      exact choose_relabelled g ps d x (prefer best r)
    simp only [choose, follow_relabelled g p d x]
    rcases follow g p d x with e | _ | ⟨y, ys⟩
    · exact hrest (.error e)
    · exact hrest (.ok [])
    · rfl

end

theorem walk_relabelled (g : Graph) (p : Path) (x : Term) :
    p.walk (g.relabelled f) (x.relabelled f) =
      (p.walk g x).map (List.map (Term.relabelled f)) := follow_relabelled f g p .forward x

end Path

/-! ## descriptions -/

namespace Collection

variable {f} in
theorem readFrom_relabelled_malformed {g : Graph} {seen : List Term} {cell : Term}
    (hcell : cell ≠ .iri Rdf.nil) (h : cell ∈ seen ∨ ∀ first rest,
      g.objects cell Rdf.first = [first] → g.objects cell Rdf.rest ≠ [rest]) :
    ∃ e, readFrom (g.relabelled f) (seen.map (Term.relabelled f)) (cell.relabelled f) =
      .error e := by
  refine readFrom_malformed (fun hnil => hcell ((Term.relabelled_eq_iri f).1 hnil)) ?_
  refine h.imp List.mem_map_of_mem fun hlinks first rest hfirst hrest => ?_
  rw [Graph.objects_relabelled, List.map_eq_singleton_iff] at hfirst hrest
  obtain ⟨first, hfirst, rfl⟩ := hfirst
  obtain ⟨rest, hrest, rfl⟩ := hrest
  exact hlinks first rest hfirst hrest

variable {f} in
theorem readFrom_relabelled_links {g : Graph} {seen : List Term} {cell first rest : Term}
    (hcell : cell ≠ .iri Rdf.nil) (hseen : cell ∉ seen)
    (hfirst : g.objects cell Rdf.first = [first]) (hrest : g.objects cell Rdf.rest = [rest]) :
    readFrom (g.relabelled f) (seen.map (Term.relabelled f)) (cell.relabelled f) =
      (readFrom (g.relabelled f) ((cell :: seen).map (Term.relabelled f)) (rest.relabelled f)).map
        (first.relabelled f :: ·) := by
  refine readFrom_links (fun hnil => hcell ((Term.relabelled_eq_iri f).1 hnil)) ?_ ?_ ?_
  · rwa [List.mem_map_of_injective (Term.relabelled_injective f)]
  · rw [Graph.objects_relabelled, hfirst, List.map_singleton]
  · rw [Graph.objects_relabelled, hrest, List.map_singleton]

theorem readFrom_relabelled (g : Graph) (seen : List Term) (cell : Term) :
    Outcomes (fun ns ns' => ns' = ns.map (Term.relabelled f)) (readFrom g seen cell)
      (readFrom (g.relabelled f) (seen.map (Term.relabelled f)) (cell.relabelled f)) := by
  have hmalformed : ∀ {r : Except Failure (List Term)} (e : Failure), (∃ e', r = .error e') →
      Outcomes (fun (ns : List Term) ns' => ns' = ns.map (Term.relabelled f)) (.error e) r := by
    rintro _ e ⟨e', rfl⟩
    trivial
  fun_induction readFrom g seen cell with
  | case1 seen =>
    rw [Term.relabelled, readFrom_nil]
    rfl
  | case2 seen cell hcell hseen =>
    exact hmalformed _ (readFrom_relabelled_malformed hcell (.inl hseen))
  | case3 seen cell hcell hseen first rest hfirst hrest items hitems ih =>
    rw [readFrom_relabelled_links hcell hseen hfirst hrest]
    rw [hitems] at ih
    obtain ⟨_, _, h, _⟩ | ⟨_, items', h, h', rfl⟩ := ih.cases
    · cases h
    · cases h
      rw [h']
      rfl
  | case4 seen cell hcell hseen first rest hfirst hrest e he ih =>
    rw [readFrom_relabelled_links hcell hseen hfirst hrest]
    rw [he] at ih
    obtain ⟨_, e', _, h'⟩ | ⟨_, _, h, _⟩ := ih.cases
    · rw [h']
      trivial
    · cases h
  | case5 seen cell hcell hseen hfirst =>
    refine hmalformed _ (readFrom_relabelled_malformed hcell (.inr fun first rest h => ?_))
    cases hfirst.symm.trans h
  | case6 seen cell hcell hseen hrest _ =>
    refine hmalformed _ (readFrom_relabelled_malformed hcell (.inr fun first rest _ h => ?_))
    cases hrest.symm.trans h
  | case7 seen cell hcell hseen _ _ hlinks =>
    exact hmalformed _ (readFrom_relabelled_malformed hcell (.inr fun first rest h h' =>
      hlinks first rest h h'))

theorem read_relabelled (g : Graph) (head : Term) :
    Outcomes (fun ns ns' => ns' = ns.map (Term.relabelled f)) (read g head)
      (read (g.relabelled f) (head.relabelled f)) := readFrom_relabelled f g [] head

theorem isHead_relabelled (g : Graph) (n : Term) :
    isHead (g.relabelled f) (n.relabelled f) = isHead g n := by
  rw [isHead, Graph.object?_relabelled, Option.isSome_map, isHead]
  simp only [Term.relabelled_eq_iri]

end Collection

namespace Path

/-- Neither reading ends, or both do, with failures or with the same answer. -/
def ReadAlike {α : Type} (x y : Option (Except Failure α)) : Prop := Option.Rel (Outcomes Eq) x y

variable {α : Type}

theorem ReadAlike.cases {x y : Option (Except Failure α)} (h : ReadAlike x y) :
    (x = none ∧ y = none) ∨ (∃ e e', x = some (.error e) ∧ y = some (.error e')) ∨
      ∃ a, x = some (.ok a) ∧ y = some (.ok a) := by
  cases h with
  | none => exact .inl ⟨rfl, rfl⟩
  | some hr =>
    obtain ⟨e, e', rfl, rfl⟩ | ⟨a, _, rfl, rfl, rfl⟩ := hr.cases
    · exact .inr (.inl ⟨e, e', rfl, rfl⟩)
    · exact .inr (.inr ⟨a, rfl, rfl⟩)

theorem readAlike_error (e e' : Failure) :
    ReadAlike (some (.error e) : Option (Except Failure α)) (some (.error e')) := .some trivial

theorem readAlike_built {build : α → Path} {x y : Option (Except Failure α)}
    (h : ReadAlike x y) : ReadAlike (built build x) (built build y) := by
  obtain ⟨rfl, rfl⟩ | ⟨e, e', rfl, rfl⟩ | ⟨a, rfl, rfl⟩ := h.cases
  · exact .none
  · exact readAlike_error e e'
  · exact .some rfl

theorem readAlike_next {x y x' y' : Option (Except Failure Path)} :
    ReadAlike x x' → ReadAlike y y' →
      ReadAlike (match x with | some (.error _) => y | r => r)
        (match x' with | some (.error _) => y' | r => r) := by
  intro hx hy
  obtain ⟨rfl, rfl⟩ | ⟨e, e', rfl, rfl⟩ | ⟨p, rfl, rfl⟩ := hx.cases
  · exact .none
  · exact hy
  · exact .some rfl

section levels

variable {f} {child child' : Reader} {g : Graph}
  (h : ∀ n, ReadAlike (child n) (child' (n.relabelled f)))
include h

theorem readEach_relabelled (nodes : List Term) :
    ReadAlike (readEach child nodes) (readEach child' (nodes.map (Term.relabelled f))) := by
  induction nodes with
  | nil => exact .some rfl
  | cons n nodes ih =>
    simp only [readEach, List.map_cons]
    obtain ⟨hn, hn'⟩ | ⟨e, e', hn, hn'⟩ | ⟨p, hn, hn'⟩ := (h n).cases
    · rw [hn, hn']
      exact .none
    · rw [hn, hn']
      exact readAlike_error e e'
    · rw [hn, hn']
      obtain ⟨hr, hr'⟩ | ⟨e, e', hr, hr'⟩ | ⟨ps, hr, hr'⟩ := ih.cases
      · rw [hr, hr']
        exact .none
      · rw [hr, hr']
        exact readAlike_error e e'
      · rw [hr, hr']
        exact .some rfl

theorem readMembers_relabelled (head : Term) : ReadAlike (readMembers child g head)
    (readMembers child' (g.relabelled f) (head.relabelled f)) := by
  unfold readMembers
  obtain ⟨e, e', hr, hr'⟩ | ⟨nodes, _, hr, hr', rfl⟩ := (Collection.read_relabelled f g head).cases
  · rw [hr, hr']
    exact readAlike_error e e'
  · rw [hr, hr']
    exact readEach_relabelled h nodes

theorem readAlternative_relabelled (n : Term) : ReadAlike (readAlternative child g n)
    (readAlternative child' (g.relabelled f) (n.relabelled f)) := by
  unfold readAlternative
  rw [Graph.object?_relabelled]
  cases g.object? n Sh.alternativePath with
  | none => exact readAlike_error _ _
  | some head => exact readAlike_built (readMembers_relabelled h head)

theorem readInverse_relabelled (n : Term) : ReadAlike (readInverse child g n)
    (readInverse child' (g.relabelled f) (n.relabelled f)) := by
  unfold readInverse
  rw [Graph.object?_relabelled]
  cases g.object? n Sh.inversePath with
  | none => exact readAlike_error _ _
  | some inner => exact readAlike_built (h inner)

theorem readRepetition_relabelled (n : Term) : ReadAlike (readRepetition child g n)
    (readRepetition child' (g.relabelled f) (n.relabelled f)) := by
  unfold readRepetition
  simp only [Graph.object?_relabelled]
  cases g.object? n Sh.zeroOrMorePath with
  | some inner => exact readAlike_built (h inner)
  | none =>
    cases g.object? n Sh.oneOrMorePath with
    | some inner => exact readAlike_built (h inner)
    | none =>
      cases g.object? n Sh.zeroOrOnePath with
      | some inner => exact readAlike_built (h inner)
      | none => exact readAlike_error _ _

omit h in
theorem readPredicate_relabelled (n : Term) :
    Outcomes Eq (readPredicate n) (readPredicate (n.relabelled f)) := by
  cases n with
  | iri i => exact rfl
  | blank b => trivial
  | literal l => trivial

theorem readForm_relabelled (n : Term) : ReadAlike (readForm child g n)
    (readForm child' (g.relabelled f) (n.relabelled f)) := by
  unfold readForm
  exact readAlike_next (readAlternative_relabelled h n) <|
    readAlike_next (readInverse_relabelled h n) <|
      readAlike_next (readRepetition_relabelled h n) (.some (readPredicate_relabelled n))

end levels

theorem readWithin_relabelled (g : Graph) (depth : Nat) (n : Term) :
    ReadAlike (readWithin g depth n) (readWithin (g.relabelled f) depth (n.relabelled f)) := by
  induction depth generalizing n with
  | zero => exact .none
  | succ depth ih =>
    simp only [readWithin, Collection.isHead_relabelled]
    split
    · exact readAlike_built (readMembers_relabelled ih n)
    · exact readForm_relabelled ih n

theorem read_relabelled (g : Graph) (n : Term) :
    ReadAlike (read g n) (read (g.relabelled f) (n.relabelled f)) := by
  rw [read, read, Graph.terms_relabelled, List.length_map]
  exact readWithin_relabelled f g _ n

end Path

end ShaclExtract
