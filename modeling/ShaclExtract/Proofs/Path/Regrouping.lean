import ShaclExtract.Proofs.Extractor.Alternation
import ShaclExtract.Proofs.Path.Failing
import ShaclExtract.Proofs.Path.Readability

/-!
# ShaclExtract.Proofs.Path.Regrouping

Alternatives and sequences put into groups (`regrouped`).

A sequence expands all hops stage by stage. A sequence inside of it goes through its own stages with
one hop before it turns to the next, so the steps are taken in another order, and where several of
them fail it may be another one that is met first. But all walks fail alike
(`Path.error_of_follow`), and then gathering hops is associative (`gather_bind`).
-/

namespace ShaclExtract

/-! ## gathering -/

section gathering

variable {α β γ ε : Type} {e : ε}

theorem gather_append (f : α → Except ε (List β)) (xs ys : List α) :
    gather f (xs ++ ys) = (gather f xs).bind fun us => (gather f ys).map (us ++ ·) := by
  induction xs with
  | nil => cases h : gather f ys <;> simp [gather, Except.bind, Except.map, h]
  | cons x xs ih =>
    simp only [List.cons_append, gather, ih]
    cases f x with
    | error e => rfl
    | ok us =>
      cases gather f xs with
      | error e => rfl
      | ok vs => cases gather f ys <;> simp [Except.bind, Except.map]

/-- Expanding what each element is expanded to is expanding all of them and then what they are
expanded to, if there is only one way to fail. -/
theorem gather_bind {f : α → Except ε (List β)} {h : β → Except ε (List γ)}
    (hf : ∀ x e', f x = .error e' → e' = e) (hh : ∀ y e', h y = .error e' → e' = e)
    (xs : List α) :
    gather (fun x => (f x).bind (gather h)) xs = (gather f xs).bind (gather h) := by
  have hgather : ∀ ys e', gather h ys = .error e' → e' = e := fun ys e' he =>
    let ⟨y, hy⟩ := error_of_gather he
    hh y e' hy
  induction xs with
  | nil => rfl
  | cons x xs ih =>
    simp only [gather, ih]
    cases hx : f x with
    | error e' => rfl
    | ok ys =>
      cases hxs : gather f xs with
      | error e' =>
        obtain ⟨x', hx'⟩ := error_of_gather hxs
        cases hys : gather h ys with
        | error e'' =>
          -- the left side meets the failure of `h` in `ys`, the right side that of `f` behind `x`
          rw [hf x' e' hx', ← hgather ys e'' hys]
          simp [Except.bind, hys]
        | ok us => simp [Except.bind, hys]
      | ok zs =>
        simp only [Except.bind, gather_append]
        cases gather h ys with
        | error e' => rfl
        | ok us => cases gather h zs <;> rfl

end gathering

namespace Path

/-! ## sequences in sequences -/

/-- Going through all stages with one node after the other, or through each stage with all of them,
is the same. -/
theorem gather_followAll (g : Graph) (ps : List Path) (d : Direction) (xs : List Term) :
    gather (fun x => followAll g ps d [x]) xs = followAll g ps d xs := by
  have hfails : ∀ (p : Path) x e, follow g p d x = .error e → e = .noAlternative := fun p x e he =>
    error_of_follow g p d x he
  have hrest : ∀ (qs : List Path) x e, followAll g qs d [x] = .error e → e = .noAlternative :=
    fun qs x e he => error_of_followAll g qs d [x] he
  induction ps generalizing xs with
  | nil =>
    simp only [followAll]
    rw [gather_eq_ok fun x => rfl]
    exact congrArg Except.ok (List.flatMap_singleton' xs)
  | cons p ps ih =>
    cases d with
    | forward =>
      have hstage : ∀ zs, followAll g (p :: ps) .forward zs =
          (gather (follow g p .forward) zs).bind
            (gather fun y => followAll g ps .forward [y]) := by
        intro zs
        rw [followAll_cons_forward, funext ih]
      simp only [hstage, gather_singleton]
      exact gather_bind (hfails p) (hrest ps) xs
    | backward =>
      simp only [followAll_cons_backward]
      rw [gather_bind (hrest ps) (hfails p), ih]

theorem followAll_sequence (g : Graph) (ps : List Path) (d : Direction) :
    followAll g [.sequence ps] d = followAll g ps d := by
  funext xs
  rw [followAll_single, ← gather_followAll g ps d xs]
  simp only [follow]

theorem followAll_append_sequence (g : Graph) (as bs : List Path) (d : Direction) :
    followAll g (as ++ [.sequence bs]) d = followAll g (as ++ bs) d := by
  funext xs
  cases d with
  | forward => simp only [followAll_append_forward, followAll_sequence]
  | backward => simp only [followAll_append_backward, followAll_sequence]

/-- A sequence in the midst of a sequence may be opened. -/
theorem sameWalk_nested (as bs cs : List Path) :
    SameWalk (.sequence (as ++ [.sequence bs] ++ cs)) (.sequence (as ++ bs ++ cs)) := by
  intro g d
  funext x
  cases d with
  | forward => simp only [follow, followAll_append_forward _ _ cs, followAll_append_sequence]
  | backward => simp only [follow, followAll_append_backward _ _ cs, followAll_append_sequence]

end Path

open Extractor (firstOf firstNonempty)

/-- Alternatives may be tried in two groups, of which the second one has some, and a sequence may
be walked with some of its steps as a sequence of their own. It makes no difference to what is put
out, to the failure that remains or to the state. -/
theorem regrouped {σ ι ο : Type} :
    (∀ (xs : List (Extractor σ ι ο)) (y : Extractor σ ι ο) (ys : List (Extractor σ ι ο)),
      firstOf [firstOf xs, firstOf (y :: ys)] = firstOf (xs ++ y :: ys)) ∧
    (∀ (xs : List (Extractor σ ι (List ο))) (y : Extractor σ ι (List ο))
        (ys : List (Extractor σ ι (List ο))),
      firstNonempty [firstNonempty xs, firstNonempty (y :: ys)] = firstNonempty (xs ++ y :: ys)) ∧
    ∀ (as bs cs : List Path) (g : Graph) (x : Term),
      (Path.sequence (as ++ [.sequence bs] ++ cs)).walk g x =
        (Path.sequence (as ++ bs ++ cs)).walk g x := by
  refine ⟨fun xs y ys => ?_, fun xs y ys => ?_, fun as bs cs g x => ?_⟩
  · rw [Extractor.firstOf_firstOf, Extractor.firstOf_append_firstOf]
  · rw [Extractor.firstNonempty_firstNonempty, Extractor.firstNonempty_append_firstNonempty]
  · exact congrFun (Path.sameWalk_nested as bs cs g .forward) x

/-- A last group without alternatives replaces the failure before by its own. -/
example (e : Failure) (n : Nat) :
    firstOf [firstOf [.fail e], (firstOf [] : Extractor Nat Nat Nat)] n n =
        some (.error .noAlternative, n) ∧
      firstOf [(.fail e : Extractor Nat Nat Nat)] n n = some (.error e, n) := ⟨rfl, rfl⟩

end ShaclExtract
