import ShaclExtract.Proofs.Path.Spelling

/-!
# ShaclExtract.Proofs.Path.Readability

Paths that are written alike are walked alike (`walk_eq_of_toSparql_eq`), though they need not be
the same: a sequence of one path is written as that path, and a caret before a repetition is written
for an inverse around it and for an inverse inside.

Every path is written as carets, a core and marks (`Path.Parted`), where the core is an IRI or
stands in parentheses. The terminals determine the three (`determined`), and these the walk: the
carets turn the walk of the core around, and the marks repeat it.
-/

namespace ShaclExtract
namespace Path

open Sparql (Mark Terminal)

/-- In every graph, walking the two paths gives the same answers, in both directions. -/
def SameWalk (p q : Path) : Prop := ∀ g d, follow g p d = follow g q d

/-! ## walks of what is made of paths -/

theorem followAll_congr {ps qs : List Path} (h : List.Forall₂ SameWalk ps qs) (g : Graph)
    (d : Direction) (xs : List Term) : followAll g ps d xs = followAll g qs d xs := by
  induction h generalizing xs with
  | nil => rfl
  | cons hp _ ih =>
    cases d with
    | forward => simp only [followAll, hp g .forward, ih]
    | backward => simp only [followAll, hp g .backward, ih]

theorem choose_congr {ps qs : List Path} (h : List.Forall₂ SameWalk ps qs) (g : Graph)
    (d : Direction) (x : Term) (best : Except Failure (List Term)) :
    choose g ps d x best = choose g qs d x best := by
  induction h generalizing best with
  | nil => rfl
  | cons hp _ ih => simp only [choose, hp g d, ih]

theorem sameWalk_sequence {ps qs : List Path} (h : List.Forall₂ SameWalk ps qs) :
    SameWalk (.sequence ps) (.sequence qs) := fun g d =>
  funext fun x => by simp only [follow, followAll_congr h g d [x]]

theorem sameWalk_alternative {ps qs : List Path} (h : List.Forall₂ SameWalk ps qs) :
    SameWalk (.alternative ps) (.alternative qs) := fun g d =>
  funext fun x => by simp only [follow, choose_congr h g d x]

theorem sameWalk_single (p : Path) : SameWalk (.sequence [p]) p := fun g d =>
  funext fun x => by simp only [follow, followAll_single, gather_singleton]

def marked (g : Graph) (step : Term → Except Failure (List Term)) :
    Mark → Term → Except Failure (List Term)
  | .zeroOrMore => closure step g
  | .oneOrMore => closureBeyond step g
  | .zeroOrOne => optional step

/-! ## carets, core and marks -/

/-- The paths that stand in the parentheses of a path, and what stands between them. -/
inductive Group : Path → Terminal → List Path → Prop where
  | sequence (p q : Path) (ps : List Path) :
      Group (.sequence (p :: q :: ps)) .slash (p :: q :: ps)
  | alternative (ps : List Path) : Group (.alternative ps) .bar ps

/-- A path that is written as an IRI or in parentheses. -/
inductive Core : Path → Prop where
  | predicate (i : Iri) : Core (.predicate i)
  | stay : Core (.sequence [])
  | group {c : Path} {t : Terminal} {ps : List Path} : Group c t ps → Core c

/-- The path is written as so many carets, the core and the marks, and walked accordingly. -/
structure Parted (p : Path) (turns : Nat) (core : Path) (marks : List Mark) : Prop where
  isCore : core.Core
  size : sizeOf core ≤ sizeOf p
  terminals_eq : terminals p =
    List.replicate turns .caret ++ (terminals core ++ marks.map .mark)
  follow_eq : ∀ g d, follow g p d =
    marks.foldl (marked g) (follow g core (Direction.flip^[turns] d))

namespace Parted

variable {p core : Path} {turns : Nat} {marks : List Mark}

theorem refl (h : core.Core) : Parted core 0 core [] :=
  ⟨h, le_rfl, by simp, fun _ _ => rfl⟩

theorem inverse (h : Parted p turns core marks) : Parted (.inverse p) (turns + 1) core marks where
  isCore := h.isCore
  size := by
    have := h.size
    simp only [Path.inverse.sizeOf_spec]
    omega
  terminals_eq := by rw [terminals, h.terminals_eq, List.replicate_succ, List.cons_append]
  follow_eq g d := by
    rw [Function.iterate_succ_apply, ← h.follow_eq g d.flip]
    rfl

theorem single (h : Parted p turns core marks) : Parted (.sequence [p]) turns core marks where
  isCore := h.isCore
  size := by
    have := h.size
    simp only [Path.sequence.sizeOf_spec, List.cons.sizeOf_spec, List.nil.sizeOf_spec]
    omega
  terminals_eq := by rw [terminals, h.terminals_eq]
  follow_eq g d := by rw [sameWalk_single p g d, h.follow_eq]

theorem mark {q : Path} {m : Mark} (h : Parted p turns core marks) (hsize : sizeOf p ≤ sizeOf q)
    (hterminals : terminals q = terminals p ++ [.mark m])
    (hfollow : ∀ g d, follow g q d = marked g (follow g p d) m) :
    Parted q turns core (marks ++ [m]) where
  isCore := h.isCore
  size := h.size.trans hsize
  terminals_eq := by simp [hterminals, h.terminals_eq]
  follow_eq g d := by rw [hfollow, h.follow_eq, List.foldl_append]; rfl

end Parted

theorem exists_parted (p : Path) : ∃ turns core marks, Parted p turns core marks := by
  induction hn : sizeOf p using Nat.strong_induction_on generalizing p with
  | _ n ih =>
    subst hn
    cases p with
    | predicate i => exact ⟨0, _, [], .refl (.predicate i)⟩
    | inverse p =>
      obtain ⟨turns, core, marks, h⟩ := ih _ (by simp) p rfl
      exact ⟨turns + 1, core, marks, h.inverse⟩
    | sequence ps =>
      rcases ps with _ | ⟨p, _ | ⟨q, ps⟩⟩
      · exact ⟨0, _, [], .refl .stay⟩
      · have hlt : sizeOf p < sizeOf (Path.sequence [p]) := by
          simp only [Path.sequence.sizeOf_spec, List.cons.sizeOf_spec, List.nil.sizeOf_spec]
          omega
        obtain ⟨turns, core, marks, h⟩ := ih _ hlt p rfl
        exact ⟨turns, core, marks, h.single⟩
      · exact ⟨0, _, [], .refl (.group (.sequence p q ps))⟩
    | alternative ps => exact ⟨0, _, [], .refl (.group (.alternative ps))⟩
    | zeroOrMore p =>
      obtain ⟨turns, core, marks, h⟩ := ih _ (by simp) p rfl
      exact ⟨turns, core, _, h.mark (by simp) (by rw [terminals]) fun _ _ => rfl⟩
    | oneOrMore p =>
      obtain ⟨turns, core, marks, h⟩ := ih _ (by simp) p rfl
      exact ⟨turns, core, _, h.mark (by simp) (by rw [terminals]) fun _ _ => rfl⟩
    | zeroOrOne p =>
      obtain ⟨turns, core, marks, h⟩ := ih _ (by simp) p rfl
      exact ⟨turns, core, _, h.mark (by simp) (by rw [terminals]) fun _ _ => rfl⟩

/-! ## what the terminals determine -/

/-- No mark stands in front. -/
def Unmarked (ts : List Terminal) : Prop := ∀ m us, ts ≠ .mark m :: us

theorem marks_inj {ms ns : List Mark} {r s : List Terminal} (hr : Unmarked r) (hs : Unmarked s)
    (h : ms.map .mark ++ r = ns.map .mark ++ s) : ms = ns ∧ r = s := by
  induction ms generalizing ns with
  | nil =>
    cases ns with
    | nil => exact ⟨rfl, h⟩
    | cons n ns => exact absurd h (hr _ _)
  | cons m ms ih =>
    cases ns with
    | nil => exact absurd h.symm (hs _ _)
    | cons n ns =>
      simp only [List.map_cons, List.cons_append, List.cons.injEq, Terminal.mark.injEq] at h
      obtain ⟨rfl, hrest⟩ := h
      obtain ⟨rfl, rfl⟩ := ih hrest
      exact ⟨rfl, rfl⟩

theorem carets_inj {j k : Nat} {r s : List Terminal} (hr : ∀ us, r ≠ .caret :: us)
    (hs : ∀ us, s ≠ .caret :: us)
    (h : List.replicate j .caret ++ r = List.replicate k .caret ++ s) : j = k ∧ r = s := by
  induction j generalizing k with
  | zero =>
    cases k with
    | zero => exact ⟨rfl, h⟩
    | succ k => exact absurd h (hr _)
  | succ j ih =>
    cases k with
    | zero => exact absurd h.symm (hs _)
    | succ k =>
      simp only [List.replicate_succ, List.cons_append, List.cons.injEq, true_and] at h
      obtain ⟨rfl, rfl⟩ := ih h
      exact ⟨rfl, rfl⟩

/-- The terminals tell where the path ends and how it is walked. -/
def Determined (p : Path) : Prop := ∀ q r s, Unmarked r → Unmarked s →
  terminals p ++ r = terminals q ++ s → SameWalk p q ∧ r = s

def behind (separator : Terminal) (ps : List Path) : List Terminal :=
  ps.flatMap fun p => separator :: terminals p

theorem separated_cons (separator : Terminal) (p : Path) (ps : List Path) :
    separated separator (terminalsOfAll (p :: ps)) = terminals p ++ behind separator ps := by
  induction ps generalizing p with
  | nil => simp [terminalsOfAll, separated, behind]
  | cons q ps ih =>
    have hrest := ih q
    simp only [terminalsOfAll] at hrest ⊢
    rw [separated, hrest, behind, behind, List.flatMap_cons, List.cons_append]

inductive IsSeparator : Terminal → Prop where
  | slash : IsSeparator .slash
  | bar : IsSeparator .bar

theorem unmarked_behind {t : Terminal} (ht : IsSeparator t) (ps : List Path) (r : List Terminal) :
    Unmarked (behind t ps ++ .closing :: r) := by
  intro m us h
  cases ps with
  | nil => cases (List.cons.inj h).1
  | cons p ps =>
    obtain ⟨rfl, -⟩ := List.cons.inj h
    cases ht

namespace Group

variable {c c' : Path} {t t' : Terminal} {ps qs : List Path}

theorem isSeparator (h : Group c t ps) : IsSeparator t := by
  cases h with
  | sequence => exact .slash
  | alternative => exact .bar

theorem terminals_append (h : Group c t ps) (r : List Terminal) :
    terminals c ++ r = .opening :: (separated t (terminalsOfAll ps) ++ .closing :: r) := by
  cases h <;> rw [terminals, List.cons_append, List.append_assoc, List.singleton_append]

theorem sizeOf_lt (h : Group c t ps) {p : Path} (hp : p ∈ ps) : sizeOf p < sizeOf c := by
  have := List.sizeOf_lt_of_mem hp
  cases h with
  | sequence p q ps =>
    simp only [Path.sequence.sizeOf_spec] at *
    omega
  | alternative ps =>
    simp only [Path.alternative.sizeOf_spec] at *
    omega

/-- Groups of the same members are walked alike: sequences have two members or more, so their
separator shows. -/
theorem sameWalk (h : Group c t ps) (h' : Group c' t' qs) (hps : List.Forall₂ SameWalk ps qs)
    (ht : 1 < ps.length → t = t') : SameWalk c c' := by
  cases h with
  | sequence p q ps =>
    cases h' with
    | sequence p' q' ps' => exact sameWalk_sequence hps
    | alternative qs => cases ht (by simp)
  | alternative ps =>
    cases h' with
    | sequence p q ps' => cases ht (by simp [hps.length_eq])
    | alternative qs => exact sameWalk_alternative hps

end Group

inductive Starts : Terminal → Prop where
  | iriRef (text : List Char) : Starts (.iriRef text)
  | caret : Starts .caret
  | opening : Starts .opening

theorem Core.starts {c : Path} (h : c.Core) :
    ∃ t us, terminals c = t :: us ∧ Starts t ∧ t ≠ .caret := by
  cases h with
  | predicate i => exact ⟨_, _, by rw [terminals], .iriRef _, by simp⟩
  | stay => exact ⟨_, _, by rw [terminals], .opening, by simp⟩
  | group h =>
    have hterminals := (List.append_nil _).symm.trans (h.terminals_append [])
    exact ⟨_, _, hterminals, .opening, by simp⟩

theorem exists_starts (p : Path) : ∃ t us, terminals p = t :: us ∧ Starts t := by
  obtain ⟨turns, core, marks, h⟩ := exists_parted p
  rw [h.terminals_eq]
  cases turns with
  | zero =>
    obtain ⟨t, us, hcore, ht, -⟩ := h.isCore.starts
    exact ⟨t, us ++ marks.map .mark, by simp [hcore], ht⟩
  | succ turns => exact ⟨_, _, rfl, .caret⟩

theorem behind_inj {t u : Terminal} (ht : IsSeparator t) (hu : IsSeparator u) {ps qs : List Path}
    (hps : ∀ p ∈ ps, Determined p) {r s : List Terminal}
    (h : behind t ps ++ .closing :: r = behind u qs ++ .closing :: s) :
    List.Forall₂ SameWalk ps qs ∧ r = s ∧ (ps ≠ [] → t = u) := by
  induction ps generalizing qs with
  | nil =>
    cases qs with
    | nil => exact ⟨.nil, (List.cons.inj h).2, by simp⟩
    | cons q qs =>
      obtain ⟨rfl, -⟩ := List.cons.inj h
      cases hu
  | cons p ps ih =>
    cases qs with
    | nil =>
      obtain ⟨rfl, -⟩ := List.cons.inj h
      cases ht
    | cons q qs =>
      obtain ⟨hp, hps⟩ := List.forall_mem_cons.1 hps
      simp only [behind, List.flatMap_cons, List.cons_append, List.append_assoc,
        List.cons.injEq] at h
      obtain ⟨rfl, h⟩ := h
      obtain ⟨hwalk, hrest⟩ := hp q _ _ (unmarked_behind ht ps r) (unmarked_behind ht qs s) h
      obtain ⟨hwalks, hend, -⟩ := ih hps hrest
      exact ⟨.cons hwalk hwalks, hend, fun _ => rfl⟩

/-- A group is determined by its members, and of two members or more the separator is seen. -/
theorem group_inj {t u : Terminal} (ht : IsSeparator t) (hu : IsSeparator u) {ps qs : List Path}
    (hps : ∀ p ∈ ps, Determined p) {r s : List Terminal}
    (h : separated t (terminalsOfAll ps) ++ .closing :: r =
      separated u (terminalsOfAll qs) ++ .closing :: s) :
    List.Forall₂ SameWalk ps qs ∧ r = s ∧ (1 < ps.length → t = u) := by
  cases ps with
  | nil =>
    cases qs with
    | nil => exact ⟨.nil, (List.cons.inj h).2, by simp⟩
    | cons q qs =>
      obtain ⟨v, us, hq, hv⟩ := exists_starts q
      rw [separated_cons, hq] at h
      obtain ⟨rfl, -⟩ := List.cons.inj h
      cases hv
  | cons p ps =>
    cases qs with
    | nil =>
      obtain ⟨v, us, hp, hv⟩ := exists_starts p
      rw [separated_cons, hp] at h
      obtain ⟨rfl, -⟩ := List.cons.inj h
      cases hv
    | cons q qs =>
      obtain ⟨hp, hps⟩ := List.forall_mem_cons.1 hps
      rw [separated_cons, separated_cons, List.append_assoc, List.append_assoc] at h
      obtain ⟨hwalk, hrest⟩ := hp q _ _ (unmarked_behind ht ps r) (unmarked_behind hu qs s) h
      obtain ⟨hwalks, hend, hseparator⟩ := behind_inj ht hu hps hrest
      refine ⟨.cons hwalk hwalks, hend, fun hlength => hseparator ?_⟩
      rintro rfl
      simp at hlength

theorem group_ne_bang (t : Terminal) (ps : List Path) (r us : List Terminal) :
    separated t (terminalsOfAll ps) ++ .closing :: r ≠ .bang :: us := by
  intro h
  cases ps with
  | nil => cases (List.cons.inj h).1
  | cons p ps =>
    obtain ⟨v, vs, hp, hv⟩ := exists_starts p
    rw [separated_cons, hp] at h
    obtain ⟨rfl, -⟩ := List.cons.inj h
    cases hv

theorem terminals_stay_append (r : List Terminal) : terminals (.sequence []) ++ r =
    .opening :: .bang :: .iriRef [] :: .closing :: .mark .zeroOrOne :: r := by
  rw [terminals]
  rfl

theorem Core.inj {c c' : Path} (hc : c.Core) (hc' : c'.Core)
    (hmembers : ∀ t ps, Group c t ps → ∀ p ∈ ps, Determined p) {r s : List Terminal}
    (h : terminals c ++ r = terminals c' ++ s) : SameWalk c c' ∧ r = s := by
  cases hc with
  | predicate i =>
    rw [terminals, List.singleton_append] at h
    cases hc' with
    | predicate j =>
      rw [terminals, List.singleton_append] at h
      obtain ⟨hij, rfl⟩ := List.cons.inj h
      obtain rfl : i = j := by
        cases i
        cases j
        exact congrArg Iri.mk (String.toList_inj.1 (Terminal.iriRef.inj hij))
      exact ⟨fun _ _ => rfl, rfl⟩
    | stay => cases h.trans (terminals_stay_append s)
    | group hg' => cases h.trans (hg'.terminals_append s)
  | stay =>
    rw [terminals_stay_append] at h
    cases hc' with
    | predicate j =>
      rw [terminals] at h
      cases h
    | stay =>
      cases h.trans (terminals_stay_append s)
      exact ⟨fun _ _ => rfl, rfl⟩
    | group hg' =>
      have hbang := (List.cons.inj (h.trans (hg'.terminals_append s))).2
      exact absurd hbang.symm (group_ne_bang _ _ _ _)
  | group hg =>
    rw [hg.terminals_append] at h
    cases hc' with
    | predicate j =>
      rw [terminals] at h
      cases h
    | stay =>
      have hbang := (List.cons.inj (h.trans (terminals_stay_append s))).2
      exact absurd hbang (group_ne_bang _ _ _ _)
    | group hg' =>
      have hgroup := (List.cons.inj (h.trans (hg'.terminals_append s))).2
      obtain ⟨hwalks, hend, hseparator⟩ :=
        group_inj hg.isSeparator hg'.isSeparator (hmembers _ _ hg) hgroup
      exact ⟨hg.sameWalk hg' hwalks hseparator, hend⟩

/-- What is written determines how the path is walked. -/
theorem determined (p : Path) : Determined p := by
  induction hn : sizeOf p using Nat.strong_induction_on generalizing p with
  | _ n ih =>
    subst hn
    intro q r s hr hs h
    obtain ⟨turns, core, marks, hp⟩ := exists_parted p
    obtain ⟨turns', core', marks', hq⟩ := exists_parted q
    have hcaret : ∀ {c : Path}, c.Core → ∀ ts us, terminals c ++ ts ≠ .caret :: us := by
      intro c hc ts us heq
      obtain ⟨t, vs, hterminals, -, ht⟩ := hc.starts
      rw [hterminals] at heq
      exact ht (List.cons.inj heq).1
    rw [hp.terminals_eq, hq.terminals_eq, List.append_assoc, List.append_assoc, List.append_assoc,
      List.append_assoc] at h
    obtain ⟨rfl, hcore⟩ := carets_inj (hcaret hp.isCore _) (hcaret hq.isCore _) h
    have hmembers : ∀ t ps, Group core t ps → ∀ m ∈ ps, Determined m := fun t ps hg m hm =>
      ih _ (lt_of_lt_of_le (hg.sizeOf_lt hm) hp.size) m rfl
    obtain ⟨hwalk, hmarks⟩ := hp.isCore.inj hq.isCore hmembers hcore
    obtain ⟨rfl, rfl⟩ := marks_inj hr hs hmarks
    refine ⟨fun g d => ?_, rfl⟩
    rw [hp.follow_eq, hq.follow_eq, hwalk]

/-- Paths that are written alike have the same hops, or fail alike, from every node of every
graph. -/
theorem walk_eq_of_toSparql_eq {p q : Path} (hp : ∀ i ∈ p.iris, '>' ∉ i.text.toList)
    (hq : ∀ i ∈ q.iris, '>' ∉ i.text.toList) (h : p.toSparql = q.toSparql) (g : Graph)
    (x : Term) : p.walk g x = q.walk g x := by
  have hend : Unmarked [] := fun _ _ h => by cases h
  have hterminals : terminals p ++ [] = terminals q ++ [] := by
    rw [terminals_eq_of_toSparql_eq hp hq h]
  exact congrFun ((determined p q [] [] hend hend hterminals).1 g .forward) x

/-- A repetition turned around, and one of steps that are turned around, in a sequence of one. -/
def turnedRepetition : Path := .inverse (.zeroOrMore (.predicate ⟨"next"⟩))

def repeatedTurn : Path := .zeroOrMore (.sequence [.inverse (.predicate ⟨"next"⟩)])

theorem walk_eq_of_toSparql_eq_turned :
    (∀ i ∈ turnedRepetition.iris, '>' ∉ i.text.toList) ∧
      (∀ i ∈ repeatedTurn.iris, '>' ∉ i.text.toList) ∧ turnedRepetition ≠ repeatedTurn ∧
      turnedRepetition.toSparql = "^<next>*" ∧ repeatedTurn.toSparql = "^<next>*" ∧
      turnedRepetition.walk [⟨.iri ⟨"a"⟩, ⟨"next"⟩, .iri ⟨"b"⟩, none⟩] (.iri ⟨"b"⟩) =
        repeatedTurn.walk [⟨.iri ⟨"a"⟩, ⟨"next"⟩, .iri ⟨"b"⟩, none⟩] (.iri ⟨"b"⟩) := by
  have hp : ∀ i ∈ turnedRepetition.iris, '>' ∉ i.text.toList := by decide
  have hq : ∀ i ∈ repeatedTurn.iris, '>' ∉ i.text.toList := by decide
  have htext : turnedRepetition.toSparql = repeatedTurn.toSparql := by rfl
  exact ⟨hp, hq, by decide, by rfl, by rfl, walk_eq_of_toSparql_eq hp hq htext _ _⟩

end Path
end ShaclExtract
