import ShaclExtract.Evaluation
import ShaclExtract.Proofs.Dialogue.Basic
import ShaclExtract.Proofs.Extractor.Action
import Mathlib.Tactic.Choose

/-!
# ShaclExtract.Proofs.Dialogue.Represented

Extractors that are dialogues. What a program shares is a routine or a numbered part of it
(`Shareable`); given extractors for the routines, `Setting.asked` is what such a name runs.

`Represented` says that there is a dialogue that does what an action does, whatever the routines
are. It holds of actions that answer, share, resolve and tick, and every way to combine extractors
keeps it: there is one rule for each.
-/

namespace ShaclExtract

mutual

/-- Constants hold no references. -/
def Program.Honest : Program → Prop
  | .const v => v.refs = []
  | .all parts => Program.AllHonest parts
  | .firstOf parts => Program.AllHonest parts
  | .along _ _ part => part.Honest
  | .shared _ part => part.Honest
  | .resolved part => part.Honest
  | _ => True

def Program.AllHonest : List Program → Prop
  | [] => True
  | p :: ps => p.Honest ∧ Program.AllHonest ps

end

theorem Program.allHonest_iff : ∀ {ps : List Program}, AllHonest ps ↔ ∀ p ∈ ps, p.Honest
  | [] => by simp [AllHonest]
  | p :: ps => by simp [AllHonest, allHonest_iff]

inductive Shareable where
  | routine (routine : Routine)
  | part (number : Nat) (program : Program) (honest : program.Honest)

abbrev Invoke := Routine → Extractor RunState View Value

namespace Setting

def asked (S : Setting) (invoke : Invoke) : Shareable → Extractor RunState View Value
  | .routine r => invoke r
  | .part number program _ =>
    Memo.shared (.part number) (program.extractor S .memoized invoke)

variable {α β ο : Type} {S : Setting} {hangs : Prop} {P : Shareable → View → Prop}
  {known : List SlotId} {outputRefs : ο → List SlotId} {midRefs : α → List SlotId}

/-- The dialogue does what the action does. It starts with the `known` references, its outputs
have the given ones, and it asks only for what `P` allows. -/
structure Represents (S : Setting) (hangs : Prop) (P : Shareable → View → Prop)
    (known : List SlotId) (outputRefs : ο → List SlotId) (x : Invoke → Action RunState ο)
    (d : Dialogue Shareable ο) : Prop where
  run : ∀ invoke, d.run (S.asked invoke) = x invoke
  honest : d.Honest outputRefs known
  asks : d.AsksOnly hangs P

def Represented (S : Setting) (hangs : Prop) (P : Shareable → View → Prop)
    (known : List SlotId) (outputRefs : ο → List SlotId) (x : Invoke → Action RunState ο) : Prop :=
  ∃ d, S.Represents hangs P known outputRefs x d

namespace Represented

theorem mono {hangs' : Prop} {P' : Shareable → View → Prop} {known' : List SlotId}
    {x : Invoke → Action RunState ο} (h : S.Represented hangs P known outputRefs x)
    (hh : hangs → hangs') (hP : ∀ name view, P name view → P' name view) (hk : known ⊆ known') :
    S.Represented hangs' P' known' outputRefs x := by
  obtain ⟨d, hd⟩ := h
  exact ⟨d, hd.run, hd.honest.mono hk, hd.asks.mono hh hP⟩

theorem learn {known' : List SlotId} {x : Invoke → Action RunState ο}
    (h : S.Represented hangs P known outputRefs x) (hk : known ⊆ known') :
    S.Represented hangs P known' outputRefs x :=
  h.mono id (fun _ _ => id) hk

/-! ## single steps -/

theorem ok {a : ο} (h : outputRefs a ⊆ known) :
    S.Represented hangs P known outputRefs fun _ => Action.answer (.ok a) :=
  ⟨.answer (.ok a), fun _ => rfl, h, trivial⟩

theorem error (e : Failure) :
    S.Represented hangs P known outputRefs fun _ => Action.answer (.error e) :=
  ⟨.answer (.error e), fun _ => rfl, trivial, trivial⟩

theorem answer {r : Except Failure ο} (h : ∀ a, r = .ok a → outputRefs a ⊆ known) :
    S.Represented hangs P known outputRefs fun _ => Action.answer r := by
  cases r with
  | ok a => exact ok (h a rfl)
  | error e => exact error e

theorem endless (h : hangs) : S.Represented hangs P known outputRefs fun _ _ => none :=
  ⟨.endless, fun _ => rfl, trivial, h⟩

theorem ask (name : Shareable) (view : View) (h : P name view) :
    S.Represented hangs P known Value.refs fun invoke => S.asked invoke name view := by
  refine ⟨.share name view .answer, ?_, Dialogue.honest_share name view known, h,
    fun _ => trivial⟩
  intro invoke
  funext s
  simp only [Dialogue.run]
  cases S.asked invoke name view s with
  | none => rfl
  | some p => rfl

theorem tick (counter : String) :
    S.Represented hangs P known Value.refs fun _ s =>
      some (.ok (.integer (Strategy.memoized.tick s counter).1),
        (Strategy.memoized.tick s counter).2) :=
  ⟨.tick counter fun n => .answer (.ok (.integer n)), fun _ => rfl,
    fun _ => List.nil_subset _, fun _ => trivial⟩

theorem resolve {v : Value} (hv : v.refs ⊆ known) {k : Value → Invoke → Action RunState ο}
    (h : ∀ w, S.Represented hangs P (w.refs ++ known) outputRefs (k w)) :
    S.Represented hangs P known outputRefs fun invoke s => k (s.memo.resolve v) invoke s := by
  choose d hd using h
  refine ⟨.resolve v d, ?_, ⟨hv, fun w => (hd w).honest⟩, fun w => (hd w).asks⟩
  intro invoke
  funext s
  exact congrFun ((hd (s.memo.resolve v)).run invoke) s

/-! ## one after the other -/

theorem bind {x : Invoke → Action RunState α}
    {k : Invoke → Except Failure α → Action RunState ο}
    (hx : S.Represented hangs P known midRefs x)
    (hok : ∀ a, S.Represented hangs P (midRefs a ++ known) outputRefs fun i => k i (.ok a))
    (herr : ∀ e, S.Represented hangs P known outputRefs fun i => k i (.error e)) :
    S.Represented hangs P known outputRefs fun i => (x i).bind (k i) := by
  obtain ⟨d, hd⟩ := hx
  have hnext : ∀ r, ∃ d' : Dialogue Shareable ο,
      (∀ i, d'.run (S.asked i) = k i r) ∧ d'.AsksOnly hangs P ∧
      (∀ a, r = .ok a → d'.Honest outputRefs (midRefs a ++ known)) ∧
      ∀ e, r = .error e → d'.Honest outputRefs known := by
    intro r
    cases r with
    | ok a =>
      obtain ⟨d', hd'⟩ := hok a
      exact ⟨d', hd'.run, hd'.asks, by rintro b ⟨⟩; exact hd'.honest, by rintro e ⟨⟩⟩
    | error e =>
      obtain ⟨d', hd'⟩ := herr e
      exact ⟨d', hd'.run, hd'.asks, by rintro a ⟨⟩, by rintro b ⟨⟩; exact hd'.honest⟩
  choose next hrun hasks hnok hnerr using hnext
  refine ⟨d.bind next, ?_, ?_, hd.asks.bind hasks⟩
  · intro i
    funext s
    rw [Dialogue.run_bind, hd.run]
    simp only [hrun, Action.bind]
    rcases x i s with _ | ⟨r, s'⟩
    · rfl
    · rfl
  · exact hd.honest.bind (List.Subset.refl _) (fun a => hnok _ a rfl) fun e => hnerr _ e rfl

theorem bindOk {x : Invoke → Action RunState α} {k : Invoke → α → Action RunState ο}
    (hx : S.Represented hangs P known midRefs x)
    (hk : ∀ a, S.Represented hangs P (midRefs a ++ known) outputRefs fun i => k i a) :
    S.Represented hangs P known outputRefs fun i => (x i).bindOk (k i) :=
  hx.bind hk fun e => error e

theorem bindError {x : Invoke → Action RunState ο} {k : Invoke → Failure → Action RunState ο}
    (hx : S.Represented hangs P known outputRefs x)
    (hk : ∀ e, S.Represented hangs P known outputRefs fun i => k i e) :
    S.Represented hangs P known outputRefs fun i => (x i).bindError (k i) :=
  hx.bind (fun _ => ok (List.subset_append_left _ _)) hk

/-! ## combinators -/

variable {ι : Type}

theorem andThen {x : Invoke → Extractor RunState ι α} {y : Invoke → Extractor RunState α ο}
    {input : ι} (hx : S.Represented hangs P known midRefs fun i => x i input)
    (hy : ∀ a, S.Represented hangs P (midRefs a ++ known) outputRefs fun i => y i a) :
    S.Represented hangs P known outputRefs fun i => (x i).andThen (y i) input := by
  simp only [Extractor.andThen_apply]
  exact hx.bindOk hy

theorem map {x : Invoke → Extractor RunState ι α} {f : α → ο} {input : ι}
    (hx : S.Represented hangs P known midRefs fun i => x i input)
    (hf : ∀ a, outputRefs (f a) ⊆ midRefs a ++ known) :
    S.Represented hangs P known outputRefs fun i => (x i).map f input := by
  simp only [Extractor.map_apply]
  exact hx.bindOk fun a => ok (hf a)

theorem mapError {x : Invoke → Extractor RunState ι ο} {f : Failure → ι → Failure} {input : ι}
    (hx : S.Represented hangs P known outputRefs fun i => x i input) :
    S.Represented hangs P known outputRefs fun i => (x i).mapError f input := by
  simp only [Extractor.mapError_apply]
  exact hx.bindError fun e => error _

theorem cons_refs (refs : ο → List SlotId) (a : ο) (as : List ο) (known : List SlotId) :
    (a :: as).flatMap refs ⊆ as.flatMap refs ++ (refs a ++ known) := by
  intro t ht
  simp only [List.flatMap_cons, List.mem_append] at ht ⊢
  rcases ht with ht | ht
  · exact .inr (.inl ht)
  · exact .inl ht

theorem firstOfAfter {l : List β} {x : β → Invoke → Extractor RunState ι ο} {input : ι}
    (h : ∀ b ∈ l, S.Represented hangs P known outputRefs fun i => x b i input)
    (last : Failure) :
    S.Represented hangs P known outputRefs fun i =>
      Extractor.firstOfAfter last (l.map fun b => x b i) input := by
  induction l generalizing last with
  | nil => exact error last
  | cons b l ih =>
    simp only [List.map_cons, Extractor.firstOfAfter_cons]
    exact (h b List.mem_cons_self).bindError fun e => ih (fun b hb => h b (.tail _ hb)) e

theorem each {x : Invoke → Extractor RunState ι ο} {inputs : List ι}
    (h : ∀ input ∈ inputs, S.Represented hangs P known outputRefs fun i => x i input) :
    S.Represented hangs P known (fun os => os.flatMap outputRefs) fun i =>
      (x i).each inputs := by
  induction inputs with
  | nil => exact ok (List.nil_subset _)
  | cons input inputs ih =>
    simp only [Extractor.each_cons]
    refine (h input List.mem_cons_self).bindOk fun a => ?_
    refine ((ih fun b hb => h b (.tail _ hb)).learn (List.subset_append_right _ _)).bindOk ?_
    exact fun as => ok (cons_refs outputRefs a as known)

theorem all {l : List β} {x : β → Invoke → Extractor RunState ι ο} {input : ι}
    (h : ∀ b ∈ l, S.Represented hangs P known outputRefs fun i => x b i input) :
    S.Represented hangs P known (fun os => os.flatMap outputRefs) fun i =>
      Extractor.all (l.map fun b => x b i) input := by
  simp only [Extractor.all_map]
  exact each h

theorem kept {x : Invoke → Extractor RunState ι ο} {inputs : List ι}
    (h : ∀ input ∈ inputs, S.Represented hangs P known outputRefs fun i => x i input) :
    S.Represented hangs P known (fun os => os.flatMap outputRefs) fun i =>
      (x i).kept inputs := by
  induction inputs with
  | nil => exact ok (List.nil_subset _)
  | cons input inputs ih =>
    simp only [Extractor.kept_cons]
    have hrest := ih fun b hb => h b (.tail _ hb)
    refine (h input List.mem_cons_self).bind (fun a => ?_) fun e => hrest
    refine (hrest.learn (List.subset_append_right _ _)).bindOk ?_
    exact fun as => ok (cons_refs outputRefs a as known)

end Represented
end Setting
end ShaclExtract
