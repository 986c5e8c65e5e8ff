import ShaclExtract.Proofs.Dialogue.Upkeep
import ShaclExtract.Proofs.Memo.Chains
import ShaclExtract.Proofs.Schema.Acceptance

/-!
# ShaclExtract.Proofs.Schema.Origins

Where the values in the slots come from, whatever was run before. Every slot holds what the program
of some routine gives at a node (`Program.Gives`), with references to the slots of the calls that it
made. Of a shape, an optional property is left out only if its hops are not accepted, and an
alternative is given only if those before it are not accepted, where accepted is what
`Setting.acceptance` has as its greatest fixpoint; so neither depends on the memo.

What the classes contribute to a merged record does depend on the memo that they are merged in, and
is left open here (`Contribution`).
-/

namespace ShaclExtract

open Setting.Represented (mergeFields)

/-- A value that nothing is left to follow or to wait for. -/
structure Value.Final (v : Value) : Prop where
  not_ref : ∀ id, v ≠ .ref id
  not_pending : v ≠ .pending

/-- What a class contributes when dispatch merges at a view in a memo. -/
abbrev Contribution := Memo → View → Iri → Value → Prop

def Contribution.Lasting (C : Contribution) : Prop :=
  ∀ m m' view cls w, m.KeptBy m' → C m view cls w → C m' view cls w

/-- The program of a class or of dispatch ends with the value at the view. -/
inductive Program.Gives (S : Setting) (Z : Calls) (C : Contribution) (m : Memo) :
    Program → View → Value → Prop where
  | description {view : View} :
      Gives S Z C m .description view (.quads (view.graph.description view.focus))
  | context {view : View} : Gives S Z C m .context view (.record view.record)
  | path {view : View} {p : Path} : Path.read view.graph view.focus = some (.ok p) →
      Gives S Z C m .path view (.path p)
  | untyped {view : View} : view.types = [] → Gives S Z C m .typed view .null
  | typed {view : View} {slot : SlotId} : view.types ≠ [] →
      m.lookup (.of (.routine .dispatch) view.focus) = some slot →
      Gives S Z C m .typed view (.ref slot)
  | single {view : View} {cls : Iri} {slot : SlotId} : S.applicable view = [cls] →
      m.lookup (classKey cls view.focus) = some slot → Gives S Z C m .dispatch view (.ref slot)
  | merged {view : View} {ws : List Value} : 2 ≤ (S.applicable view).length →
      List.Forall₂ (fun cls w => (∃ slot, m.lookup (classKey cls view.focus) = some slot) ∧
        C m view cls w) (S.applicable view) ws →
      Gives S Z C m .dispatch view (.record (ws.foldl mergeFields []))
  | shape {view : View} {sh : Shape} {entries : List Record} :
      List.Forall₂ (fun f r => f.Fills S.environment m view r ∨ r = [] ∧ f.minCount = 0 ∧
        ¬ f.Satisfied S.environment view.graph Z.pairs view.focus) sh.properties entries →
      Gives S Z C m (.shape sh) view (.record (Record.ofList entries.flatten))
  | first {view : View} {p : Program} {ps : List Program} {v : Value} : Gives S Z C m p view v →
      Gives S Z C m (.firstOf (p :: ps)) view v
  | later {view : View} {p : Program} {ps : List Program} {v : Value} : ¬ p.Accepted S Z view →
      Gives S Z C m (.firstOf ps) view v → Gives S Z C m (.firstOf (p :: ps)) view v

namespace Program.Gives

variable {S : Setting} {Z : Calls} {C : Contribution} {m m' : Memo} {p : Program} {view : View}
  {v : Value}

theorem kept (hC : C.Lasting) (h : p.Gives S Z C m view v) (hkept : m.KeptBy m') :
    p.Gives S Z C m' view v := by
  induction h with
  | description => exact .description
  | context => exact .context
  | path h => exact .path h
  | untyped h => exact .untyped h
  | typed h hslot => exact .typed h (hkept.entries _ _ hslot)
  | single h hslot => exact .single h (hkept.entries _ _ hslot)
  | merged h hws =>
    refine .merged h (hws.imp fun cls w hw => ⟨?_, hC _ _ _ _ _ hkept hw.2⟩)
    obtain ⟨slot, hslot⟩ := hw.1
    exact ⟨slot, hkept.entries _ _ hslot⟩
  | shape h => exact .shape (h.imp fun _ _ hr => hr.imp_left fun hr => hr.kept hkept)
  | first _ ih => exact .first ih
  | later hp _ ih => exact .later hp ih

theorem exists_mem {ps : List Program} (h : Gives S Z C m (.firstOf ps) view v) :
    ∃ p ∈ ps, p.Gives S Z C m view v := by
  induction ps with
  | nil => cases h
  | cons p ps ih =>
    cases h with
    | first h => exact ⟨p, List.mem_cons_self, h⟩
    | later _ h =>
      obtain ⟨q, hq, h⟩ := ih h
      exact ⟨q, List.mem_cons_of_mem _ hq, h⟩

end Program.Gives

/-! ## what programs give -/

namespace Setting

variable {S : Setting} {Z : Calls} {C : Contribution} {view : View} {depth : Nat}

theorem yields_path (view : View) :
    Yields (fun _ v => ∃ p, v = .path p ∧ Path.read view.graph view.focus = some (.ok p))
      (Program.pathExtractor view) where
  extending s r s' h _ := by
    unfold Program.pathExtractor at h
    split at h
    · cases h
    · cases h
      exact .refl _
    · cases h
      exact .refl _
  lasting _ _ _ _ h := h
  output s v s' _ h := by
    unfold Program.pathExtractor at h
    split at h
    · cases h
    · cases h
    · rename_i p hp
      cases h
      exact ⟨p, rfl, hp⟩

theorem yields_typed (hS : S.Honest) (hC : C.Lasting) (depth : Nat) (view : View) :
    Yields (fun m v => Program.typed.Gives S Z C m view v)
      (Program.typed.extractor S .memoized (S.invoke .memoized depth) view) := by
  have hlasting : ∀ (m m' : Memo) (v : Value), m.KeptBy m' → Program.typed.Gives S Z C m view v →
      Program.typed.Gives S Z C m' view v := fun _ _ _ hkept h => h.kept hC hkept
  simp only [Program.extractor]
  by_cases ht : view.types = []
  · have htyped : typed (S.invoke .memoized depth) view = Action.answer (.ok none) := by
      funext s
      simp only [typed, ht, if_true]
      rfl
    rw [Extractor.map_apply, htyped, Action.bindOk_ok]
    refine (Yields.answer _).mono hlasting ?_
    rintro m v ⟨⟩
    exact .untyped ht
  · have htyped : typed (S.invoke .memoized depth) view =
        (S.invoke .memoized depth .dispatch).map some view := by
      funext s
      simp only [typed, ht, if_false]
    have hsome := (yields_routine hS depth .dispatch view).map (some : Value → Option Value)
    rw [← htyped] at hsome
    refine (hsome.map Value.ofOption).mono hlasting ?_
    rintro m v ⟨_, ⟨w, ⟨slot, rfl, hslot⟩, rfl⟩, rfl⟩
    exact .typed ht hslot

theorem yields_shape (hS : S.Honest) (ht : S.transforms = .empty) (hC : C.Lasting) (depth : Nat)
    (sh : Shape) (view : View)
    (hsafe : ∀ r node, (r, node) ∈ Z → Safe (S.invoke .memoized depth r (view.refocus node))) :
    Yields (fun m v => (Program.shape sh).Gives S Z C m view v)
      ((Program.shape sh).extractor S .memoized (S.invoke .memoized depth) view) := by
  refine (Yields.entries fun t node => yields_element hS ht depth t view node).mono
    (fun _ _ _ hkept h => h.kept hC hkept) ?_
  rintro m v ⟨entries, rfl, hentries⟩
  refine .shape (hentries.imp fun f r hr => hr.imp_right fun ⟨hnil, hmin, hf⟩ => ⟨hnil, hmin, ?_⟩)
  exact fun hsat => hf (.value hsat (fun node hnode => safe_element ht hsafe hnode) sh.target)

/-- Alternatives that are accepted are safe, so none is passed over. -/
theorem yields_firstOf (hC : C.Lasting) {invoke : Invoke} {ps : List Program}
    (hps : ∀ p ∈ ps, Yields (fun m v => p.Gives S Z C m view v)
      (p.extractor S .memoized invoke view))
    (hsafe : ∀ p ∈ ps, p.Accepted S Z view → Safe (p.extractor S .memoized invoke view))
    (last : Failure) :
    Yields (fun m v => (Program.firstOf ps).Gives S Z C m view v)
      (Extractor.firstOfAfter last (ps.map (Program.extractor S .memoized invoke)) view) := by
  have hlasting : ∀ ps, ∀ (m m' : Memo) (v : Value), m.KeptBy m' →
      (Program.firstOf ps).Gives S Z C m view v → (Program.firstOf ps).Gives S Z C m' view v :=
    fun _ _ _ _ hkept h => h.kept hC hkept
  induction ps generalizing last with
  | nil =>
    refine (Yields.answer _).mono (hlasting []) ?_
    rintro m v ⟨⟩
  | cons p ps ih =>
    rw [List.map_cons, Extractor.firstOfAfter_cons]
    have hp := (hps p List.mem_cons_self).mono (hlasting (p :: ps)) fun m v h => .first h
    by_cases haccepted : p.Accepted S Z view
    · rw [(hsafe p List.mem_cons_self haccepted).bindError_eq]
      exact hp
    · refine hp.bindError fun e => (ih (fun q hq => hps q (.tail _ hq))
        (fun q hq => hsafe q (.tail _ hq)) e).mono (hlasting (p :: ps)) fun m v h => ?_
      exact .later haccepted h

end Setting

/-! ## what slots hold -/

def Setting.Origin (S : Setting) (C : Contribution) (view₀ : View) (m : Memo) (key : MemoKey)
    (_ : SlotId) (v : Value) : Prop :=
  ∃ r p node, S.program? r = some p ∧ Path.Within view₀.graph view₀.focus node ∧
    key = .of (.routine r) node ∧
    p.Gives S (S.acceptance view₀.graph).gfp C m ⟨node, view₀.graph⟩ v

theorem Setting.lasting_origin {S : Setting} {C : Contribution} (hC : C.Lasting) {view₀ : View} :
    Memo.Lasting (S.Origin C view₀) := by
  rintro m m' key slot v hkept ⟨r, p, node, hp, hnode, hkey, hgives⟩
  exact ⟨r, p, node, hp, hnode, hkey, hgives.kept hC hkept⟩

/-- No run is unfinished, and every slot holds what a program gives. -/
structure Setting.Finished (S : Setting) (C : Contribution) (view₀ : View) (m : Memo) : Prop where
  tidy : S.Tidy view₀ (S.Origin C view₀) m
  done : ∀ id, m.slot? id ≠ some .pending

namespace Setting.Finished

variable {S : Setting} {C : Contribution} {view₀ : View} {m : Memo} {r : Routine} {node : Term}
  {slot : SlotId}

theorem exists_gives (h : S.Finished C view₀ m)
    (hslot : m.lookup (.of (.routine r) node) = some slot) :
    ∃ p node' v, m.slot? slot = some (.ready v) ∧ S.program? r = some p ∧
      Path.Within view₀.graph view₀.focus node' ∧
      MemoKey.of (.routine r) node = .of (.routine r) node' ∧
      p.Gives S (S.acceptance view₀.graph).gfp C m ⟨node', view₀.graph⟩ v := by
  obtain ⟨v, hv⟩ := h.tidy.ready h.done hslot
  obtain ⟨r', p, node', hp, hnode', hkey, hgives⟩ := h.tidy.holds _ slot v hslot hv
  obtain rfl := MemoKey.routine_eq hkey
  exact ⟨p, node', v, hv, hp, hnode', hkey, hgives⟩

/-- A slot of a node that its key tells apart from others holds what its routine gives there. -/
theorem gives (h : S.Finished C view₀ m) (hslot : m.lookup (.of (.routine r) node) = some slot)
    (hnode : ∀ node', Path.Within view₀.graph view₀.focus node' →
      MemoKey.of (.routine r) node = .of (.routine r) node' → node = node') :
    ∃ p v, m.slot? slot = some (.ready v) ∧ S.program? r = some p ∧
      p.Gives S (S.acceptance view₀.graph).gfp C m ⟨node, view₀.graph⟩ v := by
  obtain ⟨p, node', v, hv, hp, hnear, hkey, hgives⟩ := h.exists_gives hslot
  obtain rfl := hnode node' hnear hkey
  exact ⟨p, v, hv, hp, hgives⟩

theorem gives_of_not_literal (h : S.Finished C view₀ m)
    (hslot : m.lookup (.of (.routine r) node) = some slot) (hnode : ∀ l, node ≠ .literal l) :
    ∃ p v, m.slot? slot = some (.ready v) ∧ S.program? r = some p ∧
      p.Gives S (S.acceptance view₀.graph).gfp C m ⟨node, view₀.graph⟩ v :=
  h.gives hslot fun _ _ hkey => MemoKey.node_eq hkey fun l _ hl => absurd hl (hnode l)

theorem gives_of_distinct (h : S.Finished C view₀ m) (hlit : view₀.LexicallyDistinct)
    (hnode : Path.Within view₀.graph view₀.focus node)
    (hslot : m.lookup (.of (.routine r) node) = some slot) :
    ∃ p v, m.slot? slot = some (.ready v) ∧ S.program? r = some p ∧
      p.Gives S (S.acceptance view₀.graph).gfp C m ⟨node, view₀.graph⟩ v :=
  h.gives hslot fun _ hnode' hkey => hlit.eq_of_key hnode hnode' hkey

end Setting.Finished

namespace Schema

variable {options : Options} {g : Graph} {schema : Schema} {Z : Calls} {C : Contribution}
  {view₀ view : View} {m : Memo} {v : Value}

theorem Registered.final {shapes : List Shape} {cls : Iri} {q : Program}
    (hq : Registered shapes cls q) (h : q.Gives schema.setting Z C m view v) :
    v.Final ∨ q = .typed := by
  cases hq with
  | typedExtract => exact .inr rfl
  | _ =>
    cases h
    exact .inl ⟨by simp, by simp⟩

theorem final_of_class (ho : options.Plain) (hc : compile options g = some (.ok schema)) {cls : Iri}
    (hcls : cls ≠ Rdfl.typedExtract) {p : Program}
    (hp : schema.setting.program? (.ofClass cls) = some p)
    (h : p.Gives schema.setting Z C m view v) : v.Final := by
  obtain ⟨ps, rfl, hps⟩ := registered_of_program? ho hc hp
  obtain ⟨q, hq, hgives⟩ := h.exists_mem
  refine ((hps q hq).final hgives).resolve_right ?_
  rintro rfl
  cases hps _ hq
  exact hcls rfl

theorem yields_program (ho : options.Plain) (hc : compile options g = some (.ok schema))
    (hC : C.Lasting) {cls : Iri} {p : Program}
    (hp : schema.setting.program? (.ofClass cls) = some p) (depth : Nat) (view : View) :
    Yields (fun m v => p.Gives schema.setting (schema.setting.acceptance view.graph).gfp C m view v)
      (p.extractor schema.setting .memoized (schema.setting.invoke .memoized depth) view) := by
  have hS := honest_of_compile ho.honest hc
  have ht := transforms_of_compile ho hc
  have hsafe := Setting.safe_of_mem_gfp ht (g := view.graph) depth
  have hlasting : ∀ p, ∀ (m m' : Memo) (v : Value), m.KeptBy m' →
      Program.Gives schema.setting (schema.setting.acceptance view.graph).gfp C m p view v →
        Program.Gives schema.setting (schema.setting.acceptance view.graph).gfp C m' p view v :=
    fun _ _ _ _ hkept h => h.kept hC hkept
  obtain ⟨ps, rfl, hps⟩ := registered_of_program? ho hc hp
  simp only [Program.extractor, Program.extractors_eq_map, Extractor.firstOf]
  refine Setting.yields_firstOf hC (fun q hq => ?_) (fun q _ hacc => hacc.safe ht hsafe) _
  cases hps q hq with
  | cbd =>
    refine (Yields.answer _).mono (hlasting _) ?_
    rintro m v ⟨⟩
    exact .description
  | pathLens =>
    refine (Setting.yields_path view).mono (hlasting _) ?_
    rintro m v ⟨via, rfl, hread⟩
    exact .path hread
  | context =>
    refine (Yields.answer _).mono (hlasting _) ?_
    rintro m v ⟨⟩
    exact .context
  | typedExtract => exact Setting.yields_typed hS hC depth view
  | shape _ => exact Setting.yields_shape hS ht hC depth _ view hsafe

/-- Slots hold what programs give, if what may be run is ready when it is asked for and dispatch
meets the contributions that it should. -/
theorem upkeep_origin (ho : options.Plain) (hc : compile options g = some (.ok schema))
    (hC : C.Lasting) {Ready : Routine → View → Memo → Prop}
    (hready : ∀ {r r' : Routine} {view view' : View} {m m' : Memo}, Ready r view m → m.Bounded →
      schema.Requests (r, view) (r', view') →
      (m.reserve (.of (.routine r) view.focus)).Grows m' → Ready r' view' m')
    (hmerge : ∀ {view : View} {m m' : Memo}, Ready .dispatch view m → m.Bounded →
      m.lookup (.of (.routine .dispatch) view.focus) = none →
      (m.reserve (.of (.routine .dispatch) view.focus)).Grows m' →
      schema.setting.Tidy view₀ (schema.setting.Origin C view₀) m' →
      ∀ cls slot, m'.lookup (classKey cls view.focus) = some slot →
        C m' view cls (m'.resolve (.ref slot))) :
    schema.setting.Upkeep view₀ Ready (schema.setting.Origin C view₀) where
  lasting := Setting.lasting_origin hC
  asks hp hv hr hm _ name view' hasks := by
    obtain ⟨r', rfl, hrequest⟩ := requests_of_asks ho hc hp hasks
    exact ⟨r', rfl, fun m' hgrows => hready hr hm hrequest hgrows⟩
  value {r p view depth s s₁ v} hp hv hr hs hk hrun htidy hgrows := by
    have hS := honest_of_compile ho.honest hc
    have hbounded := (Memo.extends_reserve hk).bounded hs
    have hkept := Memo.keptBy_settle (Memo.pending_of_extends_reserve hgrows.extension) v
    have hview : (⟨view.focus, view₀.graph⟩ : View) = view := by rw [← hv.1]
    refine ⟨r, p, view.focus, hp, hv.2, rfl, ?_⟩
    rw [hview]
    refine Program.Gives.kept hC ?_ hkept
    cases r with
    | ofClass cls =>
      rw [← hv.1]
      exact (yields_program ho hc hC hp depth view).output _ _ _ hbounded hrun
    | procedure name =>
      rw [program?_procedure ho hc] at hp
      cases hp
    | dispatch =>
      cases hp
      obtain ⟨slots, hslots, ⟨slot, rfl, rfl⟩ | ⟨hlen, rfl⟩⟩ :=
        Setting.dispatch_cases hS (transforms_of_compile ho hc) hbounded hrun
      · obtain ⟨cls, happlicable⟩ := List.length_eq_one_iff.1 hslots.length_eq
        rw [happlicable] at hslots
        cases hslots with
        | cons hslot _ => exact .single happlicable hslot
      · rw [Setting.mergedRecord_eq, List.map_map]
        refine .merged (hslots.length_eq ▸ hlen) (List.forall₂_map_right_iff.2 ?_)
        exact hslots.imp fun cls slot hslot =>
          ⟨⟨slot, hslot⟩, hmerge hr hs hk hgrows htidy cls slot hslot⟩

end Schema
end ShaclExtract
