import HttpContract.Proofs.AcceptedTexts
import HttpContract.Proofs.Satisfaction

/-!
# Conversion leaves valid values alone

What a validator accepts as it is has the declared types wherever a plan stands, as far as the
evaluators look at them. A validator that converts values then finds nothing to convert, and leaves
the value as it is (`Engine.value_of_success_passive`).
-/

namespace HttpContract

namespace Normalization

open Planning (Accords)

variable {o : Options} {r : Registry} {e e' : Engine}

theorem Reaches.congr (hresolve : ∀ n, e.resolve? n = e'.resolve? n) {n m : Node}
    (h : Reaches e n m) : Reaches e' n m := by
  induction h with
  | here => exact .here
  | reference _ hs ih => exact .reference ih (hresolve _ ▸ hs)
  | property _ hm ih => exact .property ih hm
  | pattern _ hm ih => exact .pattern ih hm
  | additional _ hm ih => exact .additional ih hm
  | leading _ hm ih => exact .leading ih hm
  | items _ hm ih => exact .items ih hm
  | branch _ hm ih => exact .branch ih hm

theorem Specified.congr (hresolve : ∀ n, e.resolve? n = e'.resolve? n) {n : Node}
    (h : Specified e n) : Specified e' n :=
  fun m s hm hs => h m s (hm.congr (fun k => (hresolve k).symm)) ((hresolve m).trans hs)

/-- Where all references accept what stands there, everything is in accordance with the schema that
stands there. -/
theorem accords_of_stands (hr : Engine.ofRegistry o r = .ok e)
    (hregistry : ∀ handle g, r.get? handle = some g → g.document.Ordered) {n m : Node}
    {v u : Json} {path : List Step} (h : Stands e n v path m u) : v.Ordered → Specified e n →
      Satisfied e n v → Accords e.context n v → Accords e.context m u := by
  induction h with
  | here => exact fun _ _ _ haccords => haccords
  | reference hs _ ih =>
    intro hv hspecified hsatisfied haccords
    rcases (satisfied_iff_of_resolve? hs).mp hsatisfied with ⟨haccepts, hroot⟩
    exact ih hv (hspecified.of_reaches (.reference .here hs)) hroot
      (accords_of_reference hr hregistry haccords hs (hspecified _ _ .here hs) haccepts)
  | branch hn _ ih =>
    intro hv hspecified hsatisfied haccords
    exact ih hv (hspecified.of_reaches (.branch .here hn))
      ((satisfied_plan_iff.mp hsatisfied).1 _ hn) (haccords.branch hn)
  | member hmem hn _ ih =>
    intro hv hspecified hsatisfied haccords
    exact ih (Json.ordered_of_mem hv.2 hmem)
      (hspecified.of_reaches (reaches_of_mem_memberNodes hn))
      ((satisfied_plan_iff.mp hsatisfied).2.1 _ rfl _ hmem _ hn)
      (haccords.member hn (Fields.get?_of_mem hv.1 hmem))
  | item hitem hn _ ih =>
    intro hv hspecified hsatisfied haccords
    exact ih (Json.ordered_of_mem_items hv (List.mem_of_getElem? hitem))
      (hspecified.of_reaches (reaches_of_mem_itemNodes hn))
      ((satisfied_plan_iff.mp hsatisfied).2.2 _ rfl _ _ hitem _ hn) (haccords.item hn hitem)

/-- A value of a declared type is not converted. -/
theorem coerced_of_admitted {types : List JsonType} {v : Json}
    (h : types = [] ∨ Coercion.admitted types v = true) : coerced o types v = v := by
  unfold coerced
  rcases h with rfl | h
  · simp
  · simp [h]

/-- In a value that satisfies all schemas nothing is converted. -/
theorem steady_of_satisfied (hr : Engine.ofRegistry o r = .ok e)
    (hregistry : ∀ handle g, r.get? handle = some g → g.document.Ordered) {n : Node} {v : Json}
    (hv : v.Ordered) (hspecified : Specified e n) (hsatisfied : Satisfied e n v)
    (haccords : Accords e.context n v) : Steady e n v :=
  fun _ _ _ hp =>
    coerced_of_admitted (accords_of_stands hr hregistry hp hv hspecified hsatisfied haccords).types

end Normalization

namespace Engine

open Normalization

variable {o : Options} {r : Registry} {e : Engine} {f : Fragment} {s : CompiledSchema} {v : Json}

/-- The engine of the same registry that converts values. -/
def converting (e : Engine) : Engine := { e with options := { e.options with coerceTypes := true } }

theorem ofRegistry_converting (h : ofRegistry o r = .ok e) :
    ofRegistry { o with coerceTypes := true } r = .ok e.converting := by
  rw [converting, (ofRegistry_eq_ok h).1]
  exact ofRegistry_of_entryOf h (fun _ => rfl)

theorem resolve?_converting (e : Engine) (n : Node) : e.converting.resolve? n = e.resolve? n := by
  cases n <;> rfl

/-- What a passive validator accepts, the validator that converts values accepts too, and leaves as
it is, if the schemas name the specification in force or none. -/
theorem value_of_success_passive (ho : o.Passive) (hr : ofRegistry o r = .ok e)
    (hs : e.compile f = .ok s)
    (hregistry : ∀ handle g, r.get? handle = some g → g.document.Ordered)
    (hf : f.document.Ordered)
    (hspecification : Library.followsSpecification s.evaluator.root = true)
    (hspecified : Specified e s.root) (hv : v.Ordered)
    (hsuccess : (e.validate s v).verdict.success = true) :
    ∃ e', ofRegistry { o with coerceTypes := true } r = .ok e' ∧ e'.compile f = .ok s ∧
      (e'.validate s v).verdict.success = true ∧ (e'.validate s v).value = v := by
  have hpassive : e.options.Passive := (ofRegistry_eq_ok hr).1 ▸ ho
  rcases (validate_of_steady hr ho.keeping (.of_passive hpassive)).2.mp hsuccess with
    ⟨haccepts, hsatisfied⟩
  have hresolve : ∀ n, e.resolve? n = e.converting.resolve? n :=
    fun n => (resolve?_converting e n).symm
  have hconverting := ofRegistry_converting hr
  have haccords := Planning.accords_of_compiled (Planning.compiled_of_compile hs) hf hspecification
    haccepts
  have hsteady : Steady e.converting s.root v := steady_of_satisfied hconverting hregistry hv
    (hspecified.congr hresolve) (hsatisfied.congr hresolve) haccords
  rcases validate_of_steady hconverting ho.keeping hsteady with ⟨hvalue, hverdict⟩
  exact ⟨_, hconverting, hs, hverdict.mpr ⟨haccepts, hsatisfied.congr hresolve⟩, hvalue⟩

/-- A tree of the declared types stays as it is. -/
theorem value_of_success_passive_sizedTree : ∃ e s,
    Options.standard.passive.Passive ∧ ofRegistry Options.standard.passive sizedTrees = .ok e ∧
    e.compile sizedTree = .ok s ∧
    (∀ handle g, sizedTrees.get? handle = some g → g.document.Ordered) ∧
    sizedTree.document.Ordered ∧ Library.followsSpecification s.evaluator.root = true ∧
    Specified e s.root ∧ leftTree.Ordered ∧ (e.validate s leftTree).verdict.success = true ∧
    ∃ e', ofRegistry { Options.standard.passive with coerceTypes := true } sizedTrees = .ok e' ∧
      e'.compile sizedTree = .ok s ∧ (e'.validate s leftTree).verdict.success = true ∧
      (e'.validate s leftTree).value = leftTree := by
  rcases exists_ofRegistry_sizedTrees with ⟨l, l', he, hs⟩
  have hpassive := ofRegistry_passive he
  have hspecified : Specified (sizedEngine l).passive (sizedSchema l').root :=
    (specified_sizedTree l l').congr (fun n => (resolve?_passive _ n).symm)
  have hordered : leftTree.Ordered := by
    simp [leftTree, Json.ofNat, Json.Ordered, Json.OrderedMembers, Fields.Ordered]
  have hsuccess :
      ((sizedEngine l).passive.validate (sizedSchema l') leftTree).verdict.success = true := by
    have hturns := sound_walk (e := (sizedEngine l).passive) 3 (sizedSchema l').root ⟨"", ""⟩ true
      leftTree ⟨leftTree, []⟩ rfl
    refine (validate_of_leaves ⟨true, hturns, ?_⟩).2
    exact (Bool.and_true _).symm ▸ (accepts_sizedDocument l').symm
  exact ⟨_, _, ⟨rfl, rfl, rfl⟩, hpassive, hs, ordered_sizedTrees, ordered_sizedTree, rfl,
    hspecified, hordered, hsuccess, value_of_success_passive ⟨rfl, rfl, rfl⟩ hpassive hs
      ordered_sizedTrees ordered_sizedTree rfl hspecified hordered hsuccess⟩

/-! ## A schema that names another specification -/

/-- A schema of texts that names an earlier specification. -/
def dated : Fragment :=
  .ofMembers [("$schema", .str "http://json-schema.org/draft-07/schema#"), ("type", .str "string")]

/-- The compiled schema, with any evaluator. -/
def datedSchema (ev : Evaluator) : CompiledSchema :=
  ⟨.plan { Plan.empty with types := [.string] }, ev, dated.document⟩

theorem exists_compile_dated (o : Options) : ∃ ev, ev.root = dated.document ∧
    (ofOptions o).compile dated = .ok (datedSchema ev) := by
  have hfindings : Metaschema.evaluator.findings dated.document = [] :=
    Metaschema.findings_of_accepted (Metaschema.accepted_dated _ .string) (by decide)
  obtain ⟨l, hbuild⟩ : ∃ l, Evaluator.build dated.document [] = .ok ⟨l, Evaluator.defaultBase, _⟩ :=
    Evaluator.exists_build rfl hfindings (by decide +kernel)
  exact ⟨_, rfl, Planning.compile_of_build _ o _ _ (fun _ => rfl) rfl hbuild⟩

/-- Evaluation passes over the type. -/
theorem accepts_dated {ev : Evaluator} (h : ev.root = dated.document) (v : Json) :
    ev.accepts v = true := by
  rcases Evaluator.exists_steps ev v with ⟨n, hn⟩
  have hunknown : Library.followsSpecification ev.root = false := by
    rw [h]
    decide +kernel
  unfold Evaluator.accepts Evaluator.findings
  rw [hn, List.isEmpty_iff, h]
  refine Evaluation.judge_members (fun q hq m hm => ?_)
  have hscope : q.scope.known = false := by
    rw [hq]
    exact (Evaluation.within_known _ _).trans hunknown
  have hskipped : Evaluation.universal.contains m.1 = false := by
    rcases List.mem_pair.mp hm with rfl | rfl <;> rfl
  unfold Evaluation.keywordFindings
  rw [hscope, hskipped]
  rfl

/-- A number passes for a text and is left alone, until values are converted. -/
theorem exists_success_passive_and_converted : ∃ e e' s,
    ofRegistry Options.standard.passive .empty = .ok e ∧
    ofRegistry { Options.standard.passive with coerceTypes := true } .empty = .ok e' ∧
    e.compile dated = .ok s ∧ e'.compile dated = .ok s ∧
    (e.validate s (.ofNat 1)).verdict.success = true ∧
    (e'.validate s (.ofNat 1)).value = .str "1" := by
  rcases exists_compile_dated Options.standard.passive with ⟨ev, hroot, hs⟩
  refine ⟨_, _, datedSchema ev, ofRegistry_empty _, ofRegistry_empty _, hs, hs, ?_, ?_⟩
  · have hturns := sound_walk (e := ofOptions Options.standard.passive) 3 (datedSchema ev).root
      ⟨"", ""⟩ true (.ofNat 1) ⟨.ofNat 1, []⟩ rfl
    refine (validate_of_leaves ⟨true, hturns, ?_⟩).2
    exact (Bool.and_true _).symm ▸ (accepts_dated hroot _).symm
  · have hturns := sound_walk
      (e := ofOptions { Options.standard.passive with coerceTypes := true }) 3
      (datedSchema ev).root ⟨"", ""⟩ true (.ofNat 1) ⟨.str "1", []⟩ rfl
    exact (validate_of_leaves ⟨true, hturns, rfl⟩).1

end Engine

end HttpContract
