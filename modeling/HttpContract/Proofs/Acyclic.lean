import Mathlib.Order.WellFounded
import HttpContract.Schema.Engine

/-!
# Accepted registries have no cycle at one place of the value

`Engine.cycle?` searches the registry depth first. When it finds nothing, no handle leads back to
itself: the relation "is referred to at the same place" is well-founded (`acc_of_cycle?_eq_none`).
From this follows that a walk can go from schema to schema at one place only finitely often
(`acc_below`), which every proof of termination in this library rests on. Conversely the handle that
the search reports does lead back to itself (`leadsTo_of_cycle?_eq_some`).
-/

namespace HttpContract.Engine

/-! ## The search -/

/-- The schema of handle `a` refers to handle `b` at the same place of the value. -/
def Edge (entries : List (Option CompiledSchema)) (b a : Nat) : Prop := b ∈ edges entries a

/-- Nothing can be reached for ever from the handles that are done with. -/
def Settled (entries : List (Option CompiledSchema)) (marks : List Mark) : Prop :=
  ∀ i, marks[i]? = some .done → Acc (Edge entries) i

variable {entries : List (Option CompiledSchema)}

theorem edges_eq_nil {handle : Nat} (h : entries.length ≤ handle) : edges entries handle = [] := by
  simp [edges, List.getElem?_eq_none h]

theorem acc_of_length_le {handle : Nat} (h : entries.length ≤ handle) :
    Acc (Edge entries) handle := by
  constructor
  intro b hb
  simp [Edge, edges_eq_nil h] at hb

theorem Settled.set {marks : List Mark} (h : Settled entries marks) {handle : Nat} {m : Mark}
    (hm : m = .done → Acc (Edge entries) handle) : Settled entries (marks.set handle m) := by
  intro i hi
  rw [List.getElem?_set] at hi
  split at hi
  · next heq =>
    subst heq
    split at hi
    · exact hm (by simpa using hi)
    · simp at hi
  · exact h i hi

/-- What a search that found no cycle leaves behind. -/
structure Searched (entries : List (Option CompiledSchema)) (marks marks' : List Mark) : Prop where
  length : marks'.length = marks.length
  fresh : marks'.count .fresh ≤ marks.count .fresh
  settled : Settled entries marks'

/-- A search that found no cycle from any of the handles in a list, one after the other, given that
each single search keeps `Searched` and settles its handle. -/
theorem searched_foldlM {bound : Nat} {search : Nat → List Mark → Except Nat (List Mark)}
    (hsearch : ∀ handle marks marks', marks.length = entries.length →
      marks.count .fresh < bound → Settled entries marks → search handle marks = .ok marks' →
        Searched entries marks marks' ∧ Acc (Edge entries) handle) :
    ∀ (handles : List Nat) (marks marks' : List Mark), marks.length = entries.length →
      marks.count .fresh < bound → Settled entries marks →
      handles.foldlM (fun marks next => search next marks) marks = .ok marks' →
        Searched entries marks marks' ∧ ∀ h ∈ handles, Acc (Edge entries) h := by
  intro handles
  induction handles with
  | nil =>
    intro marks marks' _ _ hs h
    have heq : marks = marks' := by simpa [pure, Except.pure] using h
    subst heq
    exact ⟨⟨rfl, Nat.le_refl _, hs⟩, by simp⟩
  | cons handle rest ih =>
    intro marks marks' hlen hfresh hs h
    rw [List.foldlM_cons] at h
    cases hfirst : search handle marks with
    | error at_ => simp [hfirst, bind, Except.bind] at h
    | ok between =>
      rw [hfirst] at h
      rcases hsearch handle marks between hlen hfresh hs hfirst with ⟨hbetween, hacc⟩
      have hlen' : between.length = entries.length := hbetween.length.trans hlen
      have hfresh' : between.count .fresh < bound := Nat.lt_of_le_of_lt hbetween.fresh hfresh
      rcases ih between marks' hlen' hfresh' hbetween.settled h with ⟨hrest, haccs⟩
      refine ⟨⟨hrest.length.trans hbetween.length, Nat.le_trans hrest.fresh hbetween.fresh,
        hrest.settled⟩, ?_⟩
      intro x hx
      rcases List.mem_cons.mp hx with rfl | hx
      · exact hacc
      · exact haccs x hx

/-- A visit that found no cycle settles its handle. The number of fresh handles bounds the depth of
the search, since each handle is fresh no longer once it is visited. -/
theorem searched_visit : ∀ (fuel handle : Nat) (marks marks' : List Mark),
    marks.length = entries.length → marks.count .fresh < fuel → Settled entries marks →
    visit entries fuel handle marks = .ok marks' →
      Searched entries marks marks' ∧ Acc (Edge entries) handle := by
  intro fuel
  induction fuel with
  | zero =>
    intro handle marks marks' _ hfresh
    omega
  | succ fuel ih =>
    intro handle marks marks' hlen hfresh hs h
    unfold visit at h
    split at h
    · next hnone =>
      -- a handle without an entry refers to nothing
      have heq : marks = marks' := by simpa using h
      subst heq
      have hle : entries.length ≤ handle := hlen ▸ List.getElem?_eq_none_iff.mp hnone
      exact ⟨⟨rfl, Nat.le_refl _, hs⟩, acc_of_length_le hle⟩
    · next hdone =>
      -- an earlier visit has settled the handle
      have heq : marks = marks' := by simpa using h
      subst heq
      exact ⟨⟨rfl, Nat.le_refl _, hs⟩, hs handle hdone⟩
    · simp at h
    · next hmark =>
      -- a fresh handle is active while its references are searched, so there is a fresh one less
      rcases List.getElem?_eq_some_iff.mp hmark with ⟨hlt, hget⟩
      have hcount : (marks.set handle .active).count .fresh = marks.count .fresh - 1 := by
        rw [List.count_set hlt, hget]
        rfl
      have hpos : 0 < marks.count .fresh :=
        List.count_pos_iff.mpr (hget ▸ List.getElem_mem hlt)
      cases hall : (edges entries handle).foldlM
          (fun marks next => visit entries fuel next marks) (marks.set handle .active) with
      | error at_ => simp [hall, bind, Except.bind] at h
      | ok between =>
        have hfinal : between.set handle .done = marks' := by
          simpa [hall, bind, Except.bind, pure, Except.pure] using h
        have hlen' : (marks.set handle .active).length = entries.length := by simpa using hlen
        have hfresh' : (marks.set handle .active).count .fresh < fuel := by omega
        have hs' : Settled entries (marks.set handle .active) := hs.set (by simp)
        obtain ⟨hbetween, haccs⟩ := searched_foldlM ih (edges entries handle)
          (marks.set handle .active) between hlen' hfresh' hs' hall
        have hacc : Acc (Edge entries) handle := ⟨_, fun b hb => haccs b hb⟩
        have hlength : between.length = marks.length := by simpa using hbetween.length
        have hle : (between.set handle .done).count .fresh ≤ between.count .fresh := by
          rw [List.count_set (hlength ▸ hlt)]
          simp
        have hfewer := hbetween.fresh
        subst hfinal
        exact ⟨⟨by simpa using hlength, by omega, hbetween.settled.set (fun _ => hacc)⟩, hacc⟩

/-- When the search finds no cycle there is none, not even one that goes on for ever. -/
theorem acc_of_cycle?_eq_none (h : cycle? entries = none) (handle : Nat) :
    Acc (Edge entries) handle := by
  rcases Nat.lt_or_ge handle entries.length with hlt | hge
  · unfold cycle? at h
    dsimp only at h
    split at h
    · simp at h
    · next marks hmarks =>
      -- at the start every handle is fresh, and there are fewer than there are steps
      have hstart : Settled entries (entries.map (fun _ => Mark.fresh)) := by
        intro i hi
        rw [List.getElem?_map, Option.map_eq_some_iff] at hi
        rcases hi with ⟨_, _, hmark⟩
        cases hmark
      have hcount : (entries.map (fun _ => Mark.fresh)).count .fresh < entries.length + 1 := by
        have hle : (entries.map (fun _ => Mark.fresh)).count .fresh ≤ _ := List.count_le_length
        rw [List.length_map] at hle
        omega
      have haccs : ∀ i ∈ List.range entries.length, Acc (Edge entries) i :=
        (searched_foldlM (searched_visit (entries.length + 1)) (List.range entries.length) _ marks
          (by simp) hcount hstart hmarks).2
      exact haccs handle (List.mem_range.mpr hlt)
  · exact acc_of_length_le hge

/-! ## Cycles that the search finds -/

/-- From the first handle references lead to the second, at one place of the value. -/
abbrev LeadsTo (entries : List (Option CompiledSchema)) : Nat → Nat → Prop :=
  Relation.TransGen (fun a b => b ∈ edges entries a)

/-- The active handles are among those that lead to the given one. -/
def Led (entries : List (Option CompiledSchema)) (marks : List Mark) (handle : Nat) : Prop :=
  ∀ a : Nat, marks[a]? = some .active → LeadsTo entries a handle

/-- No handle has become active. -/
def NoneEntered (marks marks' : List Mark) : Prop :=
  ∀ a : Nat, marks'[a]? = some .active → marks[a]? = some .active

theorem NoneEntered.trans {marks between marks' : List Mark} (h : NoneEntered marks between)
    (h' : NoneEntered between marks') : NoneEntered marks marks' :=
  fun a ha => h a (h' a ha)

/-- What a search may come to: either no handle has become active, or it reports a handle that leads
to itself. -/
def Reports (entries : List (Option CompiledSchema)) (marks : List Mark) :
    Except Nat (List Mark) → Prop
  | .ok marks' => NoneEntered marks marks'
  | .error handle => LeadsTo entries handle handle

theorem reports_foldlM {search : Nat → List Mark → Except Nat (List Mark)}
    (hsearch : ∀ handle marks, Led entries marks handle →
      Reports entries marks (search handle marks)) :
    ∀ (handles : List Nat) (marks : List Mark), (∀ h ∈ handles, Led entries marks h) →
      Reports entries marks (handles.foldlM (fun marks next => search next marks) marks) := by
  intro handles
  induction handles with
  | nil => exact fun marks _ a ha => ha
  | cons handle rest ih =>
    intro marks hled
    have hfirst := hsearch handle marks (hled handle List.mem_cons_self)
    rw [List.foldlM_cons]
    cases hsearched : search handle marks with
    | error found =>
      rw [hsearched] at hfirst
      exact hfirst
    | ok between =>
      rw [hsearched] at hfirst
      -- what is active afterwards was active before, so it still leads to the other handles
      have hrest : ∀ h ∈ rest, Led entries between h :=
        fun h hh a ha => hled h (List.mem_cons_of_mem _ hh) a (hfirst a ha)
      have hothers := ih between hrest
      change Reports entries marks (rest.foldlM (fun marks next => search next marks) between)
      cases hall : rest.foldlM (fun marks next => search next marks) between with
      | error found =>
        rw [hall] at hothers
        exact hothers
      | ok marks' =>
        rw [hall] at hothers
        exact NoneEntered.trans hfirst hothers

/-- A visit reports only what leads to itself, as long as the active handles lead to the one that is
visited: coming upon an active handle closes a circle. -/
theorem reports_visit : ∀ (fuel handle : Nat) (marks : List Mark), Led entries marks handle →
    Reports entries marks (visit entries fuel handle marks) := by
  intro fuel
  induction fuel with
  | zero => exact fun handle marks _ a ha => ha
  | succ fuel ih =>
    intro handle marks hled
    unfold visit
    split
    · exact fun a ha => ha
    · exact fun a ha => ha
    · next hactive => exact hled handle hactive
    · next hfresh =>
      have hnext : ∀ next ∈ edges entries handle,
          Led entries (marks.set handle .active) next := by
        intro next hnext a ha
        by_cases heq : a = handle
        · exact .single (heq ▸ hnext)
        · rw [List.getElem?_set_ne (Ne.symm heq)] at ha
          exact (hled a ha).tail hnext
      have hall := reports_foldlM ih (edges entries handle) _ hnext
      cases hsearched : (edges entries handle).foldlM
          (fun marks next => visit entries fuel next marks) (marks.set handle .active) with
      | error found =>
        rw [hsearched] at hall
        exact hall
      | ok between =>
        rw [hsearched] at hall
        intro a ha
        by_cases heq : a = handle
        · subst heq
          rw [List.getElem?_set_self'] at ha
          cases hget : between[a]? <;> simp [hget] at ha
        · rw [List.getElem?_set_ne (Ne.symm heq)] at ha
          have hbefore := hall a ha
          rwa [List.getElem?_set_ne (Ne.symm heq)] at hbefore

/-- The handle that the search reports leads to itself. -/
theorem leadsTo_of_cycle?_eq_some {handle : Nat} (h : cycle? entries = some handle) :
    LeadsTo entries handle handle := by
  -- at the start no handle is active
  have hstart : ∀ h ∈ List.range entries.length,
      Led entries (entries.map (fun _ => Mark.fresh)) h := by
    intro h _ a ha
    rw [List.getElem?_map, Option.map_eq_some_iff] at ha
    rcases ha with ⟨_, _, hmark⟩
    cases hmark
  have hall := reports_foldlM (reports_visit (entries.length + 1)) _ _ hstart
  unfold cycle? at h
  dsimp only at h
  split at h
  · next found hfound =>
    rw [hfound] at hall
    obtain rfl := Option.some.inj h
    exact hall
  · cases h

theorem not_leadsTo_of_acc (hacc : ∀ handle, Acc (Edge entries) handle) (handle : Nat) :
    ¬ LeadsTo entries handle handle := by
  intro hcycle
  have hedges : WellFounded (Edge entries) := ⟨hacc⟩
  exact hedges.transGen.irrefl.irrefl handle (Relation.transGen_swap.mpr hcycle)

/-- The search finds a cycle exactly if some handle leads to itself. -/
theorem cycle?_eq_none_iff_not_leadsTo :
    cycle? entries = none ↔ ∀ handle, ¬ LeadsTo entries handle handle := by
  refine ⟨fun h => not_leadsTo_of_acc (acc_of_cycle?_eq_none h), fun h => ?_⟩
  cases hfound : cycle? entries with
  | none => rfl
  | some handle => exact absurd (leadsTo_of_cycle?_eq_some hfound) (h handle)

/-- The search finds a cycle exactly if there is one, or a chain that goes on for ever. -/
theorem cycle?_eq_none_iff : cycle? entries = none ↔ ∀ handle, Acc (Edge entries) handle :=
  ⟨acc_of_cycle?_eq_none, fun hacc => cycle?_eq_none_iff_not_leadsTo.mpr (not_leadsTo_of_acc hacc)⟩

/-! ## Steps from schema to schema -/

/-- No chain of references at one place of the value goes on for ever. -/
def Acyclic (e : Engine) : Prop := ∀ handle, Acc (Edge e.entries) handle

/-- Walking along `n` means walking along `m` over the same value. -/
inductive Below (e : Engine) : Node → Node → Prop where
  | branch {p : Plan Node} {m : Node} (h : m ∈ p.allOf) : Below e m (.plan p)
  | reference {n : Node} {s : CompiledSchema} (h : e.resolve? n = some s) : Below e s.root n

theorem mem_edges_iff {handle next : Nat} : next ∈ edges entries handle ↔
    ∃ s, (entries[handle]?).bind id = some s ∧ next ∈ s.root.sameLocation := by
  unfold edges
  rcases entries[handle]? with _ | _ | s <;> simp

-- A node leads to handles only through its own tree, so the recursion is on the tree and stops at
-- handles, for which it is given that their schemas are accessible.
mutual

theorem acc_below_of_sameLocation {e : Engine} : ∀ n : Node,
    (∀ handle ∈ n.sameLocation, ∀ s, e.entry? handle = some s → Acc (Below e) s.root) →
      Acc (Below e) n
  | .deferred handle, h => by
    constructor
    intro m hm
    cases hm with
    | reference hres => exact h handle (by simp [Node.sameLocation]) _ hres
  | .inline root evaluator source, h => by
    constructor
    intro m hm
    cases hm with
    | reference hres =>
      have heq : (⟨root, evaluator, source⟩ : CompiledSchema) = _ := Option.some.inj hres
      subst heq
      exact acc_below_of_sameLocation root (by simpa [Node.sameLocation] using h)
  | .plan ⟨_, _, _, _, _, _, _, _, _, allOf, applied⟩, h => by
    constructor
    intro m hm
    cases hm with
    | branch hmem =>
      have hbranches : ∀ handle ∈ Node.sameLocationAll allOf, ∀ s, e.entry? handle = some s →
          Acc (Below e) s.root := by
        intro handle hh
        refine h handle ?_
        rw [Node.sameLocation]
        exact List.mem_append_right applied hh
      exact acc_below_of_sameLocationAll allOf hbranches m hmem
    | reference hres => simp [resolve?] at hres
termination_by structural n => n

theorem acc_below_of_sameLocationAll {e : Engine} : ∀ ns : List Node,
    (∀ handle ∈ Node.sameLocationAll ns, ∀ s, e.entry? handle = some s → Acc (Below e) s.root) →
      ∀ n ∈ ns, Acc (Below e) n
  | [], _, n, hn => by simp at hn
  | first :: rest, h, n, hn => by
    have hmem : ∀ handle, handle ∈ first.sameLocation ∨ handle ∈ Node.sameLocationAll rest →
        handle ∈ Node.sameLocationAll (first :: rest) := by
      intro handle hh
      rw [Node.sameLocationAll]
      exact List.mem_append.mpr hh
    rcases List.mem_cons.mp hn with heq | hn
    · rw [heq]
      exact acc_below_of_sameLocation first (fun handle hh => h handle (hmem handle (Or.inl hh)))
    · exact acc_below_of_sameLocationAll rest
        (fun handle hh => h handle (hmem handle (Or.inr hh))) n hn
termination_by structural ns => ns

end

/-- At one place of the value a walk goes from schema to schema only finitely often. -/
theorem acc_below {e : Engine} (h : e.Acyclic) (n : Node) : Acc (Below e) n := by
  -- by induction along the references between handles
  have hroot : ∀ handle s, e.entry? handle = some s → Acc (Below e) s.root := by
    intro handle
    induction h handle with
    | intro handle _ ih =>
      intro s hs
      refine acc_below_of_sameLocation s.root (fun next hnext => ih next ?_)
      exact mem_edges_iff.mpr ⟨s, hs, hnext⟩
  exact acc_below_of_sameLocation n (fun handle _ => hroot handle)

/-! ## Accepted registries -/

/-- Freezing a registry succeeds when all documents can be rewritten, all schemas compile and no
schema leads back to itself. -/
theorem ofRegistry_eq_ok_iff {o : Options} {r : Registry} {e : Engine} :
    ofRegistry o r = .ok e ↔ ∃ resources entries,
      (numbered r).mapM (fun x => resourceOf r.definedFlags x.1 x.2) = .ok resources ∧
        r.entries.mapM (entryOf ⟨r.definedFlags, resources.filterMap id⟩ o) = .ok entries ∧
          cycle? entries = none ∧ e = ⟨o, ⟨r.definedFlags, resources.filterMap id⟩, entries⟩ := by
  unfold ofRegistry
  constructor
  · intro h
    cases hres : (numbered r).mapM (fun x => resourceOf r.definedFlags x.1 x.2) with
    | error err => simp [hres, bind, Except.bind] at h
    | ok resources =>
      simp only [hres, bind, Except.bind] at h
      cases hent : r.entries.mapM (entryOf ⟨r.definedFlags, resources.filterMap id⟩ o) with
      | error err =>
        rw [hent] at h
        cases h
      | ok entries =>
        simp only [hent] at h
        cases hcyc : cycle? entries with
        | some handle => simp [hcyc, throw, throwThe, MonadExceptOf.throw] at h
        | none =>
          simp only [hcyc, pure, Except.pure, Except.ok.injEq] at h
          exact ⟨resources, entries, rfl, hent, hcyc, h.symm⟩
  · rintro ⟨resources, entries, hres, hent, hcyc, rfl⟩
    simp only [hres, hent, hcyc, bind, Except.bind, pure, Except.pure]

/-- What an accepted registry gives: the options it was frozen with, and no cycle. -/
theorem ofRegistry_eq_ok {o : Options} {r : Registry} {e : Engine} (h : ofRegistry o r = .ok e) :
    e.options = o ∧ e.Acyclic := by
  rcases ofRegistry_eq_ok_iff.mp h with ⟨resources, entries, _, _, hcyc, rfl⟩
  exact ⟨rfl, acc_of_cycle?_eq_none hcyc⟩

/-- Options that schemas compile alike under give the same engine, apart from the options. -/
theorem ofRegistry_of_entryOf {o o' : Options} {r : Registry} {e : Engine}
    (h : ofRegistry o r = .ok e) (hentry : ∀ c, entryOf c o' = entryOf c o) :
    ofRegistry o' r = .ok { e with options := o' } := by
  rcases ofRegistry_eq_ok_iff.mp h with ⟨resources, entries, hres, hent, hcyc, rfl⟩
  rw [← hentry] at hent
  exact ofRegistry_eq_ok_iff.mpr ⟨resources, entries, hres, hent, hcyc, rfl⟩

end HttpContract.Engine
