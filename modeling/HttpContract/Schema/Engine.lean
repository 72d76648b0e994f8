import HttpContract.Schema.Planning

/-!
# Engines

An engine is a frozen registry: its options, and the compiled schema of every defined handle. All
fragments compiled against one engine can refer to these. `Engine.ofRegistry` rejects registries
whose schemas refer to each other without consuming any data.

The walks along compiled schemas count their steps. `Engine.budget` is the number they start with,
and `firstOutcome` adds steps until they suffice.
-/

namespace HttpContract

/-- A frozen registry. -/
structure Engine where
  options : Options
  context : Planning.Context
  /-- The compiled schemas of the handles that have one. -/
  entries : List (Option CompiledSchema)

namespace Engine

/-- An engine without registry. -/
def ofOptions (o : Options) : Engine := ⟨o, ⟨[], []⟩, []⟩

/-- The compiled schema of a handle. -/
def entry? (e : Engine) (handle : Nat) : Option CompiledSchema := (e.entries[handle]?).bind id

/-- The compiled schema that a node stands for, if it is a reference that leads somewhere. -/
def resolve? (e : Engine) : Node → Option CompiledSchema
  | .plan _ => none
  | .inline root evaluator source => some ⟨root, evaluator, source⟩
  | .deferred handle => e.entry? handle

/-- Compile a fragment against the engine. -/
def compile (e : Engine) (f : Fragment) : Except CompileError CompiledSchema :=
  Planning.compile e.context e.options f.document ""

/-! ## Cycles -/

/-- How far the search for cycles has got with a handle. -/
inductive Mark where
  | fresh
  | active
  | done
deriving DecidableEq

/-- The handles that a compiled entry refers to at the same place of the value. -/
def edges (entries : List (Option CompiledSchema)) (handle : Nat) : List Nat :=
  match entries[handle]? with
  | some (some s) => s.root.sameLocation
  | _ => []

/-- Search depth first for a way back to an active handle, which is returned as the error. At most
`fuel` handles can be active at once. -/
def visit (entries : List (Option CompiledSchema)) : (fuel : Nat) → Nat → List Mark →
    Except Nat (List Mark)
  | 0, _, marks => .ok marks
  | fuel + 1, handle, marks =>
    match marks[handle]? with
    | none => .ok marks
    | some .done => .ok marks
    | some .active => .error handle
    | some .fresh => do
      let marks ← (edges entries handle).foldlM (fun marks next => visit entries fuel next marks)
        (marks.set handle .active)
      return marks.set handle .done

/-- The first handle found to lead back to itself. -/
def cycle? (entries : List (Option CompiledSchema)) : Option Nat :=
  let search := (List.range entries.length).foldlM
    (fun marks handle => visit entries (entries.length + 1) handle marks)
    (entries.map (fun _ => Mark.fresh))
  match search with
  | .error handle => some handle
  | .ok _ => none

/-! ## Freezing -/

/-- The entries of a registry with their handles. -/
def numbered (r : Registry) : List (Nat × Registry.Entry) :=
  (List.range r.entries.length).zip r.entries

/-- The place of an entry's schema in messages. -/
def entryPath (e : Registry.Entry) : String := e.name ++ "#"

/-- The document of a defined handle, in the form evaluators read. -/
def resourceOf (defined : List Bool) (handle : Nat) (e : Registry.Entry) :
    Except CompileError (Option Resource) :=
  match e.schema with
  | none => .ok none
  | some f => do
    let (document, _) ← EvaluationForm.rewrite defined f.document (entryPath e) false
    return some ⟨EvaluationForm.resourceUri handle, document⟩

/-- Compile the schema of an entry. -/
def entryOf (c : Planning.Context) (o : Options) (e : Registry.Entry) :
    Except CompileError (Option CompiledSchema) :=
  match e.schema with
  | none => .ok none
  | some f => (Planning.compile c o f.document (entryPath e)).map some

/-- Freeze a registry. -/
def ofRegistry (o : Options) (r : Registry) : Except CompileError Engine := do
  let defined := r.definedFlags
  let resources ← (numbered r).mapM (fun (handle, e) => resourceOf defined handle e)
  let context : Planning.Context := ⟨defined, resources.filterMap id⟩
  let entries ← r.entries.mapM (entryOf context o)
  match cycle? entries with
  | some handle => throw (.referenceCycle ((r.name? handle).getD ""))
  | none => return ⟨o, context, entries⟩

/-! ## Budgets -/

/-- How large the schemas of the engine are together. -/
def size (e : Engine) : Nat :=
  e.entries.foldl (fun n entry => n + ((entry.map (fun s => s.source.size)).getD 0)) 0

/-- How many steps from schema to schema a value is given: enough for every schema at every level of
the value, where levels may be added by defaults within defaults. -/
def budget (e : Engine) (s : CompiledSchema) (v : Json) : Nat :=
  let n := e.size + s.source.size + 1
  (v.depth + n * n + 2) * (n + 1)

end Engine

/-! ## Searching for a budget -/

section

variable {α : Type} (attempt : Nat → Option α)

/-- An outcome together with the fact that some budget has it. -/
abbrev Found := { outcome : α // ∃ budget, attempt budget = some outcome }

/-- One step of the search: the outcome of a budget, or the budget to try next. -/
def tryBudget (budget : Nat) : Option (Nat ⊕ Option (Found attempt)) :=
  match h : attempt budget with
  | some outcome => some (.inr (some ⟨outcome, budget, h⟩))
  | none => some (.inl (16 * budget + 1))

/-- The outcome of the first budget that suffices, where each one is sixteen times the one before.
There is none where no budget suffices, and then the search goes on for ever. -/
def firstOutcome (budget : Nat) : Option α :=
  ((repeatM (tryBudget attempt) budget).bind id).map (·.val)

theorem firstOutcome_eq (budget : Nat) : firstOutcome attempt budget =
    match attempt budget with
    | some outcome => some outcome
    | none => firstOutcome attempt (16 * budget + 1) := by
  unfold firstOutcome
  rw [repeatM_eq_of_monadTail, repeatM.body, tryBudget]
  split
  · next outcome h => simp [h]
  · next h => simp [h]

end

end HttpContract
