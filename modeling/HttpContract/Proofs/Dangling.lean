import HttpContract.Proofs.Failures
import HttpContract.Proofs.Places
import HttpContract.Service.Repository

/-!
# References to undefined handles

Compilation fails with an undefined reference only where a marker names a handle without a schema:
if every marker in a schema is for a defined handle (`Resolves`), planning cannot miss one
(`noUndefined_node`), and so neither can the freezing of a registry
(`Engine.noUndefined_ofRegistry`) nor the loading of a table (`Repository.avoids_load`).
-/

namespace HttpContract

/-- A handle without a schema is referred to. -/
def CompileError.IsUndefined (e : CompileError) : Prop :=
  ∃ handle path, e = .undefinedReference handle path

/-- The computation does not fail for a reference to a handle without a schema. -/
abbrev NoUndefined {α : Type} (x : Except CompileError α) : Prop :=
  Avoids CompileError.IsUndefined x

/-- The markers of handles that stand in the document are for defined ones. -/
def Resolves (defined : List Bool) (d : Json) : Prop :=
  ∀ path members handle, d.Within path (.obj members) →
    Marker.ofMembers? members = some (.ok (.deferred handle)) →
      defined[handle]?.getD false = true

namespace Resolves

variable {defined : List Bool}

theorem within {d x : Json} {path : List Step} (h : Resolves defined d) (hx : d.Within path x) :
    Resolves defined x :=
  fun rest members handle hmembers => h (path ++ rest) members handle (hx.trans hmembers)

/-- A document without objects has no markers. -/
theorem of_not_within {d : Json} (h : ∀ path members, ¬ d.Within path (.obj members)) :
    Resolves defined d :=
  fun path members _ hwithin _ => absurd hwithin (h path members)

theorem of_mem {members : Fields Json} (h : Resolves defined (.obj members)) :
    ∀ m ∈ members, Resolves defined m.2 :=
  fun _ hm => h.within (.member hm .here)

theorem of_mem_items {items : List Json} (h : Resolves defined (.arr items)) :
    ∀ x ∈ items, Resolves defined x := by
  intro x hx
  obtain ⟨i, hi⟩ := List.mem_iff_getElem?.mp hx
  exact h.within (.item hi .here)

end Resolves

/-! ## Compilation -/

section

variable {defined : List Bool}

/-- Where markers stand does not matter for which handles they are for. -/
theorem spreads_resolves : Spreads (fun d _ => Resolves defined d) where
  member h := h.of_mem
  item h _ _ hi := h.of_mem_items _ (List.mem_of_getElem? hi)

theorem excludes_isUndefined_of {S : Json → String → Prop}
    (h : ∀ members path handle, S (.obj members) path →
      Marker.ofMembers? members = some (.ok (.deferred handle)) →
        defined[handle]?.getD false = true) : Excludes defined CompileError.IsUndefined S where
  undefinedReference hS hmarker hundefined := by
    rw [h _ _ _ hS hmarker] at hundefined
    cases hundefined
  invalidSchema path reason := by
    rintro ⟨handle, path', heq⟩
    cases heq

theorem excludes_isUndefined :
    Excludes defined CompileError.IsUndefined (fun d _ => Resolves defined d) :=
  excludes_isUndefined_of (fun _ _ _ h hmarker => h [] _ _ .here hmarker)

/-- The strict check does not look at what markers are for. -/
theorem Keywords.noUndefined_check (schema : Json) (path : String) :
    NoUndefined (check schema path) := by
  refine avoids_check (S := fun _ _ => True) ⟨fun _ _ _ => trivial, fun _ _ _ _ => trivial⟩ ?_
    schema path trivial
  rintro members path k v - - - ⟨handle, path', heq⟩
  cases heq

end

namespace Planning

variable {c : Context}

/-- The value of a keyword misses no handle: the markers in it are for defined ones, or it is an
object of properties and those in each of them are. Such an object is not a schema itself, even if
its only property has the name of the member of markers. -/
def Accounted (defined : List Bool) (k : String) (v : Json) : Prop :=
  Resolves defined v ∨ k = "properties" ∧ ∀ members, v = .obj members →
    ∀ m ∈ members, Resolves defined m.2

theorem Accounted.covers {defined : List Bool} {k : String} {v : Json}
    (h : Accounted defined k v) (here : String) :
    Covers (fun d _ => Resolves defined d) (fun d _ => Resolves defined d) k v here := by
  rcases h with hv | ⟨rfl, hv⟩
  · exact covers_of_spreads spreads_resolves hv
  · exact {
      single := fun hk => absurd hk (by decide)
      listed := fun hk => absurd hk (by decide)
      named := fun _ => hv
      other := fun hk => absurd hk (by decide) }

theorem noUndefined_node (v : Json) (path : String) (h : Resolves c.defined v) :
    NoUndefined (node c v path) :=
  avoids_node (spreadsPlanned_of_spreads spreads_resolves) excludes_isUndefined
    excludes_isUndefined v path h

theorem noUndefined_node_of_accounted {members : Fields Json} {path : String}
    (hkey : Fields.contains members Marker.key = false)
    (h : ∀ m ∈ members, Accounted c.defined m.1 m.2) :
    NoUndefined (node c (.obj members) path) := by
  have hmarker : Marker.ofMembers? members = none := by
    have hnone : Fields.get? members Marker.key = none := by
      simpa [Fields.contains] using hkey
    unfold Marker.ofMembers?
    rw [hnone]
  rw [node, hmarker]
  exact (avoids_keywords (spreadsPlanned_of_spreads spreads_resolves) excludes_isUndefined
    excludes_isUndefined members path Plan.empty (fun m hm => (h m hm).covers _)).bind
    (fun _ => .ok _)

theorem noUndefined_compile {o : Options} {schema : Json} {path : String}
    (h : NoUndefined (node c schema path)) : NoUndefined (compile c o schema path) :=
  avoids_compile excludes_isUndefined (Keywords.noUndefined_check schema path) h

end Planning

/-! ## Registries and tables -/

namespace Engine

theorem noUndefined_ofRegistry {o : Options} {r : Registry}
    (h : ∀ handle f, r.get? handle = some f → Resolves r.definedFlags f.document) :
    NoUndefined (ofRegistry o r) := by
  have hentry : ∀ entry ∈ r.entries, ∀ f, entry.schema = some f →
      Resolves r.definedFlags f.document := by
    intro entry hentry f hf
    obtain ⟨handle, hget⟩ := Registry.exists_get?_of_mem hentry hf
    exact h handle f hget
  refine avoids_ofRegistry (fun entry hmem f hf => ?_) (fun c hc entry hmem f hf => ?_) ?_
  · exact EvaluationForm.avoids_rewrite spreads_resolves.rewritten excludes_isUndefined _ _ _
      (hentry entry hmem f hf)
  · have hresolves := hentry entry hmem f hf
    rw [← hc] at hresolves
    exact Planning.noUndefined_compile (Planning.noUndefined_node _ _ hresolves)
  · rintro name ⟨handle, path, heq⟩
    cases heq

end Engine

/-- A schema of a table refers to a handle without a schema. -/
def LoadError.IsUndefined (e : LoadError) : Prop :=
  ∃ operation slot err, e = .compile operation slot err ∧ err.IsUndefined

namespace Repository

theorem avoids_compileSlot {e : Engine} (operation slot : String) {f : Option Fragment}
    (h : ∀ g, f = some g → NoUndefined (e.compile g)) :
    Avoids LoadError.IsUndefined (compileSlot e operation slot f) := by
  cases f with
  | none => exact .ok _
  | some g =>
    rw [compileSlot]
    split
    · exact .ok _
    · next err herr =>
      refine .error ?_
      rintro ⟨operation', slot', err', heq, hundefined⟩
      obtain ⟨-, -, rfl⟩ := LoadError.compile.inj heq
      exact h g rfl err herr hundefined

theorem avoids_compileResponses {e : Engine} (operation : String) (fast : Bool)
    {responses : Fields (Option Fragment)}
    (h : ∀ status g, (status, some g) ∈ responses → NoUndefined (e.compile g))
    (acc : List (StatusKey × ResponseArtifact)) :
    Avoids LoadError.IsUndefined (compileResponses e operation fast responses acc) := by
  induction responses generalizing acc with
  | nil => exact .ok _
  | cons entry rest ih =>
    obtain ⟨key, f⟩ := entry
    have hrest := ih (fun status g hg => h status g (List.mem_cons_of_mem _ hg))
    have hslot := avoids_compileSlot (e := e) operation ("responses/" ++ key) (f := f)
      (fun g hg => h key g (hg ▸ List.mem_cons_self))
    rw [compileResponses]
    split
    · refine .error ?_
      rintro ⟨operation', slot', err', heq, -⟩
      cases heq
    · split
      · next err herr => exact .error (hslot err herr)
      · exact hrest acc
      · exact hrest _

/-- The operation declares the schema for a part of its requests or for responses. -/
def Declares (s : OperationSchemas) (g : Fragment) : Prop :=
  (∃ slot, s.slot slot = some g) ∨ ∃ status, (status, some g) ∈ s.responses

theorem avoids_compileOperation {e : Engine} (fast : Bool) (operation : String)
    {s : OperationSchemas} (h : ∀ g, Declares s g → NoUndefined (e.compile g)) :
    Avoids LoadError.IsUndefined (compileOperation e fast operation s) := by
  have hrequest : ∀ slot g, s.slot slot = some g → NoUndefined (e.compile g) :=
    fun slot g hg => h g (Or.inl ⟨slot, hg⟩)
  exact (avoids_compileSlot _ _ (hrequest .parameters)).bind (fun _ =>
    (avoids_compileSlot _ _ (hrequest .query)).bind (fun _ =>
      (avoids_compileSlot _ _ (hrequest .headers)).bind (fun _ =>
        (avoids_compileSlot _ _ (hrequest .body)).bind (fun _ =>
          (avoids_compileResponses _ _ (fun status g hg => h g (Or.inr ⟨status, hg⟩)) _).bind
            (fun _ => .ok _)))))

theorem avoids_load {r : Repository} {table : SchemaTable} (fast : Bool)
    (h : ∀ id s, (id, s) ∈ table → ∀ g, Declares s g → NoUndefined (r.engine.compile g)) :
    Avoids LoadError.IsUndefined (r.load table fast) := by
  have htable : Avoids LoadError.IsUndefined (compileTable r.engine fast table) := by
    induction table with
    | nil => exact .ok _
    | cons entry rest ih =>
      obtain ⟨id, s⟩ := entry
      exact (avoids_compileOperation fast id (h id s List.mem_cons_self)).bind (fun _ =>
        (ih (fun id s hs => h id s (List.mem_cons_of_mem _ hs))).bind (fun _ => .ok _))
  unfold load
  split
  · exact .ok _
  · next err herr => exact .error (htable err herr)

end Repository

end HttpContract
