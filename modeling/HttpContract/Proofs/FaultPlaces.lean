import HttpContract.Proofs.Failures
import HttpContract.Proofs.Pointers
import HttpContract.Proofs.Registering
import HttpContract.Proofs.Renumbering
import HttpContract.Proofs.Strictness

/-!
# Where schemas are at fault

An error of compilation names a place. Three recursions go through a schema and write places down,
and whichever of them fails first, the place in its error is that of the offending schema: of the
marker that names a handle without a schema, or of the object with an unknown keyword. Read as a
pointer it leads there, in the fragment that is compiled as in a schema of the registry
(`Engine.locates_of_error`).
-/

namespace HttpContract

open Json.Pointer (Leads child childIndex)

/-! ## What errors say -/

/-- The place in the error is that of the offending schema, where `stands` says what is at a
place. -/
def CompileError.Locates (r : Registry) (stands : String → Json → Prop) : CompileError → Prop
  | .undefinedReference handle path =>
    stands path (Marker.deferred handle).toJson ∧ r.get? handle = none
  | .unknownKeyword keyword path => ∃ members, stands path (.obj members) ∧
      Fields.contains members keyword = true ∧ keyword ∉ Keywords.known
  | _ => True

theorem CompileError.Locates.mono {r : Registry} {stands stands' : String → Json → Prop}
    {err : CompileError} (h : err.Locates r stands)
    (hstands : ∀ path x, stands path x → stands' path x) : err.Locates r stands' := by
  cases err with
  | undefinedReference handle path => exact ⟨hstands _ _ h.1, h.2⟩
  | unknownKeyword keyword path =>
    obtain ⟨members, hpath, hkeyword⟩ := h
    exact ⟨members, hstands _ _ hpath, hkeyword⟩
  | _ => trivial

/-- The errors that do not say where the offending schema is. -/
def CompileError.Misses (r : Registry) (stands : String → Json → Prop) (err : CompileError) :
    Prop :=
  ¬ err.Locates r stands

/-! ## Markers for handles -/

/-- There is one way to write a natural. -/
theorem ofNat_of_toNat? {n : Json.Number} {k : Nat} (h : n.toNat? = some k) :
    Json.ofNat k = .num n := by
  cases n with
  | float x => cases h
  | int i =>
    rw [Json.Number.toNat?] at h
    split at h
    · next hnonneg =>
      cases h
      have hval : Json.Integer.ofNat? i.val.toNat = some i := by
        unfold Json.Integer.ofNat?
        rw [Int.toNat_of_nonneg hnonneg, Json.Integer.ofInt?_val]
      unfold Json.ofNat Json.Number.ofNat
      rw [hval]
      rfl
    · cases h

/-- A marker for a handle is written as any other for this handle. -/
theorem toJson_of_deferred {members : Fields Json} {handle : Nat}
    (h : Marker.ofMembers? members = some (.ok (.deferred handle))) :
    (Marker.deferred handle).toJson = .obj members := by
  obtain ⟨n, rfl⟩ := members_of_deferred h
  have htarget : Marker.ofTarget (.num n) = .ok (.deferred handle) := by
    simpa [Marker.ofMembers?, Fields.get?_cons] using h
  have hjson : (Marker.deferred handle).toJson = .obj [(Marker.key, Json.ofNat handle)] := rfl
  rw [hjson, ofNat_of_toNat? (Planning.toNat?_of_ofTarget htarget)]

/-! ## Places -/

/-- The document is at a place, and so all its parts are where pointers lead to from there. -/
def StandsAt (stands : String → Json → Prop) (d : Json) (path : String) : Prop :=
  ∀ pointer x, Leads d path pointer x → stands pointer x

section

variable {r : Registry} {stands : String → Json → Prop}

theorem spreads_standsAt : Spreads (StandsAt stands) where
  member h _ hm pointer x hx := h pointer x (.member hm hx)
  item h _ _ hi pointer x hx := h pointer x (.item hi hx)

theorem excludes_misses :
    Excludes r.definedFlags (CompileError.Misses r stands) (StandsAt stands) where
  undefinedReference := by
    intro members path handle h hmarker hundefined
    apply not_not_intro
    refine ⟨?_, ?_⟩
    · rw [toJson_of_deferred hmarker]
      exact h path _ .here
    · rw [r.getD_definedFlags] at hundefined
      exact Option.not_isSome_iff_eq_none.mp (by simpa [Registry.isDefined] using hundefined)
  invalidSchema _ _ := not_not_intro trivial

theorem excludesUnknown_misses :
    Keywords.ExcludesUnknown (CompileError.Misses r stands) (StandsAt stands) := by
  intro members path k v h hmem hunknown
  apply not_not_intro
  exact ⟨members, h path _ .here, (Fields.contains_iff _ _).mpr ⟨v, hmem⟩, hunknown⟩

theorem Planning.locates_of_compile {c : Context} {o : Options} {schema : Json} {path : String}
    (hc : c.defined = r.definedFlags) (h : StandsAt stands schema path) :
    Avoids (CompileError.Misses r stands) (compile c o schema path) := by
  have hexcludes : Excludes c.defined (CompileError.Misses r stands) (StandsAt stands) :=
    hc ▸ excludes_misses
  apply avoids_compile hexcludes
  · exact Keywords.avoids_check spreads_standsAt excludesUnknown_misses schema path h
  · exact avoids_node (spreadsPlanned_of_spreads spreads_standsAt) hexcludes hexcludes schema path h

end

namespace Engine

variable {o : Options} {r : Registry} {e : Engine}

/-- The place is written as the name of an entry of the registry, a hash and a pointer to the
document in the schema of this entry. -/
def InEntry (r : Registry) (path : String) (x : Json) : Prop :=
  ∃ entry ∈ r.entries, ∃ f pointer, entry.schema = some f ∧ path = entry.name ++ "#" ++ pointer ∧
    Json.Pointer.resolve? f.document pointer = some x

theorem standsAt_entryPath {entry : Registry.Entry} (hmem : entry ∈ r.entries) {f : Fragment}
    (hf : entry.schema = some f) (hordered : f.document.Ordered) :
    StandsAt (InEntry r) f.document (entryPath entry) := by
  intro path x hx
  obtain ⟨pointer, rfl, hresolve⟩ := Json.Pointer.exists_resolve?_of_leads hordered hx
  exact ⟨entry, hmem, f, pointer, hf, rfl, hresolve⟩

/-- The places in errors are those of the offending schemas: if freezing a registry fails, in one of
its schemas, and if compiling a fragment fails, in the fragment. -/
theorem locates_of_error
    (hregistry : ∀ handle g, r.get? handle = some g → g.document.Ordered) :
    (∀ err, ofRegistry o r = .error err → err.Locates r (InEntry r)) ∧
      ∀ e, ofRegistry o r = .ok e → ∀ f : Fragment, f.document.Ordered →
        ∀ err, e.compile f = .error err →
          err.Locates r (fun path x => Json.Pointer.resolve? f.document path = some x) := by
  have hentry : ∀ entry ∈ r.entries, ∀ f, entry.schema = some f → f.document.Ordered := by
    intro entry hentry f hf
    obtain ⟨handle, hhandle⟩ := List.mem_iff_getElem?.mp hentry
    exact hregistry handle f (by rw [Registry.get?, hhandle, Option.bind_some, hf])
  constructor
  · intro err herr
    -- each entry is gone through twice: for the evaluators of others, and for a plan of its own
    have havoids : Avoids (CompileError.Misses r (InEntry r)) (ofRegistry o r) := by
      refine avoids_ofRegistry (fun entry hmem f hf => ?_) (fun c hc entry hmem f hf => ?_)
        (fun name => not_not_intro trivial)
      · exact EvaluationForm.avoids_rewrite spreads_standsAt.rewritten excludes_misses _ _ _
          (standsAt_entryPath hmem hf (hentry entry hmem f hf))
      · exact Planning.locates_of_compile hc (standsAt_entryPath hmem hf (hentry entry hmem f hf))
    exact Classical.not_not.mp (havoids err herr)
  · intro e he f hf err herr
    have hdefined : e.context.defined = r.definedFlags := by
      obtain ⟨resources, entries, -, -, -, rfl⟩ := ofRegistry_eq_ok_iff.mp he
      rfl
    have hstands : StandsAt (fun path x => Json.Pointer.resolve? f.document path = some x)
        f.document "" := fun _ _ hx => Json.Pointer.resolve?_of_leads hf hx
    exact Classical.not_not.mp (Planning.locates_of_compile hdefined hstands err herr)

/-- A schema with a reference, under a name that has to be escaped, to a handle that is not
declared. -/
def dangling : Fragment :=
  .ofMembers [("properties", .obj [("a/b", (Marker.deferred 7).toJson)])]

/-- A schema with an unknown keyword below this name. -/
def misspelt : Fragment := .ofMembers [("properties", .obj [("a/b", .obj [("typ", .bool true)])])]

/-- Errors in a registry and in a fragment, with their places. -/
theorem locates_dangling :
    (∀ handle g, (⟨[⟨"text", some dangling⟩]⟩ : Registry).get? handle = some g →
      g.document.Ordered) ∧
    ofRegistry .standard ⟨[⟨"text", some dangling⟩]⟩ =
      .error (.undefinedReference 7 "text#/properties/a~1b") ∧
    (CompileError.undefinedReference 7 "text#/properties/a~1b").Locates
      ⟨[⟨"text", some dangling⟩]⟩ (InEntry ⟨[⟨"text", some dangling⟩]⟩) ∧
    (∀ handle g, Registry.empty.get? handle = some g → g.document.Ordered) ∧
    ofRegistry strictly .empty = .ok (ofOptions strictly) ∧ misspelt.document.Ordered ∧
    (ofOptions strictly).compile misspelt = .error (.unknownKeyword "typ" "/properties/a~1b") ∧
    (CompileError.unknownKeyword "typ" "/properties/a~1b").Locates .empty
      (fun path x => Json.Pointer.resolve? misspelt.document path = some x) := by
  have hdangling : ∀ handle g, (⟨[⟨"text", some dangling⟩]⟩ : Registry).get? handle = some g →
      g.document.Ordered := by
    intro handle g hget
    match handle with
    | 0 =>
      obtain rfl : dangling = g := Option.some.inj hget
      simp only [dangling, Fragment.ofMembers, Marker.toJson, Json.Ordered, Json.OrderedMembers,
        Json.ofNat, Fields.Ordered, and_true]
      decide
    | _ + 1 => cases hget
  have hempty : ∀ handle g, Registry.empty.get? handle = some g → g.document.Ordered := by
    intro handle g hget
    cases hget
  have hmisspelt : misspelt.document.Ordered := by
    simp only [misspelt, Fragment.ofMembers, Json.Ordered, Json.OrderedMembers, Fields.Ordered,
      and_true]
    decide
  have hfreezing := (locates_of_error (o := .standard) hdangling).1
    (.undefinedReference 7 "text#/properties/a~1b") rfl
  have hcompiling := (locates_of_error (o := strictly) hempty).2 (ofOptions strictly) rfl misspelt
    hmisspelt (.unknownKeyword "typ" "/properties/a~1b") rfl
  exact ⟨hdangling, rfl, hfreezing, hempty, rfl, hmisspelt, rfl, hcompiling⟩

end Engine

end HttpContract
