import HttpContract.Proofs.Acyclic
import HttpContract.Proofs.Dangling
import HttpContract.Proofs.Descriptions
import HttpContract.Proofs.Exploring

/-!
# Explored descriptions are closed

The schemas of a description refer to component schemas only. Once exploration has succeeded all
components are defined, so nothing that was made of the description can refer to a handle without a
schema (`closed_of_explore`).
-/

namespace HttpContract.OpenApi

variable {cs : Components}

/-! ## Markers for handles -/

theorem toNat?_ofNat {n handle : Nat} (h : (Json.Number.ofNat n).toNat? = some handle) :
    handle = n := by
  rw [Json.Number.ofNat] at h
  rcases Option.eq_none_or_eq_some (Json.Integer.ofNat? n) with hn | ⟨i, hn⟩
  · rw [hn, Option.elim_none] at h
    cases h
  · have hval : i.val = n := Json.Integer.ofInt?_eq_some_iff.mp hn
    rw [hn, Option.elim_some, Json.Number.toNat?, hval,
      if_pos (Int.natCast_nonneg n), Int.toNat_natCast] at h
    exact (Option.some.inj h).symm

/-- A marker names the handle it was made for. -/
theorem deferred_of_ofMembers? {n handle : Nat}
    (h : Marker.ofMembers? [(Marker.key, Json.ofNat n)] = some (.ok (.deferred handle))) :
    handle = n := by
  have htarget : Marker.ofTarget (Json.ofNat n) = .ok (.deferred handle) := by
    simpa [Marker.ofMembers?, Fields.get?] using h
  exact toNat?_ofNat (Planning.toNat?_of_ofTarget htarget)

theorem contains_of_ofMembers? {members : Fields Json} {m : Except MarkerError Marker}
    (h : Marker.ofMembers? members = some m) : Fields.contains members Marker.key = true := by
  unfold Marker.ofMembers? at h
  unfold Fields.contains
  split at h
  · cases h
  · next hget => rw [hget]; rfl

/-! ## Closed descriptions -/

/-- Every marker in the schema stands where the original has a reference to a component, and names
the handle that was declared for the component and has a schema. -/
def Names (r : Registry) (original s : Json) : Prop :=
  ∀ path members handle, s.Within path (.obj members) →
    Marker.ofMembers? members = some (.ok (.deferred handle)) → ∃ ms reference name,
      original.Within path (.obj ms) ∧ Fields.get? ms "$ref" = some (.str reference) ∧
      componentName? reference = some name ∧ r.name? handle = some name ∧
      r.isDefined handle = true

/-- The schema is made of one that stands in the description, and every marker in it names a
component that the original refers to. -/
def MadeOf (document : Json) (cs : Components) (r : Registry) (s : Json) : Prop :=
  ∃ original, Inside document original ∧ rewrite cs original = .ok s ∧ Names r original s

/-- Nothing that was made of a description refers to a handle without a schema. -/
structure Closed (document : Json) (cs : Components) (r : Registry) (routes : RouteTable) :
    Prop where
  handles : ∀ name, Fields.get? cs name = r.lookup name
  components : ∀ schemas, componentSchemas document = .ok schemas → ∀ entry ∈ schemas,
    ∃ handle f, r.name? handle = some entry.1 ∧ r.get? handle = some f ∧
      fragment cs entry.2 = .ok f ∧ Names r entry.2 f.document
  bodies : ∀ route s, (route, s) ∈ routes → ∀ f,
    (s.body = some f ∨ ∃ status, (status, some f) ∈ s.responses) →
      MadeOf document cs r f.document
  parameters : ∀ route s, (route, s) ∈ routes → ∀ slot f, slot ≠ .body → s.slot slot = some f →
    ∃ fields, f = objectSchema fields ∧ ∀ field ∈ fields,
      field.schema = .bool true ∨ MadeOf document cs r field.schema
  freezing : ∀ o, NoUndefined (Engine.ofRegistry o r)
  loading : ∀ (o : Options) (repository : Repository),
    Engine.ofRegistry o r = .ok repository.engine → ∀ identity fast,
      Avoids LoadError.IsUndefined (repository.load (routes.toSchemaTable identity) fast)

/-- The components of a registry that was empty all have schemas. -/
theorem Registers.defined {r : Registry} {schemas : Fields Json}
    (h : Registers .empty r cs schemas schemas) {name : String} {handle : Nat}
    (hname : Fields.get? cs name = some handle) :
    r.name? handle = some name ∧ r.isDefined handle = true := by
  have hlookup := h.components name
  rw [hname] at hlookup
  split at hlookup
  · next hkey =>
    obtain ⟨entry, hentry, rfl⟩ := List.mem_map.mp hkey
    obtain ⟨handle', f, hhandle, hf, -⟩ := h.gaps entry hentry
    obtain rfl : handle' = handle := Option.some.inj (hhandle.symm.trans hname)
    have hdefined := (h.fragments handle' f).mpr (Or.inr ⟨entry, hentry, hhandle, hf⟩)
    refine ⟨Registry.name?_of_lookup hlookup.symm, ?_⟩
    rw [Registry.isDefined, hdefined]
    rfl
  · cases hlookup

theorem Registers.names_rewrite {r : Registry} {schemas : Fields Json}
    (h : Registers .empty r cs schemas schemas) {original s : Json} (hunmarked : Unmarked original)
    (hs : rewrite cs original = .ok s) : Names r original s := by
  intro path members handle hwithin hmarker
  obtain ⟨ms, reference, name, n, horiginal, href, hname, hhandle, rfl⟩ :=
    traces_of_rewrite original hunmarked hs path members hwithin (contains_of_ofMembers? hmarker)
  obtain rfl := deferred_of_ofMembers? hmarker
  exact ⟨ms, reference, name, horiginal, href, hname, h.defined hhandle⟩

theorem Registers.get?_eq_lookup {r : Registry} {schemas : Fields Json}
    (h : Registers .empty r cs schemas schemas) (name : String) :
    Fields.get? cs name = r.lookup name := by
  rw [h.components]
  split
  · rfl
  · next hkey =>
    refine (Registry.lookup_eq_none_iff.mpr (fun hmem => hkey ?_)).symm
    rw [h.names] at hmem
    exact (Registry.mem_foldl_addName_iff.mp hmem).resolve_left List.not_mem_nil

theorem Names.resolves {r : Registry} {original s : Json} (h : Names r original s) :
    Resolves r.definedFlags s := by
  intro path members handle hwithin hmarker
  obtain ⟨ms, reference, name, -, -, -, -, hdefined⟩ := h path members handle hwithin hmarker
  rw [r.getD_definedFlags, hdefined]

/-! ## Compiling what was made of a description -/

variable {document : Json} {r : Registry} {routes : RouteTable}

theorem noUndefined_of_names {e : Engine} {f : Fragment} {original : Json}
    (he : e.context.defined = r.definedFlags) (h : Names r original f.document) :
    NoUndefined (e.compile f) :=
  Planning.noUndefined_compile (Planning.noUndefined_node _ _ (he ▸ h.resolves))

theorem accounted_of_mem_objectSchema {defined : List Bool} {fields : List Field}
    (h : ∀ field ∈ fields, Resolves defined field.schema) {members : Fields Json}
    (hmembers : (objectSchema fields).document = .obj members) :
    ∀ m ∈ members, m.1 ≠ Marker.key ∧ Planning.Accounted defined m.1 m.2 := by
  obtain rfl := Json.obj.inj hmembers
  intro m hm
  rcases List.mem_append.mp (Fields.mem_of_mem_ofList hm) with hm | hm
  · rcases List.mem_pair.mp hm with rfl | rfl
    · exact ⟨by simp [Marker.key], Or.inl (.of_not_within (fun _ _ => not_within_str))⟩
    · refine ⟨by simp [Marker.key], Or.inr ⟨rfl, fun properties hproperties property hproperty => ?_⟩⟩
      obtain rfl := Json.obj.inj hproperties
      obtain ⟨field, hfield, rfl⟩ := List.mem_map.mp (Fields.mem_of_mem_ofList hproperty)
      exact h field hfield
  · split at hm
    · cases hm
    · obtain rfl := List.mem_singleton.mp hm
      refine ⟨by simp [Marker.key], Or.inl (.of_not_within (fun path properties hwithin => ?_))⟩
      cases hwithin with
      | item hx hwithin =>
        obtain ⟨field, -, rfl⟩ := List.mem_map.mp (List.mem_of_getElem? hx)
        exact not_within_str hwithin

/-- The schema of an object refers to what the schemas of its properties refer to. -/
theorem noUndefined_objectSchema {e : Engine} {fields : List Field}
    (h : ∀ field ∈ fields, Resolves e.context.defined field.schema) :
    NoUndefined (e.compile (objectSchema fields)) := by
  have hmembers := accounted_of_mem_objectSchema h rfl
  refine Planning.noUndefined_compile (Planning.noUndefined_node_of_accounted ?_
    (fun m hm => (hmembers m hm).2))
  rw [← Bool.not_eq_true, Fields.contains_iff]
  rintro ⟨v, hv⟩
  exact (hmembers _ hv).1 rfl

/-- The declarations of a schema table are those of routes. -/
theorem mem_of_mem_toSchemaTable {identity : Identity} {id : String} {s : OperationSchemas}
    (h : (id, s) ∈ routes.toSchemaTable identity) : ∃ route, (route, s) ∈ routes := by
  have hfold : ∀ (routes : RouteTable) (table : SchemaTable),
      (id, s) ∈ routes.foldl (fun table e => Fields.insert table (identity e.1) e.2) table →
        (id, s) ∈ table ∨ ∃ route, (route, s) ∈ routes := by
    intro routes
    induction routes with
    | nil => exact fun _ h => Or.inl h
    | cons first rest ih =>
      intro table h
      rcases ih _ h with h | ⟨route, h⟩
      · rcases Fields.mem_of_mem_insert h with heq | h
        · obtain ⟨-, rfl⟩ := Prod.mk.inj heq
          exact Or.inr ⟨first.1, List.mem_cons_self⟩
        · exact Or.inl h
      · exact Or.inr ⟨route, List.mem_cons_of_mem _ h⟩
  exact (hfold routes [] h).resolve_left List.not_mem_nil

/-! ## Explored descriptions -/

theorem inside_of_componentSchemas {schemas : Fields Json}
    (h : componentSchemas document = .ok schemas) : ∀ entry ∈ schemas, Inside document entry.2 := by
  unfold componentSchemas at h
  split at h
  · obtain rfl := Except.ok.inj h
    simp
  · obtain rfl := Except.ok.inj h
    simp
  · next hresolve =>
    obtain rfl := Except.ok.inj h
    exact fun entry hentry => inside_of_mem (inside_of_resolve? hresolve) hentry
  · cases h

/-- The registry and the routes after an exploration that has succeeded. -/
theorem explore_eq_ok (h : explore document .empty = (r, .ok routes)) :
    ∃ members schemas cs, Describes document members schemas ∧
      Registers .empty r cs schemas schemas ∧
        (⟨document, cs⟩ : Context).paths members = .ok routes := by
  rcases describes_or document with ⟨members, schemas, hdescribes⟩ | ⟨e, -, hexplore⟩
  · obtain ⟨r', cs, done, rest, hsplit, hregisters, hlast⟩ := register_cases .empty schemas
    rw [explore_of_describes hdescribes] at h
    rcases hlast with ⟨rfl, hregister⟩ | ⟨name, schema, more, fault, -, hregister⟩
    · rw [hregister] at h
      obtain ⟨rfl, hpaths⟩ := Prod.mk.inj h
      obtain rfl : schemas = done := by rw [hsplit, List.append_nil]
      exact ⟨members, schemas, cs, hdescribes, hregisters, hpaths⟩
    · rw [hregister] at h
      cases (Prod.mk.inj h).2
  · rw [hexplore] at h
    cases (Prod.mk.inj h).2

/-- What the routes of a description are made of. -/
theorem made_of_paths {members : Fields Json}
    (hdocument : document = .obj members) (h : (⟨document, cs⟩ : Context).paths members = .ok routes)
    {route : Route} {s : OperationSchemas} (hmem : (route, s) ∈ routes) :
    (∀ f, s.body = some f → (⟨document, cs⟩ : Context).Made f.document) ∧
      (∀ status f, (status, some f) ∈ s.responses →
        (⟨document, cs⟩ : Context).Made f.document) ∧
      ∀ slot f, slot ≠ .body → s.slot slot = some f → (⟨document, cs⟩ : Context).MadeOfFields f := by
  obtain ⟨paths, path, v, item, method, operation, hpaths, hpath, hitem, hoperation, hs, -⟩ :=
    Context.operation_of_paths h hmem
  subst hdocument
  have hall : Inside (.obj members) (.obj paths) := ⟨_, .member (Fields.mem_of_get? hpaths) .here⟩
  have hinside : Inside (.obj members) item :=
    Context.inside_of_resolve (inside_of_mem hall hpath) hitem
  exact Context.made_of_operation (fun x hx => inside_of_get? hinside hx)
    (inside_of_get? hinside hoperation) hs

/-- The schemas of a registry that all name defined handles can be frozen. -/
theorem noUndefined_ofRegistry_of_names
    (h : ∀ handle f, r.get? handle = some f → ∃ original, Names r original f.document)
    (o : Options) : NoUndefined (Engine.ofRegistry o r) :=
  Engine.noUndefined_ofRegistry (fun handle f hf =>
    have ⟨_, hnames⟩ := h handle f hf
    hnames.resolves)

/-- What an operation of a description declares compiles against the frozen registry. -/
theorem noUndefined_of_declares {e : Engine} (he : e.context.defined = r.definedFlags)
    {s : OperationSchemas}
    (hbodies : ∀ f, (s.body = some f ∨ ∃ status, (status, some f) ∈ s.responses) →
      MadeOf document cs r f.document)
    (hparameters : ∀ slot f, slot ≠ .body → s.slot slot = some f →
      ∃ fields, f = objectSchema fields ∧ ∀ field ∈ fields,
        field.schema = .bool true ∨ MadeOf document cs r field.schema)
    {g : Fragment} (hg : Repository.Declares s g) : NoUndefined (e.compile g) := by
  have hbody : (s.body = some g ∨ ∃ status, (status, some g) ∈ s.responses) →
      NoUndefined (e.compile g) := by
    intro hg
    obtain ⟨original, -, -, hnames⟩ := hbodies g hg
    exact noUndefined_of_names he hnames
  rcases hg with ⟨slot, hslot⟩ | hstatus
  · by_cases hne : slot = .body
    · subst hne
      exact hbody (Or.inl hslot)
    · obtain ⟨fields, rfl, hfields⟩ := hparameters slot g hne hslot
      refine noUndefined_objectSchema (fun field hfield => ?_)
      rcases hfields field hfield with htrue | ⟨original, -, -, hnames⟩
      · rw [htrue]
        exact .of_not_within (fun path members hwithin => by cases hwithin)
      · rw [he]
        exact hnames.resolves
  · exact hbody (Or.inr hstatus)

/-- In a description without markers every marker that exploration makes names a component, all of
which are defined in the end: neither the registry nor the routes refer to a handle without a
schema. -/
theorem closed_of_explore (hunmarked : Unmarked document)
    (h : explore document .empty = (r, .ok routes)) : ∃ cs, Closed document cs r routes := by
  obtain ⟨members, schemas, cs, hdescribes, hregisters, hpaths⟩ := explore_eq_ok h
  have hnames : ∀ original s, Inside document original → rewrite cs original = .ok s →
      Names r original s := by
    rintro original s ⟨path, hpath⟩ hs
    exact hregisters.names_rewrite (hunmarked.within hpath) hs
  have hentry : ∀ entry ∈ schemas, ∀ f, fragment cs entry.2 = .ok f →
      Names r entry.2 f.document := fun entry hentry f hf =>
    hnames _ _ (inside_of_componentSchemas hdescribes.components entry hentry)
      (rewrite_of_fragment hf)
  have hmade : ∀ s, (⟨document, cs⟩ : Context).Made s → MadeOf document cs r s :=
    fun s ⟨original, hinside, hs⟩ => ⟨original, hinside, hs, hnames original s hinside hs⟩
  have hbodies : ∀ route s, (route, s) ∈ routes → ∀ f,
      (s.body = some f ∨ ∃ status, (status, some f) ∈ s.responses) →
        MadeOf document cs r f.document := by
    intro route s hmem f hf
    obtain ⟨hbody, hresponses, -⟩ := made_of_paths hdescribes.document_eq hpaths hmem
    rcases hf with hf | ⟨status, hf⟩
    · exact hmade _ (hbody f hf)
    · exact hmade _ (hresponses status f hf)
  have hparameters : ∀ route s, (route, s) ∈ routes → ∀ slot f, slot ≠ .body →
      s.slot slot = some f → ∃ fields, f = objectSchema fields ∧ ∀ field ∈ fields,
        field.schema = .bool true ∨ MadeOf document cs r field.schema := by
    intro route s hmem slot f hne hf
    obtain ⟨fields, hobject, hfields⟩ :=
      (made_of_paths hdescribes.document_eq hpaths hmem).2.2 slot f hne hf
    exact ⟨fields, hobject, fun field hfield => (hfields field hfield).imp_right (hmade _)⟩
  refine ⟨cs, hregisters.get?_eq_lookup, ?_, hbodies, hparameters, ?_, ?_⟩
  · intro schemas' hschemas entry hmem
    obtain rfl : schemas = schemas' :=
      Except.ok.inj (hdescribes.components.symm.trans hschemas)
    obtain ⟨handle, f, hhandle, hf, -⟩ := hregisters.gaps entry hmem
    exact ⟨handle, f, (hregisters.defined hhandle).1,
      (hregisters.fragments handle f).mpr (Or.inr ⟨entry, hmem, hhandle, hf⟩), hf,
      hentry entry hmem f hf⟩
  · -- a registry that was empty has the schemas of components only
    refine noUndefined_ofRegistry_of_names (fun handle f hf => ?_)
    rcases (hregisters.fragments handle f).mp hf with hempty | ⟨entry, hmem, -, hfragment⟩
    · cases hempty
    · exact ⟨entry.2, hentry entry hmem f hfragment⟩
  · intro o repository hengine identity fast
    have hdefined : repository.engine.context.defined = r.definedFlags := by
      obtain ⟨resources, entries, -, -, -, heq⟩ := Engine.ofRegistry_eq_ok_iff.mp hengine
      rw [heq]
    refine Repository.avoids_load fast (fun id s hs g hg => ?_)
    obtain ⟨route, hroute⟩ := mem_of_mem_toSchemaTable hs
    exact noUndefined_of_declares hdefined (hbodies route s hroute) (hparameters route s hroute) hg

/-- A reference to a component. -/
def referenceTo (name : String) : Json := .obj [("$ref", .str ("#/components/schemas/" ++ name))]

/-- A description of an operation that answers with lists of texts. -/
def listing : Json :=
  .obj
    [("components", .obj [("schemas", .obj
        [("Cell", .obj [("properties", .obj
          [("head", referenceTo "Text"), ("tail", referenceTo "Cell")])]),
        ("Text", .obj [("type", .str "string")])])]),
      ("paths", .obj [("/cells", .obj [("get", .obj [("responses", .obj [("200", .obj [("content",
        .obj [("application/json", .obj [("schema", referenceTo "Cell")])])])])])])])]

/-- The registry with the component schemas. -/
def listed : Registry :=
  ⟨[⟨"Cell", some (.ofMembers [("properties", .obj
      [("head", (Marker.deferred 1).toJson), ("tail", (Marker.deferred 0).toJson)])])⟩,
    ⟨"Text", some (.ofMembers [("type", .str "string")])⟩]⟩

/-- The route that answers with a cell. -/
def listingRoutes : RouteTable :=
  [(⟨"GET", "/cells"⟩,
    ⟨none, none, none, none, [("200", some (.ofMembers [(Marker.key, .ofNat 0)]))]⟩)]

theorem unmarked_listing : Unmarked listing := by
  simp [listing, referenceTo, unmarked_obj_iff, unmarked_str, Marker.key]

theorem explore_listing : explore listing .empty = (listed, .ok listingRoutes) := by
  have hregistry : (explore listing .empty).1 = listed := by decide +kernel
  have hroutes : (explore listing .empty).2.toOption = some listingRoutes := by decide +kernel
  exact Prod.ext hregistry (toOption_eq_some_iff.mp hroutes)

theorem closed_of_explore_listing :
    Unmarked listing ∧ explore listing .empty = (listed, .ok listingRoutes) ∧
      ∃ cs, Closed listing cs listed listingRoutes :=
  ⟨unmarked_listing, explore_listing, closed_of_explore unmarked_listing explore_listing⟩

end HttpContract.OpenApi
