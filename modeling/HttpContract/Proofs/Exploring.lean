import HttpContract.OpenApi.Exploration
import HttpContract.Proofs.Pointwise
import HttpContract.Proofs.Registering
import HttpContract.Proofs.Sorted

/-!
# What exploration does to a registry

Exploration declares the names of all component schemas and then defines them one after the other,
so the registry it leaves is told by how far it came (`Registers`). Nothing is taken back when it
fails: the names and the schemas before the one that was found wrong stay, and since a schema is
defined only once, a description that has one of them cannot be explored into the same registry
afterwards (`failed_of_explore`).
-/

namespace HttpContract.OpenApi

/-! ## Component schemas -/

theorem foldl_declare (ns : List String) (r : Registry) (cs : Components) :
    let out := ns.foldl (fun (r, cs) name =>
      ((Registry.declare r name).1, Fields.insert cs name (r.declare name).2)) (r, cs)
    out.1.names = ns.foldl Registry.addName r.names ∧ (∀ handle, out.1.get? handle = r.get? handle) ∧
      ∀ name, Fields.get? out.2 name =
        if name ∈ ns then out.1.lookup name else Fields.get? cs name := by
  induction ns generalizing r cs with
  | nil => simp
  | cons first rest ih =>
    obtain ⟨hnames, hget, hcomponents⟩ :=
      ih (r.declare first).1 (Fields.insert cs first (r.declare first).2)
    rw [Registry.names_declare] at hnames
    refine ⟨hnames, fun handle => (hget handle).trans (r.get?_declare first handle), fun name => ?_⟩
    refine (hcomponents name).trans ?_
    by_cases hrest : name ∈ rest
    · rw [if_pos hrest, if_pos (List.mem_cons_of_mem _ hrest)]
      rfl
    · by_cases hfirst : name = first
      · -- a handle is the same for all later declarations
        subst hfirst
        rw [if_neg hrest, if_pos List.mem_cons_self, Fields.get?_insert_self]
        refine (Registry.lookup_of_prefix ?_ (r.lookup_declare name)).symm
        rw [Registry.names_declare]
        exact hnames ▸ Registry.prefix_foldl_addName _ _
      · have hcons : name ∉ first :: rest := by simp [hfirst, hrest]
        rw [if_neg hrest, if_neg hcons, Fields.get?_insert_of_ne _ _ (Ne.symm hfirst)]

/-- Declaring names appends those that are new and finds them all afterwards. -/
theorem declareAll_spec (r : Registry) (ns : List String) :
    (declareAll r ns).1.names = ns.foldl Registry.addName r.names ∧
      (∀ handle, (declareAll r ns).1.get? handle = r.get? handle) ∧
      ∀ name, Fields.get? (declareAll r ns).2 name =
        if name ∈ ns then (declareAll r ns).1.lookup name else none :=
  foldl_declare ns r []

theorem ordered_declareAll (r : Registry) (ns : List String) :
    Fields.Ordered (declareAll r ns).2 := by
  have hfold : ∀ (ns : List String) (r : Registry) (cs : Components), Fields.Ordered cs →
      Fields.Ordered (ns.foldl (fun (r, cs) name =>
        ((Registry.declare r name).1, Fields.insert cs name (r.declare name).2)) (r, cs)).2 := by
    intro ns
    induction ns with
    | nil => exact fun _ _ h => h
    | cons first rest ih => exact fun r cs h => ih _ _ (Fields.ordered_insert h _ _)
  exact hfold ns r [] List.Pairwise.nil

/-- Where the same names come to be declared and the same schemas are defined, declaring leads to
the same. -/
theorem declareAll_congr {r r' : Registry} {ns : List String}
    (hnames : ns.foldl Registry.addName r'.names = ns.foldl Registry.addName r.names)
    (hschemas : ∀ handle f, r'.get? handle = some f ↔ r.get? handle = some f) :
    declareAll r' ns = declareAll r ns := by
  obtain ⟨hn, hg, hc⟩ := declareAll_spec r ns
  obtain ⟨hn', hg', hc'⟩ := declareAll_spec r' ns
  have hregistry : (declareAll r' ns).1 = (declareAll r ns).1 := by
    refine Registry.ext (by rw [hn, hn', hnames]) (fun handle f => ?_)
    rw [hg, hg', hschemas]
  refine Prod.ext hregistry (Fields.eq_of_get? (ordered_declareAll r' ns) (ordered_declareAll r ns)
    (fun name => ?_))
  rw [hc, hc', hregistry]

/-- The registry `r'` is `r` with schemas defined, for handles that had none. -/
structure Defines (cs : Components) (r r' : Registry) (schemas : Fields Json) : Prop where
  names : r'.names = r.names
  fragments : ∀ handle f, r'.get? handle = some f ↔ r.get? handle = some f ∨
    ∃ entry ∈ schemas, (Fields.get? cs entry.1).getD 0 = handle ∧ fragment cs entry.2 = .ok f
  gaps : ∀ entry ∈ schemas, (∃ f, fragment cs entry.2 = .ok f) ∧
    r.get? ((Fields.get? cs entry.1).getD 0) = none

theorem Defines.nil (cs : Components) (r : Registry) : Defines cs r r [] :=
  ⟨rfl, by simp, by simp⟩

theorem Defines.cons {cs : Components} {r defined r' : Registry} {name : String} {schema : Json}
    {f : Fragment} {rest : Fields Json} (hf : fragment cs schema = .ok f)
    (hdefine : r.define ((Fields.get? cs name).getD 0) f = .ok defined)
    (h : Defines cs defined r' rest) : Defines cs r r' ((name, schema) :: rest) := by
  obtain ⟨hsame, hget⟩ := Registry.define_eq_ok hdefine
  have hopen : r.get? ((Fields.get? cs name).getD 0) = none := by
    rw [← Option.not_isSome_iff_eq_none]
    intro hsome
    obtain ⟨g, hg⟩ := Option.isSome_iff_exists.mp hsome
    obtain ⟨e, he⟩ := Registry.define_eq_error_iff.mpr (Or.inr ⟨g, hg⟩)
    rw [hdefine] at he
    cases he
  refine ⟨h.names.trans hsame, fun handle g => ?_, fun entry hentry => ?_⟩
  · have hfirst : ((Fields.get? cs name).getD 0, f) = (handle, g) ↔
        (Fields.get? cs name).getD 0 = handle ∧ fragment cs schema = .ok g := by
      rw [hf, Prod.mk.injEq, Except.ok.injEq]
    rw [h.fragments, hget, hfirst, or_assoc]
    simp only [List.mem_cons, exists_eq_or_imp]
  · rcases List.mem_cons.mp hentry with rfl | hentry
    · exact ⟨⟨f, hf⟩, hopen⟩
    · obtain ⟨hg, hnone⟩ := h.gaps entry hentry
      refine ⟨hg, Option.eq_none_iff_forall_ne_some.mpr (fun g hsome => ?_)⟩
      rw [(hget _ g).mpr (Or.inl hsome)] at hnone
      cases hnone

/-- Schemas are defined up to the first that is no schema, refers to no component or was defined
before. -/
theorem defineAll_cases (cs : Components) (schemas : Fields Json) (r : Registry) :
    ∃ r' done rest, schemas = done ++ rest ∧ Defines cs r r' done ∧
      (rest = [] ∧ defineAll cs r schemas = (r', .ok ()) ∨
        ∃ name schema more fault, rest = (name, schema) :: more ∧
          defineAll cs r schemas = (r', .error (.component name fault))) := by
  induction schemas generalizing r with
  | nil => exact ⟨r, [], [], rfl, .nil cs r, Or.inl ⟨rfl, rfl⟩⟩
  | cons entry others ih =>
    obtain ⟨name, schema⟩ := entry
    cases hfragment : fragment cs schema with
    | error fault =>
      refine ⟨r, [], _, rfl, .nil cs r, Or.inr ⟨name, schema, others, fault, rfl, ?_⟩⟩
      simp only [defineAll, hfragment]
    | ok f =>
      cases hdefine : r.define ((Fields.get? cs name).getD 0) f with
      | error e =>
        refine ⟨r, [], _, rfl, .nil cs r, Or.inr ⟨name, schema, others, .definition e, rfl, ?_⟩⟩
        simp only [defineAll, hfragment, hdefine]
      | ok defined =>
        have hnext : defineAll cs r ((name, schema) :: others) = defineAll cs defined others := by
          simp only [defineAll, hfragment, hdefine]
        obtain ⟨r', done, rest, hsplit, hdefines, hlast⟩ := ih defined
        refine ⟨r', (name, schema) :: done, rest, by rw [hsplit]; rfl,
          .cons hfragment hdefine hdefines, ?_⟩
        rw [hnext]
        exact hlast

/-- The registry `r'` is `r` with the names of the component schemas declared and some of the
schemas defined, for handles that had none. -/
structure Registers (r r' : Registry) (cs : Components) (schemas done : Fields Json) : Prop where
  names : r'.names = (Fields.keys schemas).foldl Registry.addName r.names
  components : ∀ name, Fields.get? cs name =
    if name ∈ Fields.keys schemas then r'.lookup name else none
  fragments : ∀ handle f, r'.get? handle = some f ↔ r.get? handle = some f ∨
    ∃ entry ∈ done, Fields.get? cs entry.1 = some handle ∧ fragment cs entry.2 = .ok f
  gaps : ∀ entry ∈ done, ∃ handle f, Fields.get? cs entry.1 = some handle ∧
    fragment cs entry.2 = .ok f ∧ r.get? handle = none

theorem register_cases (r : Registry) (schemas : Fields Json) :
    ∃ r' cs done rest, schemas = done ++ rest ∧ Registers r r' cs schemas done ∧
      (rest = [] ∧ register r schemas = (r', .ok cs) ∨
        ∃ name schema more fault, rest = (name, schema) :: more ∧
          register r schemas = (r', .error (.component name fault))) := by
  obtain ⟨hnames, hget, hcomponents⟩ := declareAll_spec r (Fields.keys schemas)
  generalize hdeclare : declareAll r (Fields.keys schemas) = declared at *
  obtain ⟨d, cs⟩ := declared
  obtain ⟨r', done, rest, hsplit, hdefines, hlast⟩ := defineAll_cases cs schemas d
  have hlookup : r'.lookup = d.lookup := by
    funext name
    rw [Registry.lookup_eq, Registry.lookup_eq, hdefines.names]
  -- every schema has a handle under its name
  have hhandle : ∀ entry ∈ done, Fields.get? cs entry.1 =
      some ((Fields.get? cs entry.1).getD 0) := by
    intro entry hentry
    have hmem : entry.1 ∈ Fields.keys schemas := by
      rw [hsplit]
      exact List.mem_map_of_mem (List.mem_append_left _ hentry)
    have hsome : entry.1 ∈ d.names := by
      rw [hnames]
      exact Registry.mem_foldl_addName_iff.mpr (Or.inr hmem)
    cases hentry' : Fields.get? cs entry.1 with
    | some handle => rfl
    | none =>
      rw [hcomponents, if_pos hmem] at hentry'
      exact absurd hsome (Registry.lookup_eq_none_iff.mp hentry')
  refine ⟨r', cs, done, rest, hsplit, ⟨?_, ?_, fun handle f => ?_, fun entry hentry => ?_⟩, ?_⟩
  · exact hdefines.names.trans hnames
  · simpa only [hlookup] using hcomponents
  · rw [hdefines.fragments, hget]
    refine or_congr_right (exists_congr (fun entry => and_congr_right (fun hentry => ?_)))
    rw [hhandle entry hentry, Option.getD_some, Option.some.injEq]
  · obtain ⟨⟨f, hf⟩, hnone⟩ := hdefines.gaps entry hentry
    exact ⟨_, f, hhandle entry hentry, hf, (hget _).symm.trans hnone⟩
  · have hregister : register r schemas = ((defineAll cs d schemas).1,
        (defineAll cs d schemas).2.map (fun _ => cs)) := by
      unfold register
      rw [hdeclare]
    rcases hlast with ⟨hrest, hdefine⟩ | ⟨name, schema, more, fault, hrest, hdefine⟩
    · exact Or.inl ⟨hrest, by rw [hregister, hdefine]; rfl⟩
    · exact Or.inr ⟨name, schema, more, fault, hrest, by rw [hregister, hdefine]; rfl⟩

theorem Registers.prefix {r r' : Registry} {cs : Components} {schemas done : Fields Json}
    (h : Registers r r' cs schemas done) : r.names <+: r'.names := by
  rw [h.names]
  exact Registry.prefix_foldl_addName _ _

/-! ## Where an exploration fails -/

/-- What an exploration is at when it fails. -/
inductive Stage where
  | reading
  | components
  | paths
deriving DecidableEq

/-- What the exploration was at when it found the error. -/
def ExplorationError.stage : ExplorationError → Stage
  | .notObject | .unsupportedVersion _ | .componentsNotObject | .notYaml | .yamlKey _ => .reading
  | .component _ _ => .components
  | .pathsNotObject | .path _ _ | .operation _ _ _ => .paths

/-- The description can be read, and these are its component schemas. -/
structure Describes (document : Json) (members schemas : Fields Json) : Prop where
  document_eq : document = .obj members
  version : checkVersion members = .ok ()
  components : componentSchemas document = .ok schemas

theorem explore_of_describes {document : Json} {members schemas : Fields Json}
    (h : Describes document members schemas) (r : Registry) : explore document r =
      match register r schemas with
      | (r, .error e) => (r, .error e)
      | (r, .ok components) => (r, (⟨document, components⟩ : Context).paths members) := by
  obtain ⟨rfl, hversion, hcomponents⟩ := h
  rcases hregister : register r schemas with ⟨r', e | components⟩
  all_goals simp only [explore, hversion, hcomponents, hregister, Except.bind]

theorem stage_of_checkVersion {members : Fields Json} {e : ExplorationError}
    (h : checkVersion members = .error e) : e.stage = .reading := by
  unfold checkVersion at h
  repeat' split at h
  all_goals cases h
  all_goals rfl

theorem stage_of_componentSchemas {document : Json} {e : ExplorationError}
    (h : componentSchemas document = .error e) : e.stage = .reading := by
  unfold componentSchemas at h
  split at h
  all_goals cases h
  rfl

/-- A description that cannot be read is refused whatever the registry holds, which it leaves as it
is. -/
theorem describes_or (document : Json) : (∃ members schemas, Describes document members schemas) ∨
    ∃ e : ExplorationError, e.stage = .reading ∧ ∀ r, explore document r = (r, .error e) := by
  cases document with
  | obj members =>
    cases hversion : checkVersion members with
    | error e =>
      refine Or.inr ⟨e, stage_of_checkVersion hversion, fun r => ?_⟩
      simp only [explore, hversion, Except.bind]
    | ok _ =>
      cases hcomponents : componentSchemas (.obj members) with
      | error e =>
        refine Or.inr ⟨e, stage_of_componentSchemas hcomponents, fun r => ?_⟩
        simp only [explore, hversion, hcomponents, Except.bind]
      | ok schemas => exact Or.inl ⟨members, schemas, rfl, hversion, hcomponents⟩
  | _ => exact Or.inr ⟨.notObject, rfl, fun _ => rfl⟩

theorem stage_of_path {c : Context} {path : String} {v : Json} {e : ExplorationError}
    (h : c.path path v = .error e) : e.stage = .paths := by
  unfold Context.path at h
  split at h
  · cases h
    rfl
  · next item _ =>
    obtain ⟨method, -, hmethod⟩ := exists_of_mapM_eq_error (map_eq_error h)
    unfold Context.declaration? at hmethod
    repeat' split at hmethod
    all_goals cases hmethod
    rfl

theorem stage_of_paths {c : Context} {members : Fields Json} {e : ExplorationError}
    (h : c.paths members = .error e) : e.stage = .paths := by
  unfold Context.paths at h
  split at h
  · cases h
  · next paths _ =>
    obtain ⟨⟨p, v⟩, -, hpath⟩ := exists_of_mapM_eq_error (map_eq_error h)
    exact stage_of_path hpath
  · cases h
    rfl

/-! ## What a failed exploration leaves -/

/-- The exploration has come to an error after the component schemas `done` had been defined; `rest`
are those after them. -/
structure Halts (r r' : Registry) (e : ExplorationError) (schemas done rest : Fields Json) :
    Prop where
  split : schemas = done ++ rest
  registers : ∃ cs, Registers r r' cs schemas done
  culprit : (∃ name fault schema more, e = .component name fault ∧ rest = (name, schema) :: more) ∨
    e.stage = .paths ∧ rest = []
  unchanged : r' = r ↔ (∀ name ∈ Fields.keys schemas, name ∈ r.names) ∧ done = []
  /-- Where nothing was defined another description makes the same of the registry as before, if its
  names come to stand in the same order. -/
  again : ∀ document' members' schemas', Describes document' members' schemas' → done = [] →
    (Fields.keys schemas').foldl Registry.addName r'.names =
      (Fields.keys schemas').foldl Registry.addName r.names →
        explore document' r' = explore document' r
  /-- A description that has a schema that was defined cannot be explored any more. -/
  barred : ∀ document' members' schemas', Describes document' members' schemas' →
    ∀ entry ∈ done, entry.1 ∈ Fields.keys schemas' →
      ∃ e', (explore document' r').2 = .error e'

/-- What a failed exploration leaves of a registry. -/
structure Fails (document : Json) (r r' : Registry) (e : ExplorationError) : Prop where
  names : ∀ handle name, r.name? handle = some name → r'.name? handle = some name
  fragments : ∀ handle f, r.get? handle = some f → r'.get? handle = some f
  reading : e.stage = .reading → r' = r
  later : e.stage ≠ .reading → ∃ members schemas done rest,
    Describes document members schemas ∧ Halts r r' e schemas done rest

theorem Registers.eq_iff {r r' : Registry} {cs : Components} {schemas done : Fields Json}
    (h : Registers r r' cs schemas done) :
    r' = r ↔ (∀ name ∈ Fields.keys schemas, name ∈ r.names) ∧ done = [] := by
  constructor
  · rintro rfl
    refine ⟨fun name hname => ?_, List.eq_nil_iff_forall_not_mem.mpr (fun entry hentry => ?_)⟩
    · rw [h.names]
      exact Registry.mem_foldl_addName_iff.mpr (Or.inr hname)
    · obtain ⟨handle, f, hhandle, hf, hnone⟩ := h.gaps entry hentry
      rw [(h.fragments handle f).mpr (Or.inr ⟨entry, hentry, hhandle, hf⟩)] at hnone
      cases hnone
  · rintro ⟨hnames, rfl⟩
    refine Registry.ext ?_ (fun handle f => ?_)
    · rw [h.names, Registry.foldl_addName_of_subset hnames]
    · rw [h.fragments]
      simp

theorem Registers.explore_eq {r r' : Registry} {cs : Components} {schemas : Fields Json}
    (h : Registers r r' cs schemas []) {document' : Json} {members' schemas' : Fields Json}
    (hdescribes : Describes document' members' schemas')
    (hnames : (Fields.keys schemas').foldl Registry.addName r'.names =
      (Fields.keys schemas').foldl Registry.addName r.names) :
    explore document' r' = explore document' r := by
  have hdeclare : declareAll r' (Fields.keys schemas') = declareAll r (Fields.keys schemas') := by
    refine declareAll_congr hnames (fun handle f => ?_)
    rw [h.fragments]
    simp
  have hregister : register r' schemas' = register r schemas' := by
    unfold register
    rw [hdeclare]
  rw [explore_of_describes hdescribes, explore_of_describes hdescribes, hregister]

/-- Schemas are defined once. -/
theorem Registers.explore_eq_error {r r' : Registry} {cs : Components} {schemas done : Fields Json}
    (h : Registers r r' cs schemas done) {entry : String × Json} (hentry : entry ∈ done)
    {document' : Json} {members' schemas' : Fields Json}
    (hdescribes : Describes document' members' schemas')
    (hkey : entry.1 ∈ Fields.keys schemas') :
    ∃ e', (explore document' r').2 = .error e' := by
  rw [explore_of_describes hdescribes]
  obtain ⟨r'', cs', done', rest', hsplit, h', hlast⟩ := register_cases r' schemas'
  rcases hlast with ⟨rfl, -⟩ | ⟨name, schema, more, fault, -, hregister⟩
  · exfalso
    -- the handle of the name is the one it had, which has a schema
    obtain ⟨handle, f, hhandle, hf, -⟩ := h.gaps entry hentry
    have hdefined : r'.get? handle = some f :=
      (h.fragments handle f).mpr (Or.inr ⟨entry, hentry, hhandle, hf⟩)
    have hlookup : r'.lookup entry.1 = some handle := by
      have hmem := h.components entry.1
      rw [hhandle] at hmem
      split at hmem
      · exact hmem.symm
      · cases hmem
    have hlater : Fields.get? cs' entry.1 = some handle := by
      rw [h'.components, if_pos hkey]
      exact Registry.lookup_of_prefix h'.prefix hlookup
    rcases List.mem_map.mp hkey with ⟨entry', hentry', hsame⟩
    rw [hsplit, List.append_nil] at hentry'
    obtain ⟨handle', -, hhandle', -, hnone⟩ := h'.gaps entry' hentry'
    rw [hsame, hlater] at hhandle'
    obtain rfl := Option.some.inj hhandle'
    rw [hdefined] at hnone
    cases hnone
  · rw [hregister]
    exact ⟨_, rfl⟩

theorem Registers.halts {r r' : Registry} {cs : Components} {schemas done rest : Fields Json}
    {e : ExplorationError} (h : Registers r r' cs schemas done) (hsplit : schemas = done ++ rest)
    (hculprit : (∃ name fault schema more,
      e = .component name fault ∧ rest = (name, schema) :: more) ∨ e.stage = .paths ∧ rest = []) :
    Halts r r' e schemas done rest where
  split := hsplit
  registers := ⟨cs, h⟩
  culprit := hculprit
  unchanged := h.eq_iff
  again := by
    rintro document' members' schemas' hdescribes rfl hnames
    exact h.explore_eq hdescribes hnames
  barred _ _ _ hdescribes _ hentry hkey := h.explore_eq_error hentry hdescribes hkey

theorem fails_of_explore {document : Json} {r r' : Registry} {e : ExplorationError}
    (h : explore document r = (r', .error e)) : Fails document r r' e := by
  rcases describes_or document with ⟨members, schemas, hdescribes⟩ | ⟨e', hstage, hexplore⟩
  · obtain ⟨r'', cs, done, rest, hsplit, hregisters, hlast⟩ := register_cases r schemas
    rw [explore_of_describes hdescribes] at h
    -- the registry is the one that registering the components leaves, whatever comes afterwards
    obtain ⟨rfl, hculprit⟩ : r'' = r' ∧ ((∃ name fault schema more,
        e = .component name fault ∧ rest = (name, schema) :: more) ∨
          e.stage = .paths ∧ rest = []) := by
      rcases hlast with ⟨hrest, hregister⟩ | ⟨name, schema, more, fault, hrest, hregister⟩
      · rw [hregister] at h
        obtain ⟨hr, hpaths⟩ := Prod.mk.inj h
        exact ⟨hr, Or.inr ⟨stage_of_paths hpaths, hrest⟩⟩
      · rw [hregister] at h
        obtain ⟨hr, he⟩ := Prod.mk.inj h
        exact ⟨hr, Or.inl ⟨name, fault, schema, more, (Except.error.inj he).symm, hrest⟩⟩
    have hlate : e.stage ≠ .reading := by
      rcases hculprit with ⟨name, fault, schema, more, rfl, -⟩ | ⟨hpaths, -⟩
      · simp [ExplorationError.stage]
      · simp [hpaths]
    exact ⟨fun handle name => Registry.name?_of_prefix hregisters.prefix,
      fun handle f hf => (hregisters.fragments handle f).mpr (Or.inl hf),
      fun hreading => absurd hreading hlate,
      fun _ => ⟨members, schemas, done, rest, hdescribes, hregisters.halts hsplit hculprit⟩⟩
  · rw [hexplore] at h
    obtain ⟨rfl, he⟩ := Prod.mk.inj h
    obtain rfl := Except.error.inj he
    exact ⟨fun _ _ => id, fun _ _ => id, fun _ => rfl, fun hlate => absurd hstage hlate⟩

/-- What a failed exploration leaves of a registry, whether the description is given as a document
or as a text. -/
theorem failed_of_explore :
    (∀ document r r' e, explore document r = (r', .error e) → Fails document r r' e) ∧
    ∀ source r r' e, exploreYaml source r = (r', .error e) →
      (e.stage = .reading ∧ r' = r) ∨ ∃ v document, Yaml.Value.read? source = some v ∧
        v.toJson "" = .ok document ∧ Fails document r r' e := by
  refine ⟨fun document r r' e h => fails_of_explore h, fun source r r' e h => ?_⟩
  unfold exploreYaml at h
  split at h
  · cases h
    exact Or.inl ⟨rfl, rfl⟩
  · next v hread =>
    split at h
    · cases h
      exact Or.inl ⟨rfl, rfl⟩
    · next document hdocument => exact Or.inr ⟨v, document, hread, hdocument, fails_of_explore h⟩

/-- A description with one component schema. -/
def describing (paths : Json) : Json :=
  .obj [("components", .obj [("schemas", .obj [("A", .obj [])])]), ("paths", paths)]

/-- A registry with the schema. -/
def described : Registry := ⟨[⟨"A", some (.ofMembers [])⟩]⟩

theorem failed_of_explore_describing :
    explore (describing (.arr [])) .empty = (described, .error .pathsNotObject) ∧
    Fails (describing (.arr [])) .empty described .pathsNotObject ∧
    exploreYaml "[]" described = (described, .error .notObject) ∧
    ((ExplorationError.notObject.stage = .reading ∧ described = described) ∨
      ∃ v document, Yaml.Value.read? "[]" = some v ∧ v.toJson "" = .ok document ∧
        Fails document described described .notObject) :=
  ⟨rfl, failed_of_explore.1 _ _ _ _ rfl, rfl, failed_of_explore.2 _ _ _ _ rfl⟩

/-- The schema of a description whose paths are wrong stays in the registry, and keeps the corrected
description out. -/
theorem explore_changes_and_fails : ∃ document corrected r',
    explore document .empty = (r', .error .pathsNotObject) ∧ r' ≠ .empty ∧
    (explore corrected .empty).2 = .ok [] ∧
    (explore corrected r').2 = .error (.component "A" (.definition (.alreadyDefined "A"))) :=
  ⟨describing (.arr []), describing (.obj []), described, rfl, by decide, rfl, rfl⟩

end HttpContract.OpenApi
