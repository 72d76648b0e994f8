import Mathlib.Data.List.Nodup
import HttpContract.Schema.Registry

/-!
# Registries over time

Whatever is asked of a registry, in any order and with any handles, its names stay different and
keep their handles, and a schema that was defined once stays (`Registry.run_lawful`). A registry is
the list of its names together with the schemas defined for them (`Registry.ext`). Requests only
ever append to the first (`names_run`) and fill gaps of the second (`get?_run`), so what comes out
depends on the order of the declarations alone.
-/

namespace HttpContract.Registry

/-! ## Requests -/

/-- What changes a registry. -/
inductive Request where
  | declare (name : String)
  | define (handle : Nat) (schema : Fragment)
  | register (name : String) (schema : Fragment)

/-- The name that a request declares. -/
def Request.name? : Request → Option String
  | .declare name => some name
  | .define _ _ => none
  | .register name _ => some name

/-- The registry afterwards, with the handle that is given out or the error. A definition gives out
no handle. -/
def step (r : Registry) : Request → Registry × Except CompileError (Option Nat)
  | .declare name => ((r.declare name).1, .ok (some (r.declare name).2))
  | .define handle schema =>
    match r.define handle schema with
    | .ok defined => (defined, .ok none)
    | .error e => (r, .error e)
  | .register name schema => ((r.register name schema).1, (r.register name schema).2.map some)

/-- The registry after requests, one after the other; those that fail are passed over. -/
def run (r : Registry) (requests : List Request) : Registry :=
  requests.foldl (fun r q => (r.step q).1) r

/-- The definition that a request makes: a handle and its schema. -/
def made? (r : Registry) : Request → Option (Nat × Fragment)
  | .declare _ => none
  | .define handle schema => (r.define handle schema).toOption.map (fun _ => (handle, schema))
  | .register name schema =>
    (r.register name schema).2.toOption.map (fun handle => (handle, schema))

/-- The definitions that requests make, in their order. -/
def made (r : Registry) : List Request → List (Nat × Fragment)
  | [] => []
  | q :: rest => (r.made? q).toList ++ made (r.step q).1 rest

/-- The names that requests declare, in their order. -/
def declared (requests : List Request) : List String := requests.filterMap Request.name?

@[simp] theorem run_nil (r : Registry) : r.run [] = r := rfl

@[simp] theorem run_cons (r : Registry) (q : Request) (rest : List Request) :
    r.run (q :: rest) = (r.step q).1.run rest := rfl

theorem run_append (r : Registry) (qs qs' : List Request) :
    r.run (qs ++ qs') = (r.run qs).run qs' := List.foldl_append

/-! ## Names and schemas -/

/-- The declared names in the order of their handles. -/
def names (r : Registry) : List String := r.entries.map (·.name)

theorem name?_eq (r : Registry) (handle : Nat) : r.name? handle = r.names[handle]? := by
  unfold name? names
  rw [List.getElem?_map]

/-- The flags say which handles have a schema. -/
theorem getD_definedFlags (r : Registry) (handle : Nat) :
    r.definedFlags[handle]?.getD false = r.isDefined handle := by
  unfold definedFlags isDefined get?
  rw [List.getElem?_map]
  cases r.entries[handle]? with
  | none => rfl
  | some e => rfl

theorem length_names (r : Registry) : r.names.length = r.size := List.length_map _

theorem lookup_eq (r : Registry) (name : String) : r.lookup name = r.names.idxOf? name := by
  unfold lookup names List.idxOf?
  rw [List.findIdx?_map]
  rfl

/-- A handle is found by a name that no other handle has. -/
theorem lookup_of_name? {r : Registry} (h : r.names.Nodup) {handle : Nat} {name : String}
    (hname : r.name? handle = some name) : r.lookup name = some handle := by
  rw [name?_eq] at hname
  obtain ⟨hlt, rfl⟩ := List.getElem?_eq_some_iff.mp hname
  rw [lookup_eq, List.idxOf?_eq_some_iff]
  refine ⟨hlt, rfl, fun j hj heq => ?_⟩
  have hsame : j = handle := (List.getElem_inj h).mp heq
  omega

theorem name?_of_lookup {r : Registry} {handle : Nat} {name : String}
    (h : r.lookup name = some handle) : r.name? handle = some name := by
  rw [lookup_eq, List.idxOf?_eq_some_iff] at h
  obtain ⟨hlt, hname, -⟩ := h
  rw [name?_eq]
  exact List.getElem?_eq_some_iff.mpr ⟨hlt, hname⟩

/-- Registries with the same names and the same schemas are the same. -/
theorem ext {r r' : Registry} (hnames : r.names = r'.names)
    (hschemas : ∀ handle f, r.get? handle = some f ↔ r'.get? handle = some f) : r = r' := by
  have hsize : r.entries.length = r'.entries.length := by
    simpa [names] using congrArg List.length hnames
  have hentries : r.entries = r'.entries := by
    refine List.ext_getElem hsize (fun i hi hi' => ?_)
    have hname : r.entries[i].name = r'.entries[i].name := by
      have hmap := congrArg (fun ns => ns[i]?) hnames
      simpa [names, hi, hi'] using hmap
    have hschema : r.entries[i].schema = r'.entries[i].schema := by
      refine Option.ext (fun f => ?_)
      have hget := hschemas i f
      simpa [get?, hi, hi'] using hget
    generalize r.entries[i] = e at hname hschema
    generalize r'.entries[i] = e' at hname hschema
    cases e
    cases e'
    simp_all
  cases r
  cases r'
  exact congrArg Registry.mk hentries

/-! ## One request -/

/-- Names with one more, unless it is there. -/
def addName (ns : List String) (name : String) : List String :=
  if name ∈ ns then ns else ns ++ [name]

theorem lookup_eq_none_iff {r : Registry} {name : String} :
    r.lookup name = none ↔ name ∉ r.names := by
  rw [lookup_eq, List.idxOf?_eq_none_iff]

/-- A declaration finds the name, or appends it without a schema. -/
theorem declare_cases (r : Registry) (name : String) :
    (∃ handle, r.names[handle]? = some name ∧ r.declare name = (r, handle)) ∨
      name ∉ r.names ∧ r.declare name = (⟨r.entries ++ [⟨name, none⟩]⟩, r.entries.length) := by
  cases hlookup : r.lookup name with
  | none =>
    refine Or.inr ⟨lookup_eq_none_iff.mp hlookup, ?_⟩
    simp only [declare, hlookup]
  | some handle =>
    refine Or.inl ⟨handle, ?_, ?_⟩
    · rw [← name?_eq]
      exact name?_of_lookup hlookup
    · simp only [declare, hlookup]

/-- A definition that succeeds fills the gap of its handle and leaves everything else. -/
theorem define_eq_ok {r defined : Registry} {handle : Nat} {schema : Fragment}
    (h : r.define handle schema = .ok defined) :
    defined.names = r.names ∧ ∀ handle' f,
      defined.get? handle' = some f ↔
        r.get? handle' = some f ∨ (handle, schema) = (handle', f) := by
  unfold define at h
  split at h
  · cases h
  · next e he =>
    split at h
    · cases h
    · next hopen =>
      obtain rfl := Except.ok.inj h
      obtain ⟨hlt, rfl⟩ := List.getElem?_eq_some_iff.mp he
      refine ⟨?_, fun handle' f => ?_⟩
      · refine List.ext_getElem (by simp [names]) (fun i hi hi' => ?_)
        by_cases heq : handle = i
        · subst heq
          simp [names]
        · simp [names, heq]
      · by_cases heq : handle = handle'
        · subst heq
          have hgap : r.get? handle = none := by
            simpa [get?, hlt] using hopen
          rw [hgap]
          simp [get?, hlt]
        · simp [get?, heq]

/-- A definition fails for a handle that is not declared or has a schema already. -/
theorem define_eq_error_iff {r : Registry} {handle : Nat} {schema : Fragment} :
    (∃ e, r.define handle schema = .error e) ↔ r.size ≤ handle ∨ ∃ f, r.get? handle = some f := by
  unfold define get? size
  cases he : r.entries[handle]? with
  | none => simpa using List.getElem?_eq_none_iff.mp he
  | some e =>
    obtain ⟨hlt, rfl⟩ := List.getElem?_eq_some_iff.mp he
    cases hschema : r.entries[handle].schema with
    | none => simp [hschema, hlt]
    | some f => simp [hschema]

/-- Appending a name that has no schema changes no schema. -/
theorem get?_append_undefined (r : Registry) (name : String) (handle : Nat) :
    get? ⟨r.entries ++ [⟨name, none⟩]⟩ handle = r.get? handle := by
  unfold get?
  rcases Nat.lt_trichotomy handle r.entries.length with hlt | rfl | hgt
  · rw [List.getElem?_append_left hlt]
  · simp
  · have hout : r.entries[handle]? = none := List.getElem?_eq_none_iff.mpr (Nat.le_of_lt hgt)
    have hout' : (r.entries ++ [⟨name, none⟩])[handle]? = none :=
      List.getElem?_eq_none_iff.mpr (by simpa using Nat.succ_le_of_lt hgt)
    rw [hout, hout']

theorem names_declare (r : Registry) (name : String) :
    (r.declare name).1.names = addName r.names name := by
  unfold addName
  rcases declare_cases r name with ⟨handle, hname, hdeclare⟩ | ⟨hfresh, hdeclare⟩
  · rw [hdeclare, if_pos (List.mem_of_getElem? hname)]
  · rw [hdeclare, if_neg hfresh]
    simp [names]

theorem get?_declare (r : Registry) (name : String) (handle : Nat) :
    (r.declare name).1.get? handle = r.get? handle := by
  rcases declare_cases r name with ⟨_, -, hdeclare⟩ | ⟨-, hdeclare⟩
  · rw [hdeclare]
  · rw [hdeclare]
    exact get?_append_undefined r name handle

/-- The handle given out is the one the name is found by. -/
theorem lookup_declare (r : Registry) (name : String) :
    (r.declare name).1.lookup name = some (r.declare name).2 := by
  cases hlookup : r.lookup name with
  | some handle => simp only [declare, hlookup]
  | none =>
    simp only [declare, hlookup]
    unfold lookup at hlookup ⊢
    rw [List.findIdx?_append, hlookup]
    simp

/-- The handle given out is that of the name. -/
theorem name?_declare (r : Registry) (name : String) :
    (r.declare name).1.name? (r.declare name).2 = some name := by
  rw [name?_eq]
  rcases declare_cases r name with ⟨handle, hname, hdeclare⟩ | ⟨-, hdeclare⟩
  · rw [hdeclare]
    exact hname
  · rw [hdeclare]
    simp [names]

/-- What a registration does: it declares the name and then defines its handle, unless that fails,
which it only does where nothing was declared. -/
theorem register_cases (r : Registry) (name : String) (schema : Fragment) :
    (∃ defined, (r.declare name).1.define (r.declare name).2 schema = .ok defined ∧
      r.register name schema = (defined, .ok (r.declare name).2)) ∨
    ∃ e, (r.declare name).1 = r ∧ r.register name schema = (r, .error e) := by
  unfold register
  dsimp only
  cases hdefine : (r.declare name).1.define (r.declare name).2 schema with
  | ok defined => exact Or.inl ⟨defined, rfl, rfl⟩
  | error e =>
    -- a name that is new has a handle without a schema, which can be defined
    have hsame : (r.declare name).1 = r := by
      rcases declare_cases r name with ⟨_, -, hdeclare⟩ | ⟨-, hdeclare⟩
      · rw [hdeclare]
      · exfalso
        rcases define_eq_error_iff.mp ⟨e, hdefine⟩ with hout | ⟨f, hf⟩
        · rw [hdeclare] at hout
          have hlt : r.entries.length < (r.entries ++ [Entry.mk name none]).length := by simp
          exact absurd hlt (Nat.not_lt.mpr hout)
        · rw [get?_declare, hdeclare] at hf
          simp [get?] at hf
    refine Or.inr ⟨e, hsame, ?_⟩
    rw [hsame]

/-- Everything a request can do to the names and the schemas. -/
theorem step_spec (r : Registry) (q : Request) :
    (r.step q).1.names = q.name?.elim r.names (addName r.names) ∧
      ∀ handle f, (r.step q).1.get? handle = some f ↔
        r.get? handle = some f ∨ r.made? q = some (handle, f) := by
  cases q with
  | declare name =>
    refine ⟨names_declare r name, fun handle f => ?_⟩
    simp [step, made?, get?_declare]
  | define handle schema =>
    cases hdefine : r.define handle schema with
    | error e => simp [step, made?, hdefine, Except.toOption, Request.name?]
    | ok defined =>
      obtain ⟨hnames, hschemas⟩ := define_eq_ok hdefine
      simpa [step, made?, hdefine, Except.toOption, Request.name?, hnames] using hschemas
  | register name schema =>
    rcases register_cases r name schema with ⟨defined, hdefine, hregister⟩ | ⟨e, hsame, hregister⟩
    · obtain ⟨hnames, hschemas⟩ := define_eq_ok hdefine
      refine ⟨?_, fun handle f => ?_⟩
      · simpa [step, hregister, Request.name?, names_declare] using hnames
      · simpa [step, made?, hregister, Except.toOption, get?_declare] using hschemas handle f
    · have hnames : addName r.names name = r.names := by rw [← names_declare, hsame]
      simp [step, made?, hregister, Except.toOption, Request.name?, hnames]

/-- A request that fails changes nothing. -/
theorem step_of_error {r : Registry} {q : Request} {e : CompileError}
    (h : (r.step q).2 = .error e) : (r.step q).1 = r := by
  cases q with
  | declare name => cases h
  | define handle schema =>
    cases hdefine : r.define handle schema with
    | error e' => simp only [step, hdefine]
    | ok defined =>
      simp only [step, hdefine] at h
      cases h
  | register name schema =>
    rcases register_cases r name schema with ⟨defined, -, hregister⟩ | ⟨e', -, hregister⟩
    · simp only [step, hregister] at h
      cases h
    · simp only [step, hregister]

/-- A handle that is given out has the name it was asked for. -/
theorem name?_of_step {r : Registry} {q : Request} {handle : Nat}
    (h : (r.step q).2 = .ok (some handle)) :
    ∃ name, q.name? = some name ∧ (r.step q).1.name? handle = some name := by
  cases q with
  | declare name =>
    obtain rfl : (r.declare name).2 = handle := by simpa [step] using h
    exact ⟨name, rfl, name?_declare r name⟩
  | define handle' schema =>
    cases hdefine : r.define handle' schema with
    | error e => simp [step, hdefine] at h
    | ok defined => simp [step, hdefine] at h
  | register name schema =>
    rcases register_cases r name schema with ⟨defined, hdefine, hregister⟩ | ⟨e, -, hregister⟩
    · have hhandle : (r.declare name).2 = handle := by
        simpa [step, hregister, Except.map] using h
      refine ⟨name, rfl, ?_⟩
      have hname := name?_declare r name
      rw [name?_eq, ← (define_eq_ok hdefine).1, ← name?_eq, hhandle] at hname
      simpa [step, hregister] using hname
    · simp [step, hregister, Except.map] at h

/-! ## Runs -/

theorem names_run (r : Registry) (requests : List Request) :
    (r.run requests).names = (declared requests).foldl addName r.names := by
  induction requests generalizing r with
  | nil => rfl
  | cons q rest ih =>
    rw [run_cons, ih, (step_spec r q).1]
    cases hname : q.name? with
    | none => simp [declared, hname]
    | some name => simp [declared, hname]

theorem get?_run (r : Registry) (requests : List Request) (handle : Nat) (f : Fragment) :
    (r.run requests).get? handle = some f ↔
      r.get? handle = some f ∨ (handle, f) ∈ r.made requests := by
  induction requests generalizing r with
  | nil => simp [made]
  | cons q rest ih =>
    rw [run_cons, ih, (step_spec r q).2, made, List.mem_append, Option.mem_toList, or_assoc]

theorem prefix_addName (ns : List String) (name : String) : ns <+: addName ns name := by
  unfold addName
  split
  · exact List.prefix_rfl
  · exact List.prefix_append _ _

theorem prefix_foldl_addName (ns added : List String) : ns <+: added.foldl addName ns := by
  induction added generalizing ns with
  | nil => exact List.prefix_rfl
  | cons name rest ih => exact (prefix_addName ns name).trans (ih _)

theorem mem_addName_iff {ns : List String} {added name : String} :
    name ∈ addName ns added ↔ name ∈ ns ∨ name = added := by
  unfold addName
  split
  · next hmem =>
    exact ⟨Or.inl, fun h => h.elim id (fun heq => heq ▸ hmem)⟩
  · simp

theorem mem_foldl_addName_iff {name : String} {ns added : List String} :
    name ∈ added.foldl addName ns ↔ name ∈ ns ∨ name ∈ added := by
  induction added generalizing ns with
  | nil => simp
  | cons first rest ih => rw [List.foldl_cons, ih, mem_addName_iff, List.mem_cons, or_assoc]

/-- Names that are all there already add nothing. -/
theorem foldl_addName_of_subset {ns added : List String} (h : ∀ name ∈ added, name ∈ ns) :
    added.foldl addName ns = ns := by
  induction added with
  | nil => rfl
  | cons first rest ih =>
    rw [List.foldl_cons, show addName ns first = ns from if_pos (h first List.mem_cons_self)]
    exact ih (fun name hname => h name (List.mem_cons_of_mem _ hname))

/-- A name keeps its handle when others are appended. -/
theorem lookup_of_prefix {r r' : Registry} (h : r.names <+: r'.names) {name : String}
    {handle : Nat} (hlookup : r.lookup name = some handle) : r'.lookup name = some handle := by
  obtain ⟨more, hmore⟩ := h
  rw [lookup_eq, List.idxOf?_eq_some_iff] at hlookup ⊢
  obtain ⟨hlt, hname, hfirst⟩ := hlookup
  have hget : ∀ j (hj : j < r.names.length), ∃ hj' : j < r'.names.length,
      r'.names[j] = r.names[j] := by
    intro j hj
    have hj' : j < r'.names.length := by
      rw [← hmore, List.length_append]
      omega
    refine ⟨hj', ?_⟩
    simp only [← hmore]
    exact List.getElem_append_left hj
  obtain ⟨hlt', hsame⟩ := hget handle hlt
  refine ⟨hlt', hsame.trans hname, fun j hj => ?_⟩
  obtain ⟨_, hsame'⟩ := hget j (by omega)
  rw [hsame']
  exact hfirst j hj

theorem name?_of_prefix {r r' : Registry} (h : r.names <+: r'.names) {handle : Nat} {name : String}
    (hname : r.name? handle = some name) : r'.name? handle = some name := by
  rw [name?_eq] at hname ⊢
  obtain ⟨more, hmore⟩ := h
  obtain ⟨hlt, -⟩ := List.getElem?_eq_some_iff.mp hname
  rw [← hmore, List.getElem?_append_left hlt, hname]

theorem nodup_addName {ns : List String} (h : ns.Nodup) (name : String) :
    (addName ns name).Nodup := by
  unfold addName
  split
  · exact h
  · next hfresh => exact List.nodup_append_comm.mp (List.nodup_cons.mpr ⟨hfresh, h⟩)

/-- Adding names keeps them different and keeps those that were there in their places. -/
theorem foldl_addName {ns : List String} (h : ns.Nodup) (added : List String) :
    (added.foldl addName ns).Nodup ∧ ns <+: added.foldl addName ns := by
  refine ⟨?_, prefix_foldl_addName ns added⟩
  induction added generalizing ns with
  | nil => exact h
  | cons name rest ih => exact ih (nodup_addName h name)

theorem nodup_names_run (requests : List Request) : (empty.run requests).names.Nodup := by
  rw [names_run]
  exact (foldl_addName List.nodup_nil _).1

theorem name?_run {r : Registry} (h : r.names.Nodup) {handle : Nat} {name : String}
    (hname : r.name? handle = some name) (requests : List Request) :
    (r.run requests).name? handle = some name := by
  refine name?_of_prefix ?_ hname
  rw [names_run]
  exact (foldl_addName h (declared requests)).2

/-- Whatever has been asked of a registry that was empty at first: no name was declared twice and
each is found by its handle; a handle that is given out is that of the name; names and schemas stay
whatever comes next; a request that fails changes nothing; and requests that declare the same names
in the same order and make the same definitions, in any order, lead to the same registry. -/
theorem run_lawful (requests : List Request) :
    (empty.run requests).names.Nodup ∧
    (∀ handle < (empty.run requests).size, ∃ name,
      (empty.run requests).name? handle = some name ∧
        (empty.run requests).lookup name = some handle) ∧
    (∀ q handle, ((empty.run requests).step q).2 = .ok (some handle) → ∃ name,
      q.name? = some name ∧ ∀ more,
        (empty.run (requests ++ q :: more)).name? handle = some name) ∧
    (∀ more handle name, (empty.run requests).name? handle = some name →
      (empty.run (requests ++ more)).name? handle = some name) ∧
    (∀ more handle f, (empty.run requests).get? handle = some f →
      (empty.run (requests ++ more)).get? handle = some f) ∧
    (∀ q e, ((empty.run requests).step q).2 = .error e →
      empty.run (requests ++ [q]) = empty.run requests) ∧
    ∀ requests', declared requests' = declared requests →
      (∀ d, d ∈ empty.made requests' ↔ d ∈ empty.made requests) →
      empty.run requests' = empty.run requests := by
  have hnodup := nodup_names_run requests
  refine ⟨hnodup, fun handle hlt => ?_, fun q handle hgiven => ?_, fun more handle name hname => ?_,
    fun more handle f hf => ?_, fun q e herror => ?_, fun requests' hdeclared hmade => ?_⟩
  · have hlt' : handle < (empty.run requests).names.length := by rwa [length_names]
    have hname : (empty.run requests).name? handle = some (empty.run requests).names[handle] := by
      rw [name?_eq]
      exact List.getElem?_eq_getElem hlt'
    exact ⟨_, hname, lookup_of_name? hnodup hname⟩
  · obtain ⟨name, hq, hname⟩ := name?_of_step hgiven
    refine ⟨name, hq, fun more => ?_⟩
    have hnext : ((empty.run requests).step q).1.names.Nodup := by
      have h := nodup_names_run (requests ++ [q])
      rwa [run_append] at h
    rw [run_append, run_cons]
    exact name?_run hnext hname more
  · rw [run_append]
    exact name?_run hnodup hname more
  · rw [run_append]
    exact (get?_run _ more handle f).mpr (Or.inl hf)
  · rw [run_append]
    exact step_of_error herror
  · refine ext ?_ (fun handle f => ?_)
    · rw [names_run, names_run, hdeclared]
    · rw [get?_run, get?_run, hmade]

end HttpContract.Registry
