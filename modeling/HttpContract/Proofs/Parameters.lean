import HttpContract.Proofs.Descriptions
import HttpContract.Proofs.Sorted

/-!
# Parameters of operations

The parameters of a path and then those of its operation are read one after the other. Each takes
the place of an earlier one with its place and name, so what is left is the last parameter of every
place and name (`Merged`, `merged_foldl`). Those that are left are grouped: a part of a request has
a schema when there are parameters with its place, and this schema describes objects with a property
for each of their names (`Context.parameters_grouped`).
-/

namespace HttpContract.OpenApi

/-! ## What the groups are to be -/

/-- The entries of a list of parameters. A list that is absent has none. -/
inductive Lists : Option Json → List Json → Prop where
  | absent : Lists none []
  | list (items : List Json) : Lists (some (.arr items)) items

/-- What an entry of such a list means: the document that it is or refers to, with the place and the
name in it. Names of headers are in lower case. -/
structure Reads (c : Context) (v : Json) (p : Parameter) : Prop where
  contents : c.resolve "parameters" v = .ok p.contents
  place : p.contents.get? "in" = some (.str p.place)
  name : ∃ name, p.contents.get? "name" = some (.str name) ∧
    p.name = if p.place = "header" then Ascii.lower name else name

/-- All parameters but cookies. -/
def heeded (ps : List Parameter) : List Parameter := ps.filter (fun p => p.place != "cookie")

/-- The last of the parameters with a place and a name. -/
def lastOf (ps : List Parameter) (place name : String) : Option Parameter :=
  (ps.filter (fun p => p.place == place && p.name == name)).getLast?

/-- The place of the parameters in a part of a request. Bodies are no parameters. -/
def placeOf? : RequestSlot → Option String
  | .parameters => some "path"
  | .query => some "query"
  | .headers => some "header"
  | .body => none

/-- The schema is made of the one that the parameter declares; without one everything is admitted. -/
def Parameter.Shaped (c : Context) (p : Parameter) (schema : Json) : Prop :=
  match p.contents.get? "schema" with
  | none => schema = .bool true
  | some s => rewrite c.components s = .ok schema

/-- A request without the parameter is in error. -/
def Parameter.Required (p : Parameter) : Prop :=
  p.place = "path" ∨ p.contents.get? "required" = some (.bool true)

/-- The schema of objects with the properties. -/
def objectDocument (properties : Fields Json) (required : List String) : Json :=
  .obj (("properties", .obj properties) ::
    (if required = [] then [] else [("required", .arr (required.map Json.str))]) ++
    [("type", .str "object")])

/-- The properties and the required ones are those that parameters have at a place. -/
structure Groups (c : Context) (ps : List Parameter) (place : String) (properties : Fields Json)
    (required : List String) : Prop where
  ordered : Fields.Ordered properties
  names : ∀ name, Fields.contains properties name = true ↔
    ∃ p ∈ ps, p.place = place ∧ p.name = name
  schemas : ∀ name p, lastOf ps place name = some p →
    ∃ schema, Fields.get? properties name = some schema ∧ p.Shaped c schema
  nodup : required.Nodup
  required : ∀ name, name ∈ required ↔ ∃ p, lastOf ps place name = some p ∧ p.Required

variable {c : Context} {read ps : List Parameter} {place name : String}

/-! ## The last of its kind -/

theorem lastOf_append (ps : List Parameter) (p : Parameter) (place name : String) :
    lastOf (ps ++ [p]) place name =
      if p.place = place ∧ p.name = name then some p else lastOf ps place name := by
  unfold lastOf
  rw [List.filter_append]
  by_cases h : p.place = place ∧ p.name = name
  · rw [if_pos h]
    simp [h.1, h.2]
  · have hother : (p.place == place && p.name == name) = false := by simpa using h
    rw [if_neg h]
    simp [hother]

theorem mem_of_lastOf {p : Parameter} (h : lastOf ps place name = some p) :
    p ∈ ps ∧ p.place = place ∧ p.name = name := by
  simpa using List.mem_filter.mp (List.mem_of_getLast? h)

theorem exists_lastOf_iff :
    (∃ p, lastOf ps place name = some p) ↔ ∃ p ∈ ps, p.place = place ∧ p.name = name := by
  constructor
  · rintro ⟨p, h⟩
    exact ⟨p, mem_of_lastOf h⟩
  · rintro ⟨p, hp, hplace, hname⟩
    apply Option.isSome_iff_exists.mp
    have hmem : p ∈ ps.filter (fun p => p.place == place && p.name == name) :=
      List.mem_filter.mpr ⟨hp, by simp [hplace, hname]⟩
    simpa [lastOf] using List.ne_nil_of_mem hmem

/-- Cookies do not matter for other places. -/
theorem lastOf_heeded (hplace : place ≠ "cookie") (ps : List Parameter) (name : String) :
    lastOf (heeded ps) place name = lastOf ps place name := by
  unfold lastOf heeded
  rw [List.filter_filter]
  congr 1
  apply List.filter_congr
  intro p _
  by_cases h : p.place = place
  · simp [h, hplace]
  · simp [h]

/-! ## Merging -/

/-- What tells parameters apart. -/
def Parameter.key (p : Parameter) : String × String := (p.place, p.name)

/-- Of the parameters that have been read, the last one with each place and name is left. -/
structure Merged (read ps : List Parameter) : Prop where
  mem_iff : ∀ p, p ∈ ps ↔ lastOf read p.place p.name = some p
  nodup : (ps.map Parameter.key).Nodup

theorem merged_nil : Merged [] [] := ⟨by simp [lastOf], by simp⟩

theorem mem_addParameter {p q : Parameter} :
    q ∈ addParameter ps p ↔ q ∈ ps ∧ q.key ≠ p.key ∨ q = p := by
  simp only [addParameter, List.mem_append, List.mem_filter, List.mem_singleton, Parameter.key,
    ne_eq, Prod.mk.injEq, Bool.not_eq_true', Bool.and_eq_false_iff, beq_eq_false_iff_ne]
  refine or_congr (and_congr_right fun _ => ?_) Iff.rfl
  tauto

/-- One parameter more. -/
theorem Merged.add (h : Merged read ps) (p : Parameter) :
    Merged (read ++ [p]) (addParameter ps p) := by
  constructor
  · intro q
    rw [mem_addParameter, lastOf_append]
    by_cases hkey : q.key = p.key
    · -- The new parameter is the only one that is left with its place and name.
      obtain ⟨hplace, hname⟩ := Prod.mk.inj hkey
      rw [if_pos ⟨hplace.symm, hname.symm⟩, Option.some.injEq]
      constructor
      · rintro (⟨-, hne⟩ | heq)
        · exact absurd hkey hne
        · exact heq.symm
      · intro heq
        exact Or.inr heq.symm
    · have hother : ¬ (p.place = q.place ∧ p.name = q.name) := by
        rintro ⟨hplace, hname⟩
        exact hkey (by simp [Parameter.key, hplace, hname])
      have hne : q ≠ p := by
        rintro rfl
        exact hkey rfl
      rw [if_neg hother, ← h.mem_iff q]
      simp [hkey, hne]
  · have hleft : ((ps.filter (fun q => !(q.name == p.name && q.place == p.place))).map
        Parameter.key).Nodup := h.nodup.sublist (List.filter_sublist.map _)
    have hnew : p.key ∉ (ps.filter (fun q => !(q.name == p.name && q.place == p.place))).map
        Parameter.key := by
      intro hmem
      obtain ⟨q, hq, hkey⟩ := List.mem_map.mp hmem
      obtain ⟨hplace, hname⟩ := Prod.mk.inj hkey
      simp [hplace, hname] at hq
    rw [addParameter, List.map_append, List.map_singleton]
    exact List.nodup_append.mpr ⟨hleft, List.pairwise_singleton _ _, by
      rintro a ha b hb rfl
      exact hnew (List.mem_singleton.mp hb ▸ ha)⟩

/-- Many parameters more. -/
theorem merged_foldl (h : Merged read ps) (later : List Parameter) :
    Merged (read ++ later) (later.foldl addParameter ps) := by
  induction later generalizing read ps with
  | nil => simpa using h
  | cons p rest ih => simpa using ih (h.add p)

theorem Merged.exists_left (h : Merged read ps) {p : Parameter} (hp : p ∈ heeded read) :
    ∃ q ∈ heeded ps, q.place = p.place := by
  obtain ⟨hread, hplace⟩ := List.mem_filter.mp hp
  obtain ⟨q, hq⟩ := exists_lastOf_iff.mpr ⟨p, hread, rfl, rfl⟩
  obtain ⟨-, hqplace, hqname⟩ := mem_of_lastOf hq
  rw [← hqplace, ← hqname] at hq
  exact ⟨q, List.mem_filter.mpr ⟨(h.mem_iff q).mpr hq, hqplace ▸ hplace⟩, hqplace⟩

theorem Merged.mem_heeded (h : Merged read ps) {p : Parameter} (hp : p ∈ heeded ps) :
    p ∈ heeded read := by
  obtain ⟨hleft, hplace⟩ := List.mem_filter.mp hp
  exact List.mem_filter.mpr ⟨(mem_of_lastOf ((h.mem_iff p).mp hleft)).1, hplace⟩

/-- Those that are left at a place are the last ones of their names. -/
theorem Merged.lastOf_eq_some_iff (h : Merged read ps) (hplace : place ≠ "cookie") (name : String)
    (p : Parameter) : lastOf (heeded read) place name = some p ↔
      p ∈ (heeded ps).filter (fun q => q.place == place) ∧ p.name = name := by
  rw [lastOf_heeded hplace, List.mem_filter, heeded, List.mem_filter]
  constructor
  · intro hlast
    obtain ⟨-, rfl, rfl⟩ := mem_of_lastOf hlast
    simpa [hplace] using (h.mem_iff p).mpr hlast
  · rintro ⟨⟨⟨hp, -⟩, heq⟩, rfl⟩
    obtain rfl := eq_of_beq heq
    exact (h.mem_iff p).mp hp

theorem Merged.nodup_names (h : Merged read ps) (place : String) :
    (((heeded ps).filter (fun q => q.place == place)).map (·.name)).Nodup := by
  have hkeys : (((heeded ps).filter (fun q => q.place == place)).map Parameter.key).Nodup :=
    h.nodup.sublist ((List.filter_sublist.trans List.filter_sublist).map _)
  rw [List.nodup_iff_pairwise_ne, List.pairwise_map] at hkeys ⊢
  refine hkeys.imp_of_mem (fun {p q} hp hq hne heq => hne (Prod.ext ?_ heq))
  have hplace : p.place = place ∧ q.place = place := by
    simpa using And.intro (List.mem_filter.mp hp).2 (List.mem_filter.mp hq).2
  exact hplace.1.trans hplace.2.symm

/-! ## Reading -/

theorem eq_str_of_text? {v : Json} {t : String} (h : v.text? = some t) : v = .str t := by
  cases v with
  | str s => exact congrArg Json.str (Option.some.inj h)
  | _ => cases h

theorem Context.reads_of_parameter {v : Json} {p : Parameter} (h : c.parameter v = .ok p) :
    Reads c v p := by
  unfold Context.parameter at h
  obtain ⟨contents, hcontents, h⟩ := bind_eq_ok h
  split at h
  · cases h
  · next name hname =>
    split at h
    · cases h
    · next place hplace =>
      obtain rfl := Except.ok.inj h
      obtain ⟨x, hx, htext⟩ := Option.bind_eq_some_iff.mp hname
      obtain ⟨y, hy, hplaced⟩ := Option.bind_eq_some_iff.mp hplace
      obtain rfl := eq_str_of_text? htext
      obtain rfl := eq_str_of_text? hplaced
      exact ⟨hcontents, hy, name, hx, rfl⟩

/-- The parameters of a list are read, and added in their order. -/
theorem Context.reads_of_addParameters {ps' : List Parameter} {list : Option Json}
    (h : c.addParameters ps list = .ok ps') : ∃ items read, Lists list items ∧
      List.Forall₂ (Reads c) items read ∧ ps' = read.foldl addParameter ps := by
  unfold Context.addParameters at h
  split at h
  · obtain rfl := Except.ok.inj h
    exact ⟨[], [], .absent, .nil, rfl⟩
  · next items =>
    suffices hread : ∃ read, List.Forall₂ (Reads c) items read ∧
        ps' = read.foldl addParameter ps by
      obtain ⟨read, hreads, hps⟩ := hread
      exact ⟨items, read, .list items, hreads, hps⟩
    induction items generalizing ps with
    | nil =>
      obtain rfl := Except.ok.inj h
      exact ⟨[], .nil, rfl⟩
    | cons v rest ih =>
      rw [List.foldlM_cons] at h
      obtain ⟨added, hadded, h⟩ := bind_eq_ok h
      obtain ⟨p, hp, rfl⟩ := map_eq_ok hadded
      obtain ⟨read, hreads, hps⟩ := ih h
      exact ⟨p :: read, .cons (c.reads_of_parameter hp) hreads, hps⟩
  · cases h

/-! ## Fields -/

/-- The field in the part of the request that the parameter's place names. -/
structure FieldOf (c : Context) (p : Parameter) (field : Field) : Prop where
  slot : placeOf? field.slot = some p.place
  name : field.name = p.name
  schema : p.Shaped c field.schema
  required : field.required = true ↔ p.Required

theorem placeOf?_inj {slot slot' : RequestSlot} (h : placeOf? slot = some place)
    (h' : placeOf? slot' = some place) : slot = slot' := by
  have heq := h.trans h'.symm
  cases slot <;> cases slot' <;> first | rfl | simp [placeOf?] at heq

theorem placeOf?_ne_cookie {slot : RequestSlot} (h : placeOf? slot = some place) :
    place ≠ "cookie" := by
  rintro rfl
  cases slot <;> simp [placeOf?] at h

theorem slotOf_eq_ok {p : Parameter} {slot? : Option RequestSlot} (h : slotOf p = .ok slot?) :
    slot? = none ∧ p.place = "cookie" ∨ ∃ slot, slot? = some slot ∧ placeOf? slot = some p.place := by
  unfold slotOf at h
  split at h
  · next hplace => exact Or.inr ⟨.parameters, (Except.ok.inj h).symm, congrArg some hplace.symm⟩
  · next hplace => exact Or.inr ⟨.query, (Except.ok.inj h).symm, congrArg some hplace.symm⟩
  · next hplace => exact Or.inr ⟨.headers, (Except.ok.inj h).symm, congrArg some hplace.symm⟩
  · next hplace => exact Or.inl ⟨(Except.ok.inj h).symm, hplace⟩
  · cases h

theorem Context.fieldOf_of_field? {p : Parameter} {field? : Option Field}
    (h : c.field? p = .ok field?) :
    field? = none ∧ p.place = "cookie" ∨ ∃ field, field? = some field ∧ FieldOf c p field := by
  unfold Context.field? at h
  obtain ⟨slot?, hslot, h⟩ := bind_eq_ok h
  rcases slotOf_eq_ok hslot with ⟨rfl, hplace⟩ | ⟨slot, rfl, hplace⟩
  · exact Or.inl ⟨(Except.ok.inj h).symm, hplace⟩
  · have hrequired : (p.place == "path" ||
        decide (p.contents.get? "required" = some (.bool true))) = true ↔ p.Required := by
      simp [Parameter.Required]
    right
    cases hschema : p.contents.get? "schema" with
    | none =>
      simp only [hschema] at h
      exact ⟨_, (Except.ok.inj h).symm, hplace, rfl, by simp [Parameter.Shaped, hschema], hrequired⟩
    | some s =>
      simp only [hschema] at h
      obtain ⟨schema, hrewrite, h⟩ := bind_eq_ok h
      exact ⟨_, (Except.ok.inj h).symm, hplace, rfl, by simpa [Parameter.Shaped, hschema],
        hrequired⟩

/-- All parameters but cookies have a field. -/
theorem Context.fieldsOf_of_mapM {fields : List (Option Field)}
    (h : ps.mapM c.field? = .ok fields) :
    List.Forall₂ (FieldOf c) (heeded ps) (fields.filterMap id) := by
  have hentries := forall₂_of_mapM h
  clear h
  induction hentries with
  | nil => exact .nil
  | cons hfield _ ih =>
    rcases c.fieldOf_of_field? hfield with ⟨rfl, hplace⟩ | ⟨field, rfl, hof⟩
    · simpa [heeded, hplace] using ih
    · have hplace := placeOf?_ne_cookie hof.slot
      simpa [heeded, hplace] using And.intro hof ih

/-! ## Groups -/

theorem objectSchema_document (fields : List Field) : (objectSchema fields).document =
    objectDocument (Fields.ofList (fields.map (fun f => (f.name, f.schema))))
      ((fields.filter (·.required)).map (·.name)) := by
  have htexts : (fields.filter (·.required)).map (fun f => Json.str f.name) =
      ((fields.filter (·.required)).map (·.name)).map Json.str := by
    rw [List.map_map]
    rfl
  unfold objectSchema objectDocument Json.ofMembers Fragment.ofMembers
  rw [htexts]
  generalize Fields.ofList (fields.map (fun f => (f.name, f.schema))) = properties
  have hproperties : "type" ≠ "properties" ∧ "properties" < "type" := by decide
  have hrequired : "properties" ≠ "required" ∧ ¬ "required" < "properties" ∧
    "type" ≠ "required" ∧ "required" < "type" := by decide
  cases (fields.filter (·.required)).map (·.name) with
  | nil =>
    simp only [Fields.ofList, Fields.insert, List.map_nil, List.isEmpty_nil, List.cons_append,
      List.nil_append, List.foldl_cons, List.foldl_nil, hproperties, if_true, if_false]
  | cons name rest =>
    simp only [Fields.ofList, Fields.insert, List.map_cons, List.isEmpty_cons, List.cons_append,
      List.nil_append, List.foldl_cons, List.foldl_nil, hproperties, hrequired, if_true, if_false,
      Bool.false_eq_true, reduceCtorEq]

/-- The schema of the fields of parameters that are the last ones of their names. -/
theorem groups_of_fields {left : List Parameter} {fields : List Field}
    (hfields : List.Forall₂ (FieldOf c) left fields) (hnodup : (left.map (·.name)).Nodup)
    (hleft : ∀ name p, lastOf ps place name = some p ↔ p ∈ left ∧ p.name = name) :
    Groups c ps place (Fields.ofList (fields.map (fun f => (f.name, f.schema))))
      ((fields.filter (·.required)).map (·.name)) := by
  have hnames : fields.map (·.name) = left.map (·.name) := by
    clear hnodup hleft
    induction hfields with
    | nil => rfl
    | cons hfield _ ih => rw [List.map_cons, List.map_cons, hfield.name, ih]
  have hunique : (fields.map (·.name)).Nodup := hnames ▸ hnodup
  have hkeys : (Fields.keys (fields.map (fun f => (f.name, f.schema)))).Nodup := by
    simpa [Fields.keys, Function.comp_def] using hunique
  refine ⟨Fields.ordered_ofList _, fun name => ?_, fun name p hp => ?_,
    hunique.sublist (List.filter_sublist.map _), fun name => ?_⟩
  · have hcontains : Fields.contains (Fields.ofList (fields.map (fun f => (f.name, f.schema)))) name =
        true ↔ name ∈ left.map (·.name) := by
      rw [← hnames, Fields.contains, Fields.get?_ofList hkeys, ← Fields.contains,
        Fields.contains_iff_mem_keys]
      simp [Fields.keys, Function.comp_def]
    rw [hcontains, ← exists_lastOf_iff, List.mem_map]
    exact exists_congr fun p => (hleft name p).symm
  · obtain ⟨hmem, rfl⟩ := (hleft name p).mp hp
    obtain ⟨field, hfield, hof⟩ := exists_of_forall₂ hfields hmem
    refine ⟨field.schema, ?_, hof.schema⟩
    rw [Fields.get?_ofList hkeys, ← hof.name]
    exact Fields.get?_of_mem_of_nodup hkeys (List.mem_map.mpr ⟨field, hfield, rfl⟩)
  · have hexists : (∃ p ∈ left, p.Required ∧ p.name = name) ↔
        ∃ field ∈ fields, field.required = true ∧ field.name = name :=
      exists_mem_iff_of_forall₂ (fun p field hof => by rw [hof.required, hof.name]) hfields
    have hmem : name ∈ (fields.filter (·.required)).map (·.name) ↔
        ∃ field ∈ fields, field.required = true ∧ field.name = name := by
      simp [and_assoc]
    rw [hmem, ← hexists]
    constructor
    · rintro ⟨p, hp, hrequired, hname⟩
      exact ⟨p, (hleft name p).mpr ⟨hp, hname⟩, hrequired⟩
    · rintro ⟨p, hp, hrequired⟩
      obtain ⟨hmem, hname⟩ := (hleft name p).mp hp
      exact ⟨p, hmem, hrequired, hname⟩

/-- The parameters of an operation are grouped by their places. Of several with the same place and
name the last one counts, and those of the operation come after those of its path. -/
theorem Context.parameters_grouped {c : Context} {shared own : Option Json}
    {slots : RequestSlot → Option Fragment} (h : c.parameters shared own = .ok slots) :
    ∃ items items' read, Lists shared items ∧ Lists own items' ∧
      List.Forall₂ (Reads c) (items ++ items') read ∧
      (∀ p ∈ heeded read, ∃ slot, placeOf? slot = some p.place) ∧
      ∀ slot, ((slots slot).isSome = true ↔ ∃ p ∈ heeded read, placeOf? slot = some p.place) ∧
        ∀ f, slots slot = some f → ∃ place properties required, placeOf? slot = some place ∧
          f.document = objectDocument properties required ∧
          Groups c (heeded read) place properties required := by
  unfold Context.parameters at h
  obtain ⟨ps, hshared, h⟩ := bind_eq_ok h
  obtain ⟨ps', hown, h⟩ := bind_eq_ok h
  obtain ⟨field?s, hfields, h⟩ := bind_eq_ok h
  obtain rfl := Except.ok.inj h
  obtain ⟨items, first, hitems, hfirst, rfl⟩ := c.reads_of_addParameters hshared
  obtain ⟨items', second, hitems', hsecond, rfl⟩ := c.reads_of_addParameters hown
  have hmerged : Merged (first ++ second)
      (second.foldl addParameter (first.foldl addParameter [])) :=
    merged_foldl (merged_foldl merged_nil first) second
  have hof := c.fieldsOf_of_mapM hfields
  generalize second.foldl addParameter (first.foldl addParameter []) = left at hmerged hof
  generalize field?s.filterMap id = fields at hof
  refine ⟨items, items', first ++ second, hitems, hitems', List.rel_append hfirst hsecond,
    fun p hp => ?_, fun slot => ⟨?_, fun f hf => ?_⟩⟩
  · obtain ⟨q, hq, hplace⟩ := hmerged.exists_left hp
    obtain ⟨field, -, hfield⟩ := exists_of_forall₂ hof hq
    exact ⟨field.slot, hplace ▸ hfield.slot⟩
  · have hhere : (∃ p ∈ heeded left, placeOf? slot = some p.place) ↔
        ∃ field ∈ fields, field.slot = slot :=
      exists_mem_iff_of_forall₂ (fun p field hfield =>
        ⟨fun hslot => placeOf?_inj hfield.slot hslot, fun heq => heq ▸ hfield.slot⟩) hof
    have hsome : (if (fields.filter (fun f => f.slot == slot)).isEmpty then none
        else some (objectSchema (fields.filter (fun f => f.slot == slot)))).isSome = true ↔
        ∃ field ∈ fields, field.slot = slot := by
      simp
    rw [hsome, ← hhere]
    constructor
    · rintro ⟨p, hp, hplace⟩
      exact ⟨p, hmerged.mem_heeded hp, hplace⟩
    · rintro ⟨p, hp, hplace⟩
      obtain ⟨q, hq, heq⟩ := hmerged.exists_left hp
      exact ⟨q, hq, heq ▸ hplace⟩
  · dsimp only at hf
    split at hf
    · cases hf
    · next hne =>
      obtain rfl := Option.some.inj hf
      obtain ⟨field, hfield⟩ := List.exists_mem_of_ne_nil _ (mt List.isEmpty_iff.mpr hne)
      obtain ⟨hmem, hslot⟩ := List.mem_filter.mp hfield
      obtain rfl := eq_of_beq hslot
      obtain ⟨p, -, hp⟩ := exists_of_forall₂ hof.flip hmem
      refine ⟨p.place, _, _, hp.slot, objectSchema_document _, groups_of_fields
        (filter_of_forall₂ (fun q field' hfield' => ?_) hof) (hmerged.nodup_names p.place)
        (hmerged.lastOf_eq_some_iff (placeOf?_ne_cookie hp.slot))⟩
      rw [Bool.eq_iff_iff, beq_iff_eq, beq_iff_eq]
      constructor
      · intro heq
        exact placeOf?_inj (heq ▸ hfield'.slot) hp.slot
      · intro heq
        exact Option.some.inj (hfield'.slot.symm.trans (heq ▸ hp.slot))

/-- A parameter that several paths refer to. -/
def tokenContext : Context :=
  ⟨.obj [("components", .obj [("parameters", .obj [("Token", .obj [("in", .str "header"),
    ("name", .str "X-Token"), ("required", .bool true)])])])], []⟩

/-- The parameters of a path: the token, a page that must be given, and a cookie. -/
def pathParameters : Json :=
  .arr [.obj [("$ref", .str "#/components/parameters/Token")],
    .obj [("in", .str "query"), ("name", .str "page"), ("required", .bool true)],
    .obj [("in", .str "cookie"), ("name", .str "id")]]

/-- Those of an operation: a page that may be left out, an id, and a token with another schema. -/
def operationParameters : Json :=
  .arr [.obj [("in", .str "query"), ("name", .str "page"),
      ("schema", .obj [("type", .str "integer")])],
    .obj [("in", .str "path"), ("name", .str "id")],
    .obj [("in", .str "header"), ("name", .str "x-TOKEN"), ("required", .bool true),
      ("schema", .obj [("type", .str "string")])]]

/-- The schemas of the parts of a request. -/
theorem parameters_tokenContext : ∃ slots,
    tokenContext.parameters (some pathParameters) (some operationParameters) = .ok slots ∧
    RequestSlot.all.map (fun slot => (slots slot).map (·.document)) =
      [some (objectDocument [("id", .bool true)] ["id"]),
        some (objectDocument [("page", .obj [("type", .str "integer")])] []),
        some (objectDocument [("x-token", .obj [("type", .str "string")])] ["x-token"]), none] := by
  have hdocuments : (tokenContext.parameters (some pathParameters)
      (some operationParameters)).toOption.map
        (fun slots => RequestSlot.all.map (fun slot => (slots slot).map (·.document))) =
      some [some (objectDocument [("id", .bool true)] ["id"]),
        some (objectDocument [("page", .obj [("type", .str "integer")])] []),
        some (objectDocument [("x-token", .obj [("type", .str "string")])] ["x-token"]), none] := by
    decide +kernel
  obtain ⟨slots, hslots, hmap⟩ := Option.map_eq_some_iff.mp hdocuments
  exact ⟨slots, toOption_eq_some_iff.mp hslots, hmap⟩

theorem parameters_grouped_tokenContext : ∃ slots,
    tokenContext.parameters (some pathParameters) (some operationParameters) = .ok slots ∧
    ∃ items items' read, Lists (some pathParameters) items ∧
      Lists (some operationParameters) items' ∧
      List.Forall₂ (Reads tokenContext) (items ++ items') read ∧
      (∀ p ∈ heeded read, ∃ slot, placeOf? slot = some p.place) ∧
      ∀ slot, ((slots slot).isSome = true ↔ ∃ p ∈ heeded read, placeOf? slot = some p.place) ∧
        ∀ f, slots slot = some f → ∃ place properties required, placeOf? slot = some place ∧
          f.document = objectDocument properties required ∧
          Groups tokenContext (heeded read) place properties required := by
  obtain ⟨slots, hslots, -⟩ := parameters_tokenContext
  exact ⟨slots, hslots, Context.parameters_grouped hslots⟩

end HttpContract.OpenApi
