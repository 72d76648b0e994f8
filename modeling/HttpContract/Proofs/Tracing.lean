import HttpContract.Proofs.Places
import HttpContract.Proofs.Pointwise
import HttpContract.OpenApi.Rewriting
import HttpContract.Schema.Marker

/-!
# Markers in schemas of descriptions

Rewriting a schema of a description leaves every part of it at its place, so a marker in what is
made of it stands where the schema has a reference, and names the handle of the component that is
referred to (`traces_of_rewrite`). The schemas themselves must be free of what looks like a marker:
rewriting would take it over.
-/

namespace HttpContract.OpenApi

/-! ## Where markers come from -/

/-- No object in the document has the key of markers. -/
def Unmarked (d : Json) : Prop :=
  ∀ path members, d.Within path (.obj members) → Fields.contains members Marker.key = false

theorem Unmarked.within {d x : Json} {path : List Step} (h : Unmarked d) (hx : d.Within path x) :
    Unmarked x :=
  fun rest members hmembers => h (path ++ rest) members (hx.trans hmembers)

theorem Unmarked.of_mem {members : Fields Json} (h : Unmarked (.obj members)) :
    ∀ m ∈ members, Unmarked m.2 :=
  fun _ hm => h.within (.member hm .here)

theorem Unmarked.of_mem_items {items : List Json} (h : Unmarked (.arr items)) :
    ∀ x ∈ items, Unmarked x := by
  intro x hx
  obtain ⟨i, hi⟩ := List.mem_iff_getElem?.mp hx
  exact h.within (.item hi .here)

theorem unmarked_obj_iff {members : Fields Json} : Unmarked (.obj members) ↔
    Fields.contains members Marker.key = false ∧ ∀ m ∈ members, Unmarked m.2 := by
  refine ⟨fun h => ⟨h [] members .here, h.of_mem⟩, fun ⟨hkey, h⟩ path members' hwithin => ?_⟩
  cases hwithin with
  | here => exact hkey
  | member hv hwithin => exact h _ hv _ members' hwithin

theorem unmarked_str (t : String) : Unmarked (.str t) := by
  intro path members h
  cases h

/-- At the place in the schema there is a reference to a component, and the members are those of the
marker for its handle. -/
def Refers (cs : Components) (v : Json) (path : List Step) (members' : Fields Json) : Prop :=
  ∃ members reference name handle, v.Within path (.obj members) ∧
    Fields.get? members "$ref" = some (.str reference) ∧ componentName? reference = some name ∧
    Fields.get? cs name = some handle ∧ members' = [(Marker.key, Json.ofNat handle)]

/-- Wherever the second schema has a marker, the first has a reference to the component. -/
def Traces (cs : Components) (v v' : Json) : Prop :=
  ∀ path members', v'.Within path (.obj members') →
    Fields.contains members' Marker.key = true → Refers cs v path members'

variable {cs : Components}

theorem Refers.member {members : Fields Json} {key : String} {v : Json} {path : List Step}
    {members' : Fields Json} (hv : (key, v) ∈ members) (h : Refers cs v path members') :
    Refers cs (.obj members) (.key key :: path) members' := by
  obtain ⟨ms, reference, name, handle, hwithin, hrest⟩ := h
  exact ⟨ms, reference, name, handle, .member hv hwithin, hrest⟩

theorem Refers.item {items : List Json} {i : Nat} {v : Json} {path : List Step}
    {members' : Fields Json} (hv : items[i]? = some v) (h : Refers cs v path members') :
    Refers cs (.arr items) (.index i :: path) members' := by
  obtain ⟨ms, reference, name, handle, hwithin, hrest⟩ := h
  exact ⟨ms, reference, name, handle, .item hv hwithin, hrest⟩

theorem Unmarked.traces {v' : Json} (h : Unmarked v') (cs : Components) (v : Json) :
    Traces cs v v' := by
  intro path members' hwithin hkey
  rw [h path members' hwithin] at hkey
  cases hkey

theorem traces_arr {items items' : List Json} (h : List.Forall₂ (Traces cs) items items') :
    Traces cs (.arr items) (.arr items') := by
  intro path members' hwithin hkey
  cases hwithin with
  | @item _ i x' _ _ hx' hwithin =>
    have hrel := rel_getElem? h i
    rw [hx'] at hrel
    cases hi : items[i]? with
    | none =>
      rw [hi] at hrel
      cases hrel
    | some x =>
      rw [hi] at hrel
      cases hrel with
      | some htraces => exact .item hi (htraces _ members' hwithin hkey)

theorem traces_obj {members entries : Fields Json}
    (hkey : Fields.contains entries Marker.key = false)
    (h : ∀ entry ∈ entries, Unmarked entry.2 ∨
      ∃ v, (entry.1, v) ∈ members ∧ Traces cs v entry.2) :
    Traces cs (.obj members) (.obj entries) := by
  intro path members' hwithin hmarked
  cases hwithin with
  | here =>
    rw [hkey] at hmarked
    cases hmarked
  | @member _ key v' _ rest hv' hwithin =>
    rcases h _ hv' with hunmarked | ⟨v, hv, htraces⟩
    · rw [hunmarked rest members' hwithin] at hmarked
      cases hmarked
    · exact .member hv (htraces rest members' hwithin hmarked)

theorem not_within_str {t : String} {path : List Step} {members : Fields Json} :
    ¬ (Json.str t).Within path (.obj members) := by
  intro h
  cases h

/-- Admitting null adds a text, and no marker. -/
theorem Traces.withNull {v v' : Json} (h : Traces cs v v') : Traces cs v (withNull v') := by
  unfold OpenApi.withNull
  split
  · refine Unmarked.traces (fun path members hwithin => ?_) cs v
    cases hwithin with
    | item hx hwithin =>
      rcases List.mem_pair.mp (List.mem_of_getElem? hx) with rfl | rfl
      all_goals exact absurd hwithin not_within_str
  · next ts =>
    split
    · exact h
    · intro path members' hwithin hkey
      cases hwithin with
      | @item _ i x _ rest hx hwithin =>
        by_cases hi : i < ts.length
        · rw [List.getElem?_append_left hi] at hx
          exact h _ members' (.item hx hwithin) hkey
        · rw [List.getElem?_append_right (Nat.le_of_not_lt hi)] at hx
          obtain rfl := List.mem_singleton.mp (List.mem_of_getElem? hx)
          exact absurd hwithin not_within_str
  · exact h

/-- A member of what is made of a schema holds examples, or comes from the member with its key. -/
def Stems (cs : Components) (members : Fields Json) (entry : String × Json) : Prop :=
  entry.1 = "examples" ∧ Unmarked entry.2 ∨ ∃ v, (entry.1, v) ∈ members ∧ Traces cs v entry.2

theorem Stems.cons {members : Fields Json} {entry : String × Json} (h : Stems cs members entry)
    (m : String × Json) : Stems cs (m :: members) entry := by
  rcases h with h | ⟨v, hv, htraces⟩
  · exact Or.inl h
  · exact Or.inr ⟨v, List.mem_cons_of_mem _ hv, htraces⟩

/-- The object made of members that stem from those of a schema. -/
theorem traces_rewritten {members : Fields Json} {entries : List (String × Json)}
    (hmembers : Fields.contains members Marker.key = false)
    (h : ∀ entry ∈ entries, Stems cs members entry) (nullable : Bool) :
    Traces cs (.obj members)
      (.obj (if nullable then widen (Fields.ofList entries) else Fields.ofList entries)) := by
  have hkey : Fields.contains (Fields.ofList entries) Marker.key = false := by
    rw [← Bool.not_eq_true, Fields.contains_iff]
    rintro ⟨v', hmem⟩
    rcases h _ (Fields.mem_of_mem_ofList hmem) with ⟨hexamples, -⟩ | ⟨v, hv, -⟩
    · simp [Marker.key] at hexamples
    · rw [(Fields.contains_iff _ _).mpr ⟨v, hv⟩] at hmembers
      cases hmembers
  have hentries : ∀ entry ∈ Fields.ofList entries, Unmarked entry.2 ∨
      ∃ v, (entry.1, v) ∈ members ∧ Traces cs v entry.2 :=
    fun entry hentry => (h entry (Fields.mem_of_mem_ofList hentry)).imp_left And.right
  cases nullable with
  | false => exact traces_obj hkey hentries
  | true =>
    rw [if_pos rfl]
    unfold widen
    split
    · next types htypes =>
      refine traces_obj ?_ (fun entry hentry => ?_)
      · rw [Fields.contains_insert, hkey]
        rfl
      · rcases Fields.mem_of_mem_insert hentry with rfl | hentry
        · rcases h _ (Fields.mem_of_mem_ofList (Fields.mem_of_get? htypes)) with
            ⟨hexamples, -⟩ | ⟨v, hv, htraces⟩
          · simp at hexamples
          · exact Or.inr ⟨v, hv, htraces.withNull⟩
        · exact hentries entry hentry
    · exact traces_obj hkey hentries

theorem traces_marker {members : Fields Json} {reference marked : Json}
    (href : Fields.get? members "$ref" = some reference) (h : marker cs reference = .ok marked) :
    Traces cs (.obj members) marked := by
  unfold marker at h
  split at h
  · split at h
    · cases h
    · next name hname =>
      split at h
      · next handle hhandle =>
        cases h
        intro path members' hwithin _
        cases hwithin with
        | here => exact ⟨members, _, name, handle, .here, href, hname, hhandle, rfl⟩
        | member hv hwithin =>
          obtain ⟨-, rfl⟩ := Prod.mk.inj (List.mem_singleton.mp hv)
          cases hwithin
      · cases h
  · cases h

/-- What becomes of the value of a keyword that stays. -/
def rewriteValue (cs : Components) (k : String) (v : Json) : Except Fault Json :=
  if dataKeywords.contains k then .ok v
  else if mapKeywords.contains k then
    match v with
    | .obj schemas => (rewriteNamed cs schemas).map .obj
    | other => .ok other
  else
    match v with
    | .arr items => (rewriteItems cs items).map .arr
    | other => rewrite cs other

theorem rewriteMembers_cons {k : String} (hdropped : droppedKeywords.contains k = false)
    (hexample : k ≠ "example") (v : Json) (rest : List (String × Json)) (exemplified : Bool) :
    rewriteMembers cs exemplified ((k, v) :: rest) = do
      let value ← rewriteValue cs k v
      let others ← rewriteMembers cs exemplified rest
      return (k, value) :: others := by
  rw [rewriteMembers, hdropped, if_neg Bool.false_ne_true, if_neg hexample]
  unfold rewriteValue
  split
  · rfl
  · split
    · cases v <;> rfl
    · cases v <;> rfl

/-- The members of the second object come from those of the first with their keys. -/
def TracesNamed (cs : Components) (schemas entries : List (String × Json)) : Prop :=
  ∀ entry ∈ entries, ∃ v, (entry.1, v) ∈ schemas ∧ Traces cs v entry.2

theorem TracesNamed.traces {schemas entries : Fields Json} (h : TracesNamed cs schemas entries)
    (hunmarked : Unmarked (.obj schemas)) : Traces cs (.obj schemas) (.obj entries) := by
  refine traces_obj ?_ (fun entry hentry => Or.inr (h entry hentry))
  rw [← Bool.not_eq_true, Fields.contains_iff]
  rintro ⟨v', hmem⟩
  obtain ⟨v, hv, -⟩ := h _ hmem
  have hkey := hunmarked [] schemas .here
  rw [(Fields.contains_iff _ _).mpr ⟨v, hv⟩] at hkey
  cases hkey

theorem traces_of_rewriteValue {k : String} {v value : Json} (hunmarked : Unmarked v)
    (hrewrite : ∀ v', rewrite cs v = .ok v' → Traces cs v v')
    (hnamed : ∀ schemas entries, v = .obj schemas → rewriteNamed cs schemas = .ok entries →
      TracesNamed cs schemas entries)
    (hitems : ∀ items items', v = .arr items → rewriteItems cs items = .ok items' →
      List.Forall₂ (Traces cs) items items')
    (h : rewriteValue cs k v = .ok value) : Traces cs v value := by
  unfold rewriteValue at h
  split at h
  · obtain rfl := Except.ok.inj h
    exact hunmarked.traces cs v
  · split at h
    · split at h
      · next schemas =>
        obtain ⟨entries, hentries, rfl⟩ := map_eq_ok h
        exact (hnamed schemas entries rfl hentries).traces hunmarked
      · obtain rfl := Except.ok.inj h
        exact hunmarked.traces cs v
    · split at h
      · next items =>
        obtain ⟨items', hrewritten, rfl⟩ := map_eq_ok h
        exact traces_arr (hitems items items' rfl hrewritten)
      · exact hrewrite value h

/-- What a keyword contributes to what is made of a schema. -/
theorem stems_of_cons {k : String} {v : Json} {rest : List (String × Json)} {exemplified : Bool}
    {entries : List (String × Json)} (hunmarked : Unmarked v)
    (hvalue : ∀ value, rewriteValue cs k v = .ok value → Traces cs v value)
    (hrest : ∀ others, rewriteMembers cs exemplified rest = .ok others →
      ∀ entry ∈ others, Stems cs rest entry)
    (h : rewriteMembers cs exemplified ((k, v) :: rest) = .ok entries) :
    ∀ entry ∈ entries, Stems cs ((k, v) :: rest) entry := by
  have hlater : ∀ others, rewriteMembers cs exemplified rest = .ok others →
      ∀ entry ∈ others, Stems cs ((k, v) :: rest) entry :=
    fun others hothers entry hentry => (hrest others hothers entry hentry).cons _
  by_cases hdropped : droppedKeywords.contains k = true
  · rw [rewriteMembers, if_pos hdropped] at h
    exact hlater entries h
  rw [Bool.not_eq_true] at hdropped
  by_cases hexample : k = "example"
  · rw [rewriteMembers, hdropped, if_neg Bool.false_ne_true, if_pos hexample] at h
    obtain ⟨others, hothers, h⟩ := bind_eq_ok h
    obtain rfl := Except.ok.inj h
    split
    · exact hlater others hothers
    · refine List.forall_mem_cons.mpr
        ⟨Or.inl ⟨rfl, fun path members hwithin => ?_⟩, hlater others hothers⟩
      cases hwithin with
      | item hx hwithin =>
        obtain rfl := List.mem_singleton.mp (List.mem_of_getElem? hx)
        exact hunmarked _ members hwithin
  · rw [rewriteMembers_cons hdropped hexample] at h
    obtain ⟨value, hv, h⟩ := bind_eq_ok h
    obtain ⟨others, hothers, h⟩ := bind_eq_ok h
    obtain rfl := Except.ok.inj h
    exact List.forall_mem_cons.mpr
      ⟨Or.inr ⟨v, List.mem_cons_self, hvalue value hv⟩, hlater others hothers⟩

-- The recursion is that of rewriting. Data is copied, so it is unmarked as it was in the
-- description.
mutual

/-- The markers in what is made of a schema stand where the schema has references. -/
theorem traces_of_rewrite : ∀ (v : Json) {v' : Json}, Unmarked v → rewrite cs v = .ok v' →
    Traces cs v v'
  | .obj members, v', hunmarked, h => by
    rw [rewrite] at h
    split at h
    · next reference href => exact traces_marker href h
    · obtain ⟨entries, hentries, h⟩ := bind_eq_ok h
      obtain rfl := Except.ok.inj h
      have hstems := stems_of_rewriteMembers members _ hunmarked.of_mem hentries
      have hobj := traces_rewritten (hunmarked [] members .here) hstems
        (decide (Fields.get? members "nullable" = some (.bool true)))
      simpa using hobj
  | .arr items, v', hunmarked, h => by
    obtain rfl := Except.ok.inj h
    exact hunmarked.traces cs _
  | .null, _, hunmarked, h => by
    obtain rfl := Except.ok.inj h
    exact hunmarked.traces cs _
  | .bool _, _, hunmarked, h => by
    obtain rfl := Except.ok.inj h
    exact hunmarked.traces cs _
  | .num _, _, hunmarked, h => by
    obtain rfl := Except.ok.inj h
    exact hunmarked.traces cs _
  | .str _, _, hunmarked, h => by
    obtain rfl := Except.ok.inj h
    exact hunmarked.traces cs _
termination_by structural v => v

theorem stems_of_rewriteMembers : ∀ (members : List (String × Json)) (exemplified : Bool)
    {entries : List (String × Json)}, (∀ m ∈ members, Unmarked m.2) →
      rewriteMembers cs exemplified members = .ok entries →
        ∀ entry ∈ entries, Stems cs members entry
  | [], _, entries, _, h => by
    obtain rfl := Except.ok.inj h
    simp
  | (k, v) :: rest, exemplified, entries, hunmarked, h => by
    have hv : Unmarked v := hunmarked _ List.mem_cons_self
    refine stems_of_cons hv (fun value => traces_of_rewriteValue hv
      (fun v' => traces_of_rewrite v hv) (fun schemas entries => tracesNamed_of_obj v hv)
      (fun items items' => traces_of_arr v hv)) (fun others hothers => ?_) h
    exact stems_of_rewriteMembers rest exemplified (List.forall_mem_cons.mp hunmarked).2 hothers
termination_by structural members => members

theorem tracesNamed_of_obj : ∀ (v : Json) {schemas entries : List (String × Json)}, Unmarked v →
    v = .obj schemas → rewriteNamed cs schemas = .ok entries → TracesNamed cs schemas entries
  | .obj members, schemas, entries, hunmarked, hv, h => by
    obtain rfl := Json.obj.inj hv
    exact tracesNamed_of_rewriteNamed members hunmarked.of_mem h
  | .arr _, _, _, _, hv, _ => by cases hv
  | .null, _, _, _, hv, _ => by cases hv
  | .bool _, _, _, _, hv, _ => by cases hv
  | .num _, _, _, _, hv, _ => by cases hv
  | .str _, _, _, _, hv, _ => by cases hv
termination_by structural v => v

theorem traces_of_arr : ∀ (v : Json) {items items' : List Json}, Unmarked v → v = .arr items →
    rewriteItems cs items = .ok items' → List.Forall₂ (Traces cs) items items'
  | .arr xs, items, items', hunmarked, hv, h => by
    obtain rfl := Json.arr.inj hv
    exact traces_of_rewriteItems xs hunmarked.of_mem_items h
  | .obj _, _, _, _, hv, _ => by cases hv
  | .null, _, _, _, hv, _ => by cases hv
  | .bool _, _, _, _, hv, _ => by cases hv
  | .num _, _, _, _, hv, _ => by cases hv
  | .str _, _, _, _, hv, _ => by cases hv
termination_by structural v => v

theorem tracesNamed_of_rewriteNamed : ∀ (schemas : List (String × Json))
    {entries : List (String × Json)}, (∀ m ∈ schemas, Unmarked m.2) →
      rewriteNamed cs schemas = .ok entries → TracesNamed cs schemas entries
  | [], entries, _, h => by
    obtain rfl := Except.ok.inj h
    exact fun entry hentry => absurd hentry List.not_mem_nil
  | (name, v) :: rest, entries, hunmarked, h => by
    rw [rewriteNamed] at h
    obtain ⟨v', hv, h⟩ := bind_eq_ok h
    obtain ⟨others, hothers, h⟩ := bind_eq_ok h
    obtain rfl := Except.ok.inj h
    have hrest := tracesNamed_of_rewriteNamed rest (List.forall_mem_cons.mp hunmarked).2 hothers
    refine List.forall_mem_cons.mpr ⟨⟨v, List.mem_cons_self,
      traces_of_rewrite v (hunmarked _ List.mem_cons_self) hv⟩, fun entry hentry => ?_⟩
    obtain ⟨x, hx, htraces⟩ := hrest entry hentry
    exact ⟨x, List.mem_cons_of_mem _ hx, htraces⟩
termination_by structural schemas => schemas

theorem traces_of_rewriteItems : ∀ (items : List Json) {items' : List Json},
    (∀ x ∈ items, Unmarked x) → rewriteItems cs items = .ok items' →
      List.Forall₂ (Traces cs) items items'
  | [], items', _, h => by
    obtain rfl := Except.ok.inj h
    exact .nil
  | v :: rest, items', hunmarked, h => by
    rw [rewriteItems] at h
    obtain ⟨v', hv, h⟩ := bind_eq_ok h
    obtain ⟨others, hothers, h⟩ := bind_eq_ok h
    obtain rfl := Except.ok.inj h
    exact .cons (traces_of_rewrite v (hunmarked _ List.mem_cons_self) hv)
      (traces_of_rewriteItems rest (List.forall_mem_cons.mp hunmarked).2 hothers)
termination_by structural items => items

end

end HttpContract.OpenApi
