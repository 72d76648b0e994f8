import HttpContract.OpenApi.Exploration
import HttpContract.Proofs.Tracing

/-!
# What descriptions are made into

Exploration follows references from operations to parameters, bodies and responses, so the schemas
of a route are made of schemas somewhere in the description (`Context.made_of_operation`), and every
route stands for an operation of a path (`Context.operation_of_paths`).
-/

namespace HttpContract.OpenApi

variable {cs : Components}

/-! ## Which schemas are rewritten -/

/-- The value stands somewhere in the document. -/
def Inside (d x : Json) : Prop := ∃ path, d.Within path x

theorem Inside.trans {d x y : Json} (h : Inside d x) (h' : Inside x y) : Inside d y := by
  obtain ⟨path, hpath⟩ := h
  obtain ⟨rest, hrest⟩ := h'
  exact ⟨path ++ rest, hpath.trans hrest⟩

theorem inside_of_get? {d x y : Json} {key : String} (h : Inside d x) (hy : x.get? key = some y) :
    Inside d y :=
  h.trans ⟨_, Json.within_of_get? hy⟩

theorem inside_of_mem {d : Json} {members : Fields Json} (h : Inside d (.obj members))
    {m : String × Json} (hm : m ∈ members) : Inside d m.2 :=
  h.trans ⟨_, .member hm .here⟩

theorem inside_of_mem_items {d : Json} {items : List Json} (h : Inside d (.arr items)) {x : Json}
    (hx : x ∈ items) : Inside d x := by
  obtain ⟨i, hi⟩ := List.mem_iff_getElem?.mp hx
  exact h.trans ⟨_, .item hi .here⟩

theorem inside_of_follow? {ts : List String} : ∀ {v x : Json},
    Json.Pointer.follow? v ts = some x → Inside v x := by
  induction ts with
  | nil =>
    intro v x h
    obtain rfl := Option.some.inj h
    exact ⟨[], .here⟩
  | cons t rest ih =>
    intro v x h
    obtain ⟨w, hw, hx⟩ := Option.bind_eq_some_iff.mp h
    have hstep : Inside v w := by
      cases v with
      | obj members => exact ⟨_, .member (Fields.mem_of_get? hw) .here⟩
      | arr items =>
        obtain ⟨i, -, hi⟩ := Option.bind_eq_some_iff.mp hw
        exact ⟨_, .item hi .here⟩
      | _ => cases hw
    exact hstep.trans (ih hx)

theorem inside_of_resolve? {d x : Json} {pointer : String}
    (h : Json.Pointer.resolve? d pointer = some x) : Inside d x := by
  obtain ⟨tokens, -, hfollow⟩ := Option.bind_eq_some_iff.mp h
  exact inside_of_follow? hfollow

theorem inside_of_follow {d : Json} {area : String} {fuel : Nat} : ∀ {v x : Json}, Inside d v →
    follow d area fuel v = .ok x → Inside d x := by
  induction fuel with
  | zero =>
    intro v x _ h
    cases h
  | succ fuel ih =>
    intro v x hv h
    rw [follow] at h
    split at h
    · obtain rfl := Except.ok.inj h
      exact hv
    · split at h
      · cases h
      · split at h
        · next target htarget => exact ih (inside_of_resolve? htarget) h
        · cases h

theorem Context.inside_of_resolve {c : Context} {area : String} {v x : Json}
    (hv : Inside c.document v) (h : c.resolve area v = .ok x) : Inside c.document x :=
  inside_of_follow hv h

/-- The schema is made of one of the description. -/
def Context.Made (c : Context) (s : Json) : Prop :=
  ∃ original, Inside c.document original ∧ rewrite c.components original = .ok s

theorem rewrite_of_fragment {schema : Json} {f : Fragment} (h : fragment cs schema = .ok f) :
    rewrite cs schema = .ok f.document := by
  unfold fragment at h
  obtain ⟨v, hv, h⟩ := bind_eq_ok h
  split at h
  · next f' hf =>
    obtain rfl := Except.ok.inj h
    unfold Fragment.ofJson at hf
    split at hf
    · obtain rfl := Except.ok.inj hf
      exact hv
    · cases hf
  · cases h

theorem Context.made_of_mediaSchema {c : Context} {holder : Json} {f : Fragment}
    (hholder : Inside c.document holder) (h : c.mediaSchema holder = .ok (some f)) :
    c.Made f.document := by
  unfold Context.mediaSchema at h
  split at h
  · cases h
  · next schema hschema =>
    obtain ⟨g, hfragment, hg⟩ := map_eq_ok h
    obtain rfl := Option.some.inj hg
    obtain ⟨media, hmedia, hschema⟩ := Option.bind_eq_some_iff.mp hschema
    obtain ⟨content, hcontent, hmedia⟩ := Option.bind_eq_some_iff.mp hmedia
    have hinside := inside_of_get? (inside_of_get? (inside_of_get? hholder hcontent) hmedia) hschema
    exact ⟨schema, hinside, rewrite_of_fragment hfragment⟩

theorem Context.made_of_responses {c : Context} : ∀ {entries : Fields Json}
    {responses : Fields (Option Fragment)}, (∀ m ∈ entries, Inside c.document m.2) →
      c.responses entries = .ok responses →
        ∀ status f, (status, some f) ∈ responses → c.Made f.document
  | [], responses, _, h => by
    obtain rfl := Except.ok.inj h
    simp
  | (key, v) :: rest, responses, hentries, h => by
    rw [Context.responses] at h
    obtain ⟨holder, hholder, h⟩ := bind_eq_ok h
    obtain ⟨g, hmedia, h⟩ := bind_eq_ok h
    obtain ⟨others, hothers, h⟩ := bind_eq_ok h
    have hrest := made_of_responses (List.forall_mem_cons.mp hentries).2 hothers
    have hinside := Context.inside_of_resolve (hentries _ List.mem_cons_self) hholder
    obtain rfl := Except.ok.inj h
    intro status f hf
    cases g with
    | none => exact hrest status f hf
    | some g =>
      rcases List.mem_cons.mp hf with heq | hf
      · obtain ⟨-, heq⟩ := Prod.mk.inj heq
        obtain rfl := Option.some.inj heq
        exact c.made_of_mediaSchema hinside hmedia
      · exact hrest status f hf

/-! ### Parameters -/

theorem Context.inside_of_parameter {c : Context} {v : Json} {p : Parameter}
    (hv : Inside c.document v) (h : c.parameter v = .ok p) : Inside c.document p.contents := by
  unfold Context.parameter at h
  obtain ⟨contents, hcontents, h⟩ := bind_eq_ok h
  split at h
  · cases h
  · split at h
    · cases h
    · obtain rfl := Except.ok.inj h
      exact Context.inside_of_resolve hv hcontents

theorem Context.inside_of_addParameters {c : Context} {ps ps' : List Parameter} {v : Option Json}
    (hv : ∀ x, v = some x → Inside c.document x)
    (hps : ∀ p ∈ ps, Inside c.document p.contents) (h : c.addParameters ps v = .ok ps') :
    ∀ p ∈ ps', Inside c.document p.contents := by
  unfold Context.addParameters at h
  split at h
  · obtain rfl := Except.ok.inj h
    exact hps
  · next items =>
    have hitems : ∀ x ∈ items, Inside c.document x :=
      fun x hx => inside_of_mem_items (hv _ rfl) hx
    clear hv
    induction items generalizing ps with
    | nil =>
      obtain rfl := Except.ok.inj h
      exact hps
    | cons x rest ih =>
      rw [List.foldlM_cons] at h
      obtain ⟨added, hadded, h⟩ := bind_eq_ok h
      obtain ⟨p, hx, rfl⟩ := map_eq_ok hadded
      refine ih (fun q hq => ?_) h (List.forall_mem_cons.mp hitems).2
      rcases List.mem_append.mp hq with hq | hq
      · exact hps q (List.mem_filter.mp hq).1
      · obtain rfl := List.mem_singleton.mp hq
        exact c.inside_of_parameter (hitems x List.mem_cons_self) hx
  · cases h

theorem Context.made_of_field? {c : Context} {p : Parameter} {field : Field}
    (hp : Inside c.document p.contents) (h : c.field? p = .ok (some field)) :
    field.schema = .bool true ∨ c.Made field.schema := by
  unfold Context.field? at h
  obtain ⟨slot?, -, h⟩ := bind_eq_ok h
  cases slot? with
  | none => cases h
  | some slot =>
    cases hschema : p.contents.get? "schema" with
    | none =>
      simp only [hschema] at h
      obtain rfl := Option.some.inj (Except.ok.inj h)
      exact Or.inl rfl
    | some schema =>
      simp only [hschema] at h
      obtain ⟨rewritten, hrewrite, h⟩ := bind_eq_ok h
      obtain rfl := Option.some.inj (Except.ok.inj h)
      exact Or.inr ⟨schema, inside_of_get? hp hschema, hrewrite⟩

/-- The fragment is a schema of an object whose properties admit everything or are made of schemas
of the description. -/
def Context.MadeOfFields (c : Context) (f : Fragment) : Prop :=
  ∃ fields, f = objectSchema fields ∧ ∀ field ∈ fields, field.schema = .bool true ∨ c.Made field.schema

theorem Context.made_of_parameters {c : Context} {shared own : Option Json}
    {slots : RequestSlot → Option Fragment} (hshared : ∀ x, shared = some x → Inside c.document x)
    (hown : ∀ x, own = some x → Inside c.document x)
    (h : c.parameters shared own = .ok slots) :
    ∀ slot f, slots slot = some f → c.MadeOfFields f := by
  unfold Context.parameters at h
  obtain ⟨ps, hps, h⟩ := bind_eq_ok h
  obtain ⟨all, hall, h⟩ := bind_eq_ok h
  obtain ⟨fields, hfields, h⟩ := bind_eq_ok h
  obtain rfl := Except.ok.inj h
  have hinside := c.inside_of_addParameters hown
    (c.inside_of_addParameters hshared (by simp) hps) hall
  have hmade : ∀ field, some field ∈ fields →
      field.schema = .bool true ∨ c.Made field.schema := by
    intro field hfield
    obtain ⟨p, hp, hpfield⟩ := exists_of_mem_mapM hfields hfield
    exact c.made_of_field? (hinside p hp) hpfield
  intro slot f hf
  dsimp only at hf
  split at hf
  · cases hf
  · obtain rfl := Option.some.inj hf
    refine ⟨_, rfl, fun field hfield => hmade field ?_⟩
    simpa using (List.mem_filter.mp hfield).1

/-! ### Operations -/

/-- The schema of the request body of an operation. -/
def Context.requestBody (c : Context) (v : Json) : Except Fault (Option Fragment) :=
  match v.get? "requestBody" with
  | none => .ok none
  | some b => c.resolve "requestBodies" b >>= c.mediaSchema

/-- The schemas of the responses of an operation. -/
def Context.declaredResponses (c : Context) (v : Json) : Except Fault (Fields (Option Fragment)) :=
  match v.get? "responses" with
  | none => .ok []
  | some (.obj entries) => c.responses entries
  | some _ => .error .responsesNotObject

theorem Context.operation_eq (c : Context) (shared : Option Json) (v : Json) :
    c.operation shared v = do
      let slots ← c.parameters shared (v.get? "parameters")
      let body ← c.requestBody v
      let responses ← c.declaredResponses v
      return ⟨slots .parameters, slots .query, slots .headers, body, responses⟩ := by
  unfold Context.operation Context.requestBody Context.declaredResponses
  cases c.parameters shared (v.get? "parameters") with
  | error e => rfl
  | ok slots =>
    rcases v.get? "requestBody" with _ | b
    · rcases v.get? "responses" with _ | (_ | _)
      all_goals rfl
    · simp only [bind_assoc]
      rcases v.get? "responses" with _ | (_ | _)
      all_goals rfl

theorem Context.made_of_requestBody {c : Context} {v : Json} {f : Fragment}
    (hv : Inside c.document v) (h : c.requestBody v = .ok (some f)) : c.Made f.document := by
  unfold Context.requestBody at h
  split at h
  · cases h
  · next b hb =>
    obtain ⟨holder, hholder, h⟩ := bind_eq_ok h
    exact c.made_of_mediaSchema (c.inside_of_resolve (inside_of_get? hv hb) hholder) h

theorem Context.made_of_declaredResponses {c : Context} {v : Json}
    {responses : Fields (Option Fragment)} (hv : Inside c.document v)
    (h : c.declaredResponses v = .ok responses) :
    ∀ status f, (status, some f) ∈ responses → c.Made f.document := by
  unfold Context.declaredResponses at h
  split at h
  · obtain rfl := Except.ok.inj h
    simp
  · next entries hentries =>
    exact c.made_of_responses (fun m hm => inside_of_mem (inside_of_get? hv hentries) hm) h
  · cases h

theorem Context.made_of_operation {c : Context} {shared : Option Json} {v : Json}
    {s : OperationSchemas} (hshared : ∀ x, shared = some x → Inside c.document x)
    (hv : Inside c.document v) (h : c.operation shared v = .ok s) :
    (∀ f, s.body = some f → c.Made f.document) ∧
      (∀ status f, (status, some f) ∈ s.responses → c.Made f.document) ∧
      ∀ slot f, slot ≠ .body → s.slot slot = some f → c.MadeOfFields f := by
  rw [c.operation_eq] at h
  obtain ⟨slots, hslots, h⟩ := bind_eq_ok h
  obtain ⟨body, hbody, h⟩ := bind_eq_ok h
  obtain ⟨responses, hresponses, h⟩ := bind_eq_ok h
  obtain rfl := Except.ok.inj h
  have hparameters := c.made_of_parameters hshared (fun x hx => inside_of_get? hv hx) hslots
  refine ⟨fun f hf => ?_, c.made_of_declaredResponses hv hresponses, fun slot f hne hf => ?_⟩
  · obtain rfl : body = some f := hf
    exact c.made_of_requestBody hv hbody
  · cases slot with
    | body => exact absurd rfl hne
    | _ => exact hparameters _ f hf

theorem Context.operation_of_paths {c : Context} {members : Fields Json} {routes : RouteTable}
    (h : c.paths members = .ok routes) {route : Route} {s : OperationSchemas}
    (hmem : (route, s) ∈ routes) : ∃ paths path v item method operation,
      Fields.get? members "paths" = some (.obj paths) ∧ (path, v) ∈ paths ∧
      c.resolve "pathItems" v = .ok item ∧ item.get? method = some operation ∧
      c.operation (item.get? "parameters") operation = .ok s ∧ route = Route.of method path := by
  unfold Context.paths at h
  split at h
  · obtain rfl := Except.ok.inj h
    cases hmem
  · next paths hpaths =>
    obtain ⟨tables, htables, rfl⟩ := map_eq_ok h
    obtain ⟨table, htable, hmem⟩ := List.mem_flatten.mp hmem
    obtain ⟨⟨path, v⟩, hpath, htable⟩ := exists_of_mem_mapM htables htable
    dsimp only at htable
    unfold Context.path at htable
    split at htable
    · cases htable
    · next item hitem =>
      obtain ⟨declared, hdeclared, rfl⟩ := map_eq_ok htable
      have hmem : some (route, s) ∈ declared := by simpa using hmem
      obtain ⟨method, -, hmethod⟩ := exists_of_mem_mapM hdeclared hmem
      unfold Context.declaration? at hmethod
      split at hmethod
      · cases hmethod
      · next operation hoperation =>
        split at hmethod
        · next schemas hschemas =>
          obtain ⟨rfl, rfl⟩ := Prod.mk.inj (Option.some.inj (Except.ok.inj hmethod))
          exact ⟨paths, path, v, item, method, operation, hpaths, hpath, hitem, hoperation,
            hschemas, rfl⟩
        · cases hmethod
  · cases h

end HttpContract.OpenApi
