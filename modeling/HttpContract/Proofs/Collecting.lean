import Mathlib.Data.List.Induction
import HttpContract.Proofs.Sorted
import HttpContract.Service.Exchange

/-!
# Values collected under their names

The query and the headers of a request are lists of entries in which a name can occur several times.
Both become objects one entry after the other: the first value of a name stands alone, and each
further one is added to what is there. The entries read so far decide what the object holds
(`Collects`), and one more entry keeps it so (`Collects.insert`). So the object has exactly the
names that occur, each with all its values in their order (`Exchange.collects_exactly`).

Lists are interleavings of each other (`Interleaved`) if and only if they have the same values under
every name (`interleaved_iff`). Such lists make the same object. A query can be read off its object
up to interleaving. Headers cannot, since a value can contain a comma or bytes that are no text.
-/

namespace HttpContract

variable {α β γ : Type}

/-! ## Entries with one name -/

/-- The values under a name, in their order. -/
def valuesOf (entries : List (String × α)) (name : String) : List α :=
  (entries.filter (fun e => e.1 == name)).map (·.2)

@[simp] theorem valuesOf_nil (name : String) : valuesOf ([] : List (String × α)) name = [] := rfl

theorem valuesOf_cons (e : String × α) (rest : List (String × α)) (name : String) :
    valuesOf (e :: rest) name =
      if e.1 = name then e.2 :: valuesOf rest name else valuesOf rest name := by
  by_cases heq : e.1 = name <;> simp [valuesOf, heq]

theorem valuesOf_append (entries more : List (String × α)) (name : String) :
    valuesOf (entries ++ more) name = valuesOf entries name ++ valuesOf more name := by
  simp [valuesOf]

theorem mem_valuesOf {entries : List (String × α)} {name : String} {value : α} :
    value ∈ valuesOf entries name ↔ (name, value) ∈ entries := by
  simp [valuesOf]

theorem valuesOf_ne_nil_iff {entries : List (String × α)} {name : String} :
    valuesOf entries name ≠ [] ↔ ∃ value, (name, value) ∈ entries := by
  constructor
  · intro h
    exact (List.exists_mem_of_ne_nil _ h).imp fun _ => mem_valuesOf.mp
  · rintro ⟨value, hvalue⟩
    exact List.ne_nil_of_mem (mem_valuesOf.mpr hvalue)

/-- The first value of a name comes from an entry before which the name does not occur. -/
theorem exists_eq_of_valuesOf {entries : List (String × α)} {name : String} {value : α}
    {values : List α} (h : valuesOf entries name = value :: values) :
    ∃ before after, entries = before ++ (name, value) :: after ∧ ∀ x ∈ before, x.1 ≠ name := by
  obtain ⟨e, rest, hfilter, rfl, -⟩ := List.map_eq_cons_iff.mp h
  obtain ⟨before, after, rfl, hbefore, hname, -⟩ := List.filter_eq_cons_iff.mp hfilter
  obtain rfl : e.1 = name := eq_of_beq hname
  exact ⟨before, after, rfl, fun x hx heq => hbefore x hx (beq_iff_eq.mpr heq)⟩

/-! ## Interleavings -/

/-- Lists that become each other when neighbours with different names change places. -/
inductive Interleaved : List (String × α) → List (String × α) → Prop
  | refl (entries : List (String × α)) : Interleaved entries entries
  | cons (e : String × α) {rest rest' : List (String × α)} :
    Interleaved rest rest' → Interleaved (e :: rest) (e :: rest')
  | swap {e e' : String × α} (rest : List (String × α)) :
    e.1 ≠ e'.1 → Interleaved (e :: e' :: rest) (e' :: e :: rest)
  | trans {xs ys zs : List (String × α)} :
    Interleaved xs ys → Interleaved ys zs → Interleaved xs zs

namespace Interleaved

variable {entries entries' : List (String × α)}

theorem valuesOf_eq (h : Interleaved entries entries') (name : String) :
    valuesOf entries name = valuesOf entries' name := by
  induction h with
  | refl entries => rfl
  | cons e h ih => rw [valuesOf_cons, valuesOf_cons, ih]
  | @swap e e' rest hne =>
    simp only [valuesOf_cons]
    by_cases heq : e.1 = name
    · have hother : e'.1 ≠ name := fun h => hne (heq.trans h.symm)
      simp [heq, hother]
    · simp [heq]
  | trans h h' ih ih' => exact ih.trans ih'

/-- An entry may be put behind entries with other names. -/
theorem behind {e : String × α} {before : List (String × α)} (after : List (String × α))
    (h : ∀ x ∈ before, x.1 ≠ e.1) :
    Interleaved (e :: (before ++ after)) (before ++ e :: after) := by
  induction before with
  | nil => exact refl (e :: after)
  | cons x rest ih =>
    have hne : e.1 ≠ x.1 := (h x List.mem_cons_self).symm
    have hrest : Interleaved (e :: (rest ++ after)) (rest ++ e :: after) :=
      ih fun y hy => h y (List.mem_cons_of_mem x hy)
    exact (swap (rest ++ after) hne).trans (hrest.cons x)

theorem of_valuesOf_eq (h : ∀ name, valuesOf entries name = valuesOf entries' name) :
    Interleaved entries entries' := by
  induction entries generalizing entries' with
  | nil =>
    cases entries' with
    | nil => exact refl []
    | cons e rest => simpa [valuesOf_cons] using h e.1
  | cons e rest ih =>
    -- The first entry is the first of its name on the other side, too, and can be put there.
    have hfirst : valuesOf entries' e.1 = e.2 :: valuesOf rest e.1 := by
      rw [← h e.1, valuesOf_cons, if_pos rfl]
    obtain ⟨before, after, rfl, hbefore⟩ := exists_eq_of_valuesOf hfirst
    have hbehind : Interleaved (e :: (before ++ after)) (before ++ e :: after) :=
      behind after hbefore
    refine trans (cons e (ih fun name => ?_)) hbehind
    have hname : valuesOf (e :: rest) name = valuesOf (e :: (before ++ after)) name :=
      (h name).trans (hbehind.valuesOf_eq name).symm
    rw [valuesOf_cons, valuesOf_cons] at hname
    split at hname
    · exact (List.cons.inj hname).2
    · exact hname

end Interleaved

theorem interleaved_iff {entries entries' : List (String × α)} :
    Interleaved entries entries' ↔ ∀ name, valuesOf entries name = valuesOf entries' name :=
  ⟨Interleaved.valuesOf_eq, Interleaved.of_valuesOf_eq⟩

/-! ## Objects made of entries -/

/-- The members have exactly the names of the entries, each with what all values under it make. -/
structure Collects (whole : List α → β) (entries : List (String × α)) (members : Fields β) :
    Prop where
  ordered : Fields.Ordered members
  mem_keys : ∀ name, name ∈ Fields.keys members ↔ ∃ value, (name, value) ∈ entries
  value_eq : ∀ m ∈ members, m.2 = whole (valuesOf entries m.1)

/-- What values make; without values there is nothing. -/
def gathered? (whole : List α → β) (values : List α) : Option β :=
  if values.isEmpty then none else some (whole values)

/-- A step from what the values so far make to what they make with one more. -/
def Accumulates (step : Option β → α → β) (whole : List α → β) : Prop :=
  ∀ values value, step (gathered? whole values) value = whole (values ++ [value])

section Collects

variable {step : Option β → α → β} {whole : List α → β} {entries entries' : List (String × α)}
  {members members' : Fields β}

theorem gathered?_eq_some_iff {values : List α} {b : β} :
    gathered? whole values = some b ↔ values ≠ [] ∧ whole values = b := by
  by_cases h : values = [] <;> simp [gathered?, h]

theorem gathered?_injective (h : Function.Injective whole) :
    Function.Injective (gathered? whole) := by
  intro values values' hmade
  by_cases hvalues' : values' = []
  · simpa [gathered?, hvalues'] using hmade
  · have hsome : gathered? whole values' = some (whole values') :=
      gathered?_eq_some_iff.mpr ⟨hvalues', rfl⟩
    exact h (gathered?_eq_some_iff.mp (hmade.trans hsome)).2

theorem collects_of_get? (hordered : Fields.Ordered members)
    (hget : ∀ name, Fields.get? members name = gathered? whole (valuesOf entries name)) :
    Collects whole entries members := by
  refine ⟨hordered, fun name => ?_, fun m hm => ?_⟩
  · rw [← Fields.contains_iff_mem_keys, Fields.contains, hget, Option.isSome_iff_exists,
      ← valuesOf_ne_nil_iff]
    simp [gathered?_eq_some_iff]
  · have hfound : gathered? whole (valuesOf entries m.1) = some m.2 :=
      (hget m.1).symm.trans (Fields.get?_of_mem hordered hm)
    exact (gathered?_eq_some_iff.mp hfound).2.symm

namespace Collects

theorem get?_eq (h : Collects whole entries members) (name : String) :
    Fields.get? members name = gathered? whole (valuesOf entries name) := by
  refine Option.ext fun b => ?_
  rw [gathered?_eq_some_iff, valuesOf_ne_nil_iff, ← h.mem_keys]
  constructor
  · intro hget
    have hmem : (name, b) ∈ members := Fields.mem_of_get? hget
    exact ⟨List.mem_map.mpr ⟨_, hmem, rfl⟩, (h.value_eq _ hmem).symm⟩
  · rintro ⟨hname, rfl⟩
    obtain ⟨m, hm, rfl⟩ := List.mem_map.mp hname
    rw [Fields.get?_of_mem h.ordered hm, h.value_eq m hm]

/-- The members are determined by the values under each name. -/
theorem eq_of_valuesOf_eq (h : Collects whole entries members)
    (h' : Collects whole entries' members')
    (hvalues : ∀ name, valuesOf entries name = valuesOf entries' name) : members = members' :=
  Fields.eq_of_get? h.ordered h'.ordered fun name => by rw [h.get?_eq, h'.get?_eq, hvalues]

/-- Where different values make different things, the members determine the values. -/
theorem valuesOf_eq (hwhole : Function.Injective whole) (h : Collects whole entries members)
    (h' : Collects whole entries' members) (name : String) :
    valuesOf entries name = valuesOf entries' name :=
  gathered?_injective hwhole ((h.get?_eq name).symm.trans (h'.get?_eq name))

/-- One more entry is added to what is stored under its name. -/
theorem insert (hstep : Accumulates step whole) (h : Collects whole entries members)
    (e : String × α) : Collects whole (entries ++ [e])
      (Fields.insert members e.1 (step (Fields.get? members e.1) e.2)) := by
  refine collects_of_get? (Fields.ordered_insert h.ordered _ _) fun name => ?_
  rw [valuesOf_append, valuesOf_cons, valuesOf_nil]
  by_cases heq : e.1 = name
  · subst heq
    rw [Fields.get?_insert_self, h.get?_eq, hstep, if_pos rfl, eq_comm, gathered?_eq_some_iff]
    exact ⟨by simp, rfl⟩
  · rw [Fields.get?_insert_of_ne _ _ heq, h.get?_eq, if_neg heq, List.append_nil]

/-- All entries are added one after the other. -/
theorem foldl (hstep : Accumulates step whole) (entries : List (String × α)) :
    Collects whole entries (entries.foldl (fun members e =>
      Fields.insert members e.1 (step (Fields.get? members e.1) e.2)) []) := by
  -- The entries before the last one are those that have been read.
  induction entries using List.reverseRecOn with
  | nil => exact collects_of_get? List.Pairwise.nil fun name => rfl
  | append_singleton entries e ih =>
    rw [List.foldl_append]
    exact ih.insert hstep e

theorem mapValues (f : β → γ) (h : Collects whole entries members) :
    Collects (fun values => f (whole values)) entries (Fields.mapValues f members) := by
  refine collects_of_get? (Fields.ordered_map (fun _ => f) h.ordered) fun name => ?_
  rw [Fields.mapValues, Fields.get?_map (fun _ => f), h.get?_eq]
  unfold gathered?
  split <;> rfl

end Collects

end Collects

namespace Exchange

/-! ## Queries -/

/-- What the values of one name of a query make: one value stands alone, several form a list. -/
def queryMember : List String → Json
  | [value] => .str value
  | values => .arr (values.map Json.str)

theorem queryMember_injective : Function.Injective queryMember := by
  have hlist : Function.Injective (List.map Json.str) :=
    List.map_injective_iff.mpr fun _ _ => Json.str.inj
  intro values values' h
  unfold queryMember at h
  split at h <;> split at h
  · rw [Json.str.inj h]
  · cases h
  · cases h
  · exact hlist (Json.arr.inj h)

/-- What stands under a name after one more value. -/
def withQueryValue (held : Option Json) (value : String) : Json :=
  match held with
  | none => .str value
  | some (.arr values) => .arr (values ++ [.str value])
  | some single => .arr [single, .str value]

theorem accumulates_withQueryValue : Accumulates withQueryValue queryMember
  | [], _ => rfl
  | [_], _ => rfl
  | first :: second :: rest, value => by simp [gathered?, withQueryValue, queryMember]

theorem collects_queryValue (pairs : List (String × String)) :
    ∃ members, queryValue pairs = .obj members ∧ Collects queryMember pairs members :=
  ⟨_, rfl, Collects.foldl accumulates_withQueryValue pairs⟩

/-! ## Headers -/

/-- What the values of one header make: their texts, with commas between them. -/
def headerText (values : List (List UInt8)) : String :=
  ", ".intercalate (values.map Utf8.decodeLossy)

/-- The text under a name after one more value. -/
def withHeaderValue (held : Option String) (value : List UInt8) : String :=
  match held with
  | none => Utf8.decodeLossy value
  | some others => others ++ ", " ++ Utf8.decodeLossy value

theorem accumulates_withHeaderValue : Accumulates withHeaderValue headerText := by
  intro values value
  cases values with
  | nil => simp [gathered?, withHeaderValue, headerText]
  | cons first rest =>
    rw [headerText, List.map_append, String.intercalate_append_of_ne_nil (by simp) (by simp),
      List.map_singleton, String.intercalate_singleton]
    rfl

theorem collects_headersValue (headers : Http.Headers) :
    ∃ members, headersValue headers = .obj members ∧
      Collects (fun values => .str (headerText values)) headers members :=
  ⟨_, rfl, (Collects.foldl accumulates_withHeaderValue headers).mapValues Json.str⟩

/-- The object of a query and that of headers have exactly the names that occur, each with all its
values in their order. Neither depends on how entries with different names are interleaved, and
queries that are no interleavings of each other have different objects. -/
theorem collects_exactly (pairs : List (String × String)) (headers : Http.Headers) :
    (∃ members, queryValue pairs = .obj members ∧ Collects queryMember pairs members) ∧
    (∃ members, headersValue headers = .obj members ∧
      Collects (fun values => .str (headerText values)) headers members) ∧
    (∀ pairs', queryValue pairs = queryValue pairs' ↔ Interleaved pairs pairs') ∧
    ∀ headers', Interleaved headers headers' → headersValue headers = headersValue headers' := by
  refine ⟨collects_queryValue pairs, collects_headersValue headers, fun pairs' => ?_,
    fun headers' h => ?_⟩
  · obtain ⟨members, heq, hmembers⟩ := collects_queryValue pairs
    obtain ⟨members', heq', hmembers'⟩ := collects_queryValue pairs'
    rw [heq, heq', Json.obj.injEq, interleaved_iff]
    constructor
    · rintro rfl
      exact hmembers.valuesOf_eq queryMember_injective hmembers'
    · exact hmembers.eq_of_valuesOf_eq hmembers'
  · obtain ⟨members, heq, hmembers⟩ := collects_headersValue headers
    obtain ⟨members', heq', hmembers'⟩ := collects_headersValue headers'
    rw [heq, heq', hmembers.eq_of_valuesOf_eq hmembers' h.valuesOf_eq]

/-- A query in which a name is repeated before and after another one. -/
def paged : List (String × String) := [("tag", "a"), ("limit", "5"), ("tag", "b"), ("tag", "c")]

/-- Headers in which a name is repeated behind another one, the second time with a byte that is no
text. -/
def labelled : Http.Headers := [("x-tag", [0x61]), ("accept", [0x2A]), ("x-tag", [0xFF])]

/-- The same headers, name by name. -/
def labelledByName : Http.Headers := [("accept", [0x2A]), ("x-tag", [0x61]), ("x-tag", [0xFF])]

theorem collects_exactly_labelled :
    (∃ members, queryValue paged = .obj members ∧ Collects queryMember paged members) ∧
    Interleaved labelled labelledByName ∧
    headersValue labelled = headersValue labelledByName ∧
    headersValue labelled = .obj [("accept", .str "*"), ("x-tag", .str "a, \uFFFD")] := by
  have hinterleaved : Interleaved labelled labelledByName := .swap _ (by decide)
  obtain ⟨hquery, -, -, hheaders⟩ := collects_exactly paged labelled
  exact ⟨hquery, hinterleaved, hheaders labelledByName hinterleaved, by decide +kernel⟩

example : queryValue paged =
    .obj [("limit", .str "5"), ("tag", .arr [.str "a", .str "b", .str "c"])] := by
  decide +kernel

end Exchange

end HttpContract
