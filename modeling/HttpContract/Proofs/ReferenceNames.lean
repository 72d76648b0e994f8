import HttpContract.Proofs.Exploring

/-!
# Names in references

The name of a component schema is written in a reference as a token of a pointer. Writing is two
replacements, of tildes first and of slashes then, and reading is two replacements the other way
round (`escape_eq_replaceAll`, `unescape_eq_replaceAll`). The order matters: the text that stands
for a slash holds a tilde, and `~01` stands for the text `~1`. Reading undoes writing, so the
reference to any name becomes the marker of the handle that was declared for it, and places differ
where their last tokens do (`reference_names_exactly`).
-/

namespace HttpContract

/-! ## Replacement -/

namespace Text

variable {α : Type} [DecidableEq α]

/-- Replace after passing over the given number of characters, which were replaced already. -/
def replaceAfter (old new : List α) : Nat → List α → List α
  | _, [] => []
  | skipped + 1, _ :: rest => replaceAfter old new skipped rest
  | 0, c :: rest =>
    if old.isPrefixOf (c :: rest) then new ++ replaceAfter old new (old.length - 1) rest
    else c :: replaceAfter old new 0 rest

/-- The text with `new` for each `old`, from left to right: what was put in is not looked at. -/
def replaceAll (old new cs : List α) : List α := replaceAfter old new 0 cs

variable {old new : List α}

@[simp] theorem replaceAll_nil : replaceAll old new [] = [] := rfl

theorem replaceAfter_append (skipped rest : List α) :
    replaceAfter old new skipped.length (skipped ++ rest) = replaceAll old new rest := by
  induction skipped with
  | nil => rfl
  | cons c more ih => exact ih

theorem replaceAll_append (hold : old ≠ []) (rest : List α) :
    replaceAll old new (old ++ rest) = new ++ replaceAll old new rest := by
  cases old with
  | nil => exact absurd rfl hold
  | cons c more =>
    have hprefix : (c :: more).isPrefixOf (c :: (more ++ rest)) = true :=
      List.isPrefixOf_iff_prefix.mpr ⟨rest, rfl⟩
    rw [List.cons_append, replaceAll, replaceAfter, if_pos hprefix]
    exact congrArg (new ++ ·) (replaceAfter_append more rest)

theorem replaceAll_cons {c : α} {rest : List α} (h : ¬ old <+: c :: rest) :
    replaceAll old new (c :: rest) = c :: replaceAll old new rest := by
  have hprefix : ¬ old.isPrefixOf (c :: rest) = true := by rwa [List.isPrefixOf_iff_prefix]
  rw [replaceAll, replaceAfter, if_neg hprefix]
  rfl

theorem replaceAll_cons_of_ne {o c : α} {more rest : List α} (h : o ≠ c) :
    replaceAll (o :: more) new (c :: rest) = c :: replaceAll (o :: more) new rest :=
  replaceAll_cons (fun hprefix => h (List.cons_prefix_cons.mp hprefix).1)

end Text

/-! ## Tokens -/

namespace Json.Pointer

open Text

/-- Tokens are written by replacing tildes and then slashes. -/
theorem escape_eq_replaceAll (cs : List Char) :
    escape cs = replaceAll ['/'] ['~', '1'] (replaceAll ['~'] ['~', '0'] cs) := by
  induction cs with
  | nil => rfl
  | cons c rest ih =>
    unfold escape
    split
    · next htilde =>
      subst htilde
      have hinner : replaceAll ['~'] ['~', '0'] ('~' :: rest) =
          '~' :: '0' :: replaceAll ['~'] ['~', '0'] rest :=
        replaceAll_append (by decide) rest
      rw [hinner, replaceAll_cons_of_ne (by decide), replaceAll_cons_of_ne (by decide), ih]
    · next htilde =>
      rw [replaceAll_cons_of_ne (Ne.symm htilde)]
      split
      · next hslash =>
        subst hslash
        have houter : replaceAll ['/'] ['~', '1'] ('/' :: replaceAll ['~'] ['~', '0'] rest) =
            '~' :: '1' :: replaceAll ['/'] ['~', '1'] (replaceAll ['~'] ['~', '0'] rest) :=
          replaceAll_append (by decide) _
        rw [houter, ih]
      · next hslash => rw [replaceAll_cons_of_ne (Ne.symm hslash), ih]

/-- A text that starts with a zero once slashes are read has done so before. -/
theorem zero_prefix_of_replaceAll {cs : List Char}
    (h : ['0'] <+: replaceAll ['~', '1'] ['/'] cs) : ['0'] <+: cs := by
  cases cs with
  | nil => exact h
  | cons c rest =>
    by_cases hslash : ['~', '1'] <+: c :: rest
    · obtain ⟨more, hmore⟩ := hslash
      rw [← hmore, replaceAll_append (by decide)] at h
      exact absurd (List.cons_prefix_cons.mp h).1 (by decide)
    · rw [replaceAll_cons hslash] at h
      exact List.cons_prefix_cons.mpr ⟨(List.cons_prefix_cons.mp h).1, List.nil_prefix⟩

/-- Tokens are read by replacing what stands for slashes and then what stands for tildes. -/
theorem unescape_eq_replaceAll (cs : List Char) :
    unescape cs = replaceAll ['~', '0'] ['~'] (replaceAll ['~', '1'] ['/'] cs) := by
  fun_induction unescape cs with
  | case1 => rfl
  | case2 rest ih =>
    have hinner : replaceAll ['~', '1'] ['/'] ('~' :: '1' :: rest) =
        '/' :: replaceAll ['~', '1'] ['/'] rest :=
      replaceAll_append (by decide) rest
    rw [hinner, replaceAll_cons_of_ne (by decide), ih]
  | case3 rest ih =>
    have hinner : replaceAll ['~', '1'] ['/'] ('~' :: '0' :: rest) =
        '~' :: '0' :: replaceAll ['~', '1'] ['/'] rest := by
      rw [replaceAll_cons (by simp), replaceAll_cons_of_ne (by decide)]
    have houter : replaceAll ['~', '0'] ['~'] ('~' :: '0' :: replaceAll ['~', '1'] ['/'] rest) =
        '~' :: replaceAll ['~', '0'] ['~'] (replaceAll ['~', '1'] ['/'] rest) :=
      replaceAll_append (by decide) _
    rw [hinner, houter, ih]
  | case4 c rest hone hzero ih =>
    have hnotSlash : ¬ ['~', '1'] <+: c :: rest := by
      rintro ⟨more, hmore⟩
      obtain ⟨rfl, rfl⟩ := List.cons.inj hmore
      exact hone more rfl rfl
    have hnotTilde : ¬ ['~', '0'] <+: c :: replaceAll ['~', '1'] ['/'] rest := by
      -- a zero behind the tilde would be one of the text itself
      intro hprefix
      obtain ⟨rfl, hrest⟩ := List.cons_prefix_cons.mp hprefix
      obtain ⟨more, rfl⟩ := zero_prefix_of_replaceAll hrest
      exact hzero more rfl rfl
    rw [replaceAll_cons hnotSlash, replaceAll_cons hnotTilde, ih]

theorem escape_inj {cs cs' : List Char} (h : escape cs = escape cs') : cs = cs' := by
  rw [← unescape_escape cs, h, unescape_escape]

/-- Different tokens make different places. -/
theorem child_inj {base token token' : String} (h : child base token = child base token') :
    token = token' := by
  have hchars : (child base token).toList = (child base token').toList := congrArg String.toList h
  simp only [child, String.toList_append, String.toList_ofList] at hchars
  have hescaped := (List.cons.inj (List.append_cancel_left hchars)).2
  exact String.toList_inj.mp (escape_inj hescaped)

end Json.Pointer

/-! ## References -/

namespace OpenApi

open Json.Pointer (escape unescape child)
open Text (replaceAll)

theorem stripStart?_append (start text : String) :
    stripStart? start (start ++ text) = some text := by
  have hstart : (start ++ text).startsWith start = true := by
    rw [String.startsWith_string_iff, String.toList_append]
    exact List.prefix_append _ _
  rw [stripStart?, if_pos hstart, String.toList_append, ← String.length_toList, List.drop_left,
    String.ofList_toList]

/-- The name is read from the pointer to the component schema. -/
theorem componentName?_escape (name : String) :
    componentName? (schemasPointer ++ String.ofList (escape name.toList)) = some name := by
  rw [componentName?, stripStart?_append, Option.map_some, String.toList_ofList,
    Json.Pointer.unescape_escape, String.ofList_toList]

/-- A reference to a declared name becomes the marker of its handle. -/
theorem rewrite_reference {components : Components} {members : Fields Json} {name : String}
    {handle : Nat} (hhandle : Fields.get? components name = some handle)
    (href : Fields.get? members "$ref" =
      some (.str (schemasPointer ++ String.ofList (escape name.toList)))) :
    rewrite components (.obj members) = .ok (Marker.deferred handle).toJson := by
  rw [rewrite, href]
  simp only [marker, componentName?_escape, hhandle]

theorem exists_handle_of_declareAll (r : Registry) {names : List String} {name : String}
    (h : name ∈ names) : ∃ handle, (declareAll r names).1.lookup name = some handle ∧
      Fields.get? (declareAll r names).2 name = some handle := by
  obtain ⟨hnames, -, hcomponents⟩ := declareAll_spec r names
  have hmem : name ∈ (declareAll r names).1.names := by
    rw [hnames]
    exact Registry.mem_foldl_addName_iff.mpr (Or.inr h)
  cases hlookup : (declareAll r names).1.lookup name with
  | none => exact absurd hmem (Registry.lookup_eq_none_iff.mp hlookup)
  | some handle => exact ⟨handle, rfl, by rw [hcomponents, if_pos h, hlookup]⟩

/-- Reading the name in a reference undoes the writing of tokens, each a pair of replacements. So a
reference with the written form of a component's name is rewritten to the marker of the handle that
was declared for this name, and below a place different tokens make different places. -/
theorem reference_names_exactly :
    (∀ cs : List Char,
      escape cs = replaceAll ['/'] ['~', '1'] (replaceAll ['~'] ['~', '0'] cs) ∧
      unescape cs = replaceAll ['~', '0'] ['~'] (replaceAll ['~', '1'] ['/'] cs) ∧
      unescape (escape cs) = cs) ∧
    (∀ (r : Registry) (names : List String), ∀ name ∈ names, ∃ handle,
      (declareAll r names).1.lookup name = some handle ∧
      ∀ members, Fields.get? members "$ref" =
          some (.str ("#/components/schemas/" ++ String.ofList (escape name.toList))) →
        rewrite (declareAll r names).2 (.obj members) = .ok (Marker.deferred handle).toJson) ∧
    ∀ base token token' : String, child base token = child base token' → token = token' := by
  refine ⟨fun cs => ⟨?_, ?_, ?_⟩, fun r names name hname => ?_, fun base token token' h => ?_⟩
  · exact Json.Pointer.escape_eq_replaceAll cs
  · exact Json.Pointer.unescape_eq_replaceAll cs
  · exact Json.Pointer.unescape_escape cs
  · obtain ⟨handle, hlookup, hhandle⟩ := exists_handle_of_declareAll r hname
    exact ⟨handle, hlookup, fun members href => rewrite_reference hhandle href⟩
  · exact Json.Pointer.child_inj h

end OpenApi

end HttpContract
