import HttpContract.Proofs.References

/-!
# Identifiers of handles under a renaming

Registries that declare the same names in another order give their schemas other handles, and so
other identifiers. `Identifier.rename` follows a map of handles on identifiers, also on those with a
query or a fragment behind them, and leaves all others alone. Resolution commutes with it
(`absolute_rename`), as long as the reference does not spell the common part of these identifiers
itself.
-/

namespace HttpContract

namespace Uri

/-! ## References taken apart and put together -/

theorem of_cutAt {p : Char → Bool} {cs front : List Char} {rest : Option (List Char)}
    (h : cutAt p cs = (front, rest)) : (∀ c ∈ front, p c = false) ∧
      match rest with
      | none => cs = front
      | some rest => ∃ c, p c = true ∧ cs = front ++ c :: rest := by
  unfold cutAt at h
  have htake : ∀ c ∈ cs.takeWhile (fun c => !p c), p c = false := by
    intro c hc
    simpa using List.mem_takeWhile_imp hc
  have happend := List.takeWhile_append_dropWhile (p := fun c => !p c) (l := cs)
  split at h
  · next hnil =>
    cases h
    rw [hnil, List.append_nil] at happend
    exact ⟨happend ▸ htake, rfl⟩
  · next c rest hcons =>
    cases h
    have hc : p c = true := by
      have hhead := List.head?_dropWhile_not (fun c => !p c) cs
      rw [hcons] at hhead
      simpa using hhead
    exact ⟨htake, c, hc, by rw [← hcons, happend]⟩

/-- The characters of a path, and of the other components as far as they matter. -/
structure Plain (u : Uri) : Prop where
  scheme : ∀ name, u.scheme = some name → ':' ∉ name.toList
  path : ∀ c ∈ u.path.toList, c ≠ '?' ∧ c ≠ '#'

theorem toList_text (u : Uri) : u.text.toList =
    ((u.scheme.map (fun name => name.toList ++ [':'])).getD []) ++
      ((u.authority.map (fun a => '/' :: '/' :: a.toList)).getD []) ++ u.path.toList ++
      ((u.query.map (fun q => '?' :: q.toList)).getD []) ++
      ((u.fragment.map (fun f => '#' :: f.toList)).getD []) := by
  rcases u with ⟨_ | scheme, _ | authority, path, _ | query, _ | fragment⟩ <;>
    simp [text, String.toList_append]

theorem append_of_cutAt {sep : Char} {cs front : List Char} {rest : Option (List Char)}
    (h : cutAt (· == sep) cs = (front, rest)) :
    cs = front ++ (rest.map (sep :: ·)).getD [] := by
  have hfacts := (of_cutAt h).2
  cases rest with
  | none => simpa using hfacts
  | some rest =>
    rcases hfacts with ⟨c, hc, hcs⟩
    rw [beq_iff_eq] at hc
    rw [hcs, hc]
    rfl

/-- The reference with the given characters in its components. -/
def ofChars (scheme authority : Option (List Char)) (path : List Char)
    (query fragment : Option (List Char)) : Uri :=
  ⟨scheme.map String.ofList, authority.map String.ofList, String.ofList path,
    query.map String.ofList, fragment.map String.ofList⟩

theorem text_and_plain_of_chars {s : String} {scheme authority query fragment : Option (List Char)}
    {path : List Char} (hs : s.toList =
      (((scheme.map (· ++ [':'])).getD [] ++ ((authority.map ('/' :: '/' :: ·)).getD [] ++ path)) ++
        (query.map ('?' :: ·)).getD []) ++ (fragment.map ('#' :: ·)).getD [])
    (hscheme : ∀ n, scheme = some n → ':' ∉ n) (hpath : ∀ c ∈ path, c ≠ '?' ∧ c ≠ '#') :
    (ofChars scheme authority path query fragment).text = s ∧
      (ofChars scheme authority path query fragment).Plain := by
  refine ⟨?_, ?_, ?_⟩
  · apply String.toList_injective
    rw [toList_text, hs]
    cases scheme <;> cases authority <;> cases query <;> cases fragment <;> simp [ofChars]
  · intro n hn
    rcases Option.map_eq_some_iff.mp hn with ⟨name, hname, rfl⟩
    simpa using hscheme name hname
  · simpa [ofChars] using hpath

/-- Nothing is lost when a reference is taken apart. -/
theorem text_split_and_plain (s : String) : (split s).text = s ∧ (split s).Plain := by
  rcases hfragment : cutAt (· == '#') s.toList with ⟨front, fragment⟩
  rcases hquery : cutAt (· == '?') front with ⟨middle, query⟩
  have hplain : ∀ c ∈ middle, c ≠ '?' ∧ c ≠ '#' := by
    intro c hc
    have hmark := (of_cutAt hquery).1 c hc
    have hhash := (of_cutAt hfragment).1 c (append_of_cutAt hquery ▸ List.mem_append_left _ hc)
    exact ⟨by simpa using hmark, by simpa using hhash⟩
  have hs : s.toList = (middle ++ (query.map ('?' :: ·)).getD []) ++
      (fragment.map ('#' :: ·)).getD [] := by
    rw [append_of_cutAt hfragment, append_of_cutAt hquery]
  -- whatever stands before the authority, the rest falls into authority and path
  have hrest : ∀ (scheme : Option (List Char)) (rest : List Char),
      middle = (scheme.map (· ++ [':'])).getD [] ++ rest → (∀ n, scheme = some n → ':' ∉ n) →
      ∀ (authority : Option (List Char)) (path : List Char),
        rest = (authority.map ('/' :: '/' :: ·)).getD [] ++ path →
      (ofChars scheme authority path query fragment).text = s ∧
        (ofChars scheme authority path query fragment).Plain := by
    rintro scheme rest hmiddle hscheme authority path rfl
    refine text_and_plain_of_chars (hs.trans (by rw [hmiddle])) hscheme (fun c hc => ?_)
    exact hplain c (hmiddle ▸ List.mem_append_right _ (List.mem_append_right _ hc))
  unfold split
  rw [hfragment]
  dsimp only
  rw [hquery]
  dsimp only
  rcases hname : cutAt (fun c => c == ':' || c == '/') middle with ⟨name, _ | after⟩
  · dsimp only
    split
    · exact hrest none _ rfl (by simp) (some _) _ (by simp)
    · exact hrest none _ rfl (by simp) none _ rfl
  · rcases of_cutAt hname with ⟨hno, c, -, hmiddle⟩
    dsimp only
    by_cases hif : isScheme name = true ∧ middle[name.length]? = some ':'
    · have hc : c = ':' := by simpa [hmiddle] using hif.2
      have hcolon : ∀ n, some name = some n → ':' ∉ n := by
        rintro _ ⟨⟩ hmem
        simpa using hno ':' hmem
      simp only [if_pos hif]
      split
      · next more =>
        exact hrest (some name) ('/' :: '/' :: more) (by simp [hmiddle, hc]) hcolon (some _) _
          (by simp)
      · exact hrest (some name) after (by simp [hmiddle, hc]) hcolon none _ rfl
    · simp only [if_neg hif]
      split
      · exact hrest none _ rfl (by simp) (some _) _ (by simp)
      · exact hrest none _ rfl (by simp) none _ rfl

theorem text_split (s : String) : (split s).text = s := (text_split_and_plain s).1

theorem plain_split (s : String) : (split s).Plain := (text_split_and_plain s).2

/-! ## The last segment of a path -/

theorem dropDots_last : ∀ (kept segs : List String), segs ≠ [] →
    ∃ front last, dropDots kept segs = front ++ [last] ∧
      (last = "" ∨ segs.getLast? = some last) := by
  intro kept segs
  fun_induction dropDots kept segs with
  | case1 => exact fun h => absurd rfl h
  | case2 kept => exact fun _ => ⟨kept.reverse, "", by simp, Or.inl rfl⟩
  | case3 kept => exact fun _ => ⟨(kept.drop 1).reverse, "", by simp, Or.inl rfl⟩
  | case4 kept rest hne ih =>
    intro _
    rcases ih (by simpa using hne) with ⟨front, last, heq, hlast⟩
    exact ⟨front, last, heq, hlast.imp_right (fun h => by simp [List.getLast?_cons, h])⟩
  | case5 kept rest hne ih =>
    intro _
    rcases ih (by simpa using hne) with ⟨front, last, heq, hlast⟩
    exact ⟨front, last, heq, hlast.imp_right (fun h => by simp [List.getLast?_cons, h])⟩
  | case6 kept s rest _ _ _ _ ih =>
    intro _
    by_cases hrest : rest = []
    · subst hrest
      exact ⟨kept.reverse, s, by simp [dropDots], Or.inr rfl⟩
    · rcases ih hrest with ⟨front, last, heq, hlast⟩
      exact ⟨front, last, heq, hlast.imp_right (fun h => by simp [List.getLast?_cons, h])⟩

theorem segments_ne_nil (path : String) : segments path ≠ [] := by
  unfold segments
  simp [List.splitOn_ne_nil]

/-- A normalized path without slashes is the last segment of the path, or empty. -/
theorem normalPath_eq_last {path : String} (h : '/' ∉ (normalPath path).toList) :
    normalPath path = "" ∨ (segments path).getLast? = some (normalPath path) := by
  unfold normalPath at h ⊢
  split at h
  · simp [String.toList_append] at h
  · next hsegments =>
    rcases dropDots_last [] (segments path) (segments_ne_nil path) with ⟨front, last, heq, hlast⟩
    rw [heq] at h ⊢
    cases front with
    | nil =>
      rw [List.nil_append, String.intercalate_singleton] at h ⊢
      exact hlast
    | cons x rest =>
      rw [List.cons_append, String.intercalate_cons_of_ne_nil (by simp)] at h
      simp [String.toList_append] at h

/-- The last segment of a merged path is that of the reference. -/
theorem getLast?_segments_mergePath (base : Uri) (path : String) :
    (segments (mergePath base path)).getLast? = (segments path).getLast? := by
  have hbehind : ∀ front : String,
      (segments (front ++ "/" ++ path)).getLast? = (segments path).getLast? := by
    intro front
    have happend : (front ++ "/" ++ path).toList = front.toList ++ '/' :: path.toList := by
      simp [String.toList_append]
    unfold segments
    rw [happend, List.splitOn_append_cons_self, List.map_append, List.getLast?_append,
      Option.or_of_isSome]
    rw [Option.isSome_iff_ne_none, ne_eq, List.getLast?_eq_none_iff, List.map_eq_nil_iff]
    exact List.splitOn_ne_nil _ _
  unfold mergePath
  split
  · have hempty : "/" ++ path = "" ++ "/" ++ path := by simp
    rw [hempty, hbehind]
  · cases hfront : (segments base.path).dropLast with
    | nil => rw [List.nil_append, String.intercalate_singleton]
    | cons x rest =>
      rw [String.intercalate_append_of_ne_nil (by simp) (by simp), String.intercalate_singleton,
        hbehind]

theorem infix_of_mem_splitOn {sep : Char} {cs x : List Char} (h : x ∈ cs.splitOn sep) :
    x <:+: cs := by
  have hmem : ∀ ls : List (List Char), x ∈ ls → x <:+: [sep].intercalate ls := by
    intro ls hx
    induction ls with
    | nil => simp at hx
    | cons l rest ih =>
      by_cases hrest : rest = []
      · subst hrest
        obtain rfl := List.mem_singleton.mp hx
        exact ⟨[], [], by simp⟩
      · rw [List.intercalate_cons_of_ne_nil hrest]
        rcases List.mem_cons.mp hx with rfl | hx
        · exact ⟨[], [sep] ++ [sep].intercalate rest, by simp⟩
        · exact (ih hx).trans (List.suffix_append _ _).isInfix
  have hinfix := hmem _ h
  rwa [List.intercalate_splitOn] at hinfix

theorem infix_of_getLast?_segments {path last : String}
    (h : (segments path).getLast? = some last) : last.toList <:+: path.toList := by
  rcases List.mem_map.mp (List.mem_of_getLast? h) with ⟨x, hx, rfl⟩
  simpa using infix_of_mem_splitOn hx

theorem mem_intercalate {sep : Char} {c : Char} : ∀ {ls : List (List Char)},
    c ∈ [sep].intercalate ls → c = sep ∨ ∃ l ∈ ls, c ∈ l
  | [], h => by simp at h
  | [l], h => Or.inr ⟨l, by simp, by simpa using h⟩
  | l :: m :: rest, h => by
    rw [List.intercalate_cons_cons] at h
    rcases List.mem_append.mp h with h | h
    · rcases List.mem_append.mp h with h | h
      · exact Or.inr ⟨l, by simp, h⟩
      · exact Or.inl (List.mem_singleton.mp h)
    · rcases mem_intercalate h with h | ⟨x, hx, hc⟩
      · exact Or.inl h
      · exact Or.inr ⟨x, List.mem_cons_of_mem _ hx, hc⟩

theorem mem_intercalate_slash {c : Char} {ls : List String}
    (h : c ∈ ("/".intercalate ls).toList) : c = '/' ∨ ∃ l ∈ ls, c ∈ l.toList := by
  rw [String.toList_intercalate] at h
  exact (mem_intercalate h).imp_right (by simp)

theorem mem_of_mem_dropDots {x : String} : ∀ (kept segs : List String),
    x ∈ dropDots kept segs → x = "" ∨ x ∈ kept ∨ x ∈ segs := by
  intro kept segs
  fun_induction dropDots kept segs with
  | case1 => simp_all
  | case2 kept =>
    intro h
    rcases List.mem_cons.mp (List.mem_reverse.mp h) with h | h
    · exact Or.inl h
    · exact Or.inr (Or.inl h)
  | case3 kept =>
    intro h
    rcases List.mem_cons.mp (List.mem_reverse.mp h) with h | h
    · exact Or.inl h
    · exact Or.inr (Or.inl (List.mem_of_mem_drop h))
  | case4 kept rest _ ih => exact fun h => (ih h).imp_right (Or.imp_right (List.mem_cons_of_mem _))
  | case5 kept rest _ ih =>
    exact fun h => (ih h).imp_right (Or.imp List.mem_of_mem_drop (List.mem_cons_of_mem _))
  | case6 kept s rest _ _ _ _ ih =>
    intro h
    rcases ih h with h | h | h
    · exact Or.inl h
    · rcases List.mem_cons.mp h with rfl | h
      · exact Or.inr (Or.inr List.mem_cons_self)
      · exact Or.inr (Or.inl h)
    · exact Or.inr (Or.inr (List.mem_cons_of_mem _ h))

theorem mem_of_mem_segments {path x : String} {c : Char} (hx : x ∈ segments path)
    (hc : c ∈ x.toList) : c ∈ path.toList := by
  rcases List.mem_map.mp hx with ⟨l, hl, rfl⟩
  exact (infix_of_mem_splitOn hl).subset (by simpa using hc)

/-- Normalization adds no characters but slashes. -/
theorem mem_of_mem_normalPath {path : String} {c : Char} (h : c ∈ (normalPath path).toList) :
    c = '/' ∨ c ∈ path.toList := by
  have hdots : ∀ segs : List String, segs ⊆ segments path →
      c ∈ ("/".intercalate (dropDots [] segs)).toList → c = '/' ∨ c ∈ path.toList := by
    intro segs hsub h
    rcases mem_intercalate_slash h with h | ⟨x, hx, hc⟩
    · exact Or.inl h
    · rcases mem_of_mem_dropDots [] segs hx with rfl | hx | hx
      · simp at hc
      · simp at hx
      · exact Or.inr (mem_of_mem_segments (hsub hx) hc)
  unfold normalPath at h
  split at h
  · next segs hsegs =>
    rw [String.toList_append] at h
    rcases List.mem_append.mp h with h | h
    · exact Or.inl (by simpa using h)
    · exact hdots segs (fun x hx => hsegs ▸ List.mem_cons_of_mem _ hx) h
  · exact hdots _ (fun x hx => hx) h

theorem mem_of_mem_mergePath {base : Uri} {path : String} {c : Char}
    (h : c ∈ (mergePath base path).toList) : c = '/' ∨ c ∈ base.path.toList ∨ c ∈ path.toList := by
  unfold mergePath at h
  split at h
  · rw [String.toList_append] at h
    rcases List.mem_append.mp h with h | h
    · exact Or.inl (by simpa using h)
    · exact Or.inr (Or.inr h)
  · rcases mem_intercalate_slash h with h | ⟨x, hx, hc⟩
    · exact Or.inl h
    · rcases List.mem_append.mp hx with hx | hx
      · exact Or.inr (Or.inl (mem_of_mem_segments (List.dropLast_subset _ hx) hc))
      · exact Or.inr (Or.inr (List.mem_singleton.mp hx ▸ hc))

/-! ## Resolution -/

/-- A reference that has more than a query and a fragment. -/
def Own (reference : Uri) : Prop :=
  reference.scheme.isSome = true ∨ reference.authority.isSome = true ∨ reference.path ≠ ""

/-- Of a reference with a path of its own only scheme and authority may come from the base; its
last segment is kept or dropped. -/
theorem path_resolve {base reference : Uri} (h : Own reference) :
    ∃ path, (resolve base reference).path = normalPath path ∧
      (segments path).getLast? = (segments reference.path).getLast? ∧
      ∀ c ∈ path.toList, c = '/' ∨ c ∈ base.path.toList ∨ c ∈ reference.path.toList := by
  unfold resolve
  split
  · exact ⟨reference.path, rfl, rfl, fun c hc => Or.inr (Or.inr hc)⟩
  · next hscheme =>
    split
    · exact ⟨reference.path, rfl, rfl, fun c hc => Or.inr (Or.inr hc)⟩
    · next hauthority =>
      have hpath : reference.path ≠ "" := by
        rcases h with h | h | h
        · exact absurd h hscheme
        · exact absurd h hauthority
        · exact h
      rw [if_neg hpath]
      by_cases hslash : reference.path.startsWith "/" = true
      · exact ⟨reference.path, by simp only [if_pos hslash], rfl, fun c hc => Or.inr (Or.inr hc)⟩
      · exact ⟨mergePath base reference.path, by simp only [if_neg hslash],
          getLast?_segments_mergePath base reference.path, fun c hc => mem_of_mem_mergePath hc⟩

theorem resolve_of_not_own {base reference : Uri} (h : ¬ Own reference) :
    resolve base reference =
      { base with query := reference.query.or base.query, fragment := reference.fragment } := by
  rcases not_or.mp h with ⟨hscheme, h⟩
  rcases not_or.mp h with ⟨hauthority, hpath⟩
  unfold resolve
  rw [if_neg hscheme, if_neg hauthority, if_pos (not_not.mp hpath)]

theorem scheme_resolve (base reference : Uri) :
    (resolve base reference).scheme = reference.scheme ∨
      (resolve base reference).scheme = base.scheme := by
  unfold resolve
  split
  · exact Or.inl rfl
  · split
    · exact Or.inr rfl
    · split
      · exact Or.inr rfl
      · exact Or.inr rfl

theorem Plain.resolve {base reference : Uri} (hbase : base.Plain) (hreference : reference.Plain) :
    (resolve base reference).Plain where
  scheme name hname := by
    rcases scheme_resolve base reference with h | h
    · exact hreference.scheme name (h ▸ hname)
    · exact hbase.scheme name (h ▸ hname)
  path c hc := by
    by_cases hown : Own reference
    · rcases path_resolve hown with ⟨path, hpath, -, hchars⟩
      rw [hpath] at hc
      have hslash : '/' ≠ '?' ∧ '/' ≠ '#' := by decide
      rcases mem_of_mem_normalPath hc with rfl | hc
      · exact hslash
      · rcases hchars c hc with rfl | hc | hc
        · exact hslash
        · exact hbase.path c hc
        · exact hreference.path c hc
    · rw [resolve_of_not_own hown] at hc
      exact hbase.path c hc

end Uri

/-! ## Renaming -/

namespace Identifier

open EvaluationForm Uri

/-- The common part of the identifiers of handles, behind the scheme. -/
def marked : List Char := "routeguard:schema:".toList

/-- What can stand behind the path of an identifier. -/
def Tail (t : List Char) : Prop := ∀ c, t.head? = some c → c = '?' ∨ c = '#'

/-- The identifier of a handle with something behind it. -/
def extended (handle : Nat) (t : List Char) : String :=
  String.ofList ((resourceUri handle).toList ++ t)

/-- The identifiers that name the schemas of handles. -/
def Internal (uri : String) : Prop := ∃ handle t, Tail t ∧ uri = extended handle t

theorem extended_nil (handle : Nat) : extended handle [] = resourceUri handle := by
  simp [extended]

/-- Two texts agree up to where each of them stops, and behind that. -/
theorem append_inj_of_stop {stop : Char → Bool} {a b t u : List Char}
    (ha : ∀ c ∈ a, stop c = false) (hb : ∀ c ∈ b, stop c = false)
    (ht : ∀ c, t.head? = some c → stop c = true) (hu : ∀ c, u.head? = some c → stop c = true)
    (h : a ++ t = b ++ u) : a = b ∧ t = u := by
  have htake : ∀ {x s : List Char}, (∀ c ∈ x, stop c = false) →
      (∀ c, s.head? = some c → stop c = true) → (x ++ s).takeWhile (fun c => !stop c) = x := by
    intro x s hx hs
    rw [List.takeWhile_append_of_pos (fun c hc => by simpa using hx c hc)]
    cases s with
    | nil => simp
    | cons c rest => simp [hs c rfl]
  have hab : a = b := by rw [← htake ha ht, h, htake hb hu]
  subst hab
  exact ⟨rfl, List.append_cancel_left h⟩

theorem append_inj_of_tail {a b t u : List Char} (ha : ∀ c ∈ a, c ≠ '?' ∧ c ≠ '#')
    (hb : ∀ c ∈ b, c ≠ '?' ∧ c ≠ '#') (ht : Tail t) (hu : Tail u) (h : a ++ t = b ++ u) :
    a = b ∧ t = u := by
  have hstop : ∀ {x : List Char}, (∀ c ∈ x, c ≠ '?' ∧ c ≠ '#') →
      ∀ c ∈ x, (c == '?' || c == '#') = false := by
    intro x hx
    simpa using hx
  have htail : ∀ {s : List Char}, Tail s → ∀ c, s.head? = some c → (c == '?' || c == '#') = true := by
    intro s hs
    simpa [Tail] using hs
  exact append_inj_of_stop (hstop ha) (hstop hb) (htail ht) (htail hu) h

theorem plain_resourcePath {handle : Nat} : ∀ c ∈ resourcePath handle, c ≠ '?' ∧ c ≠ '#' :=
  fun _ hc => ⟨(plain_of_mem_resourcePath hc).2.1, (plain_of_mem_resourcePath hc).1⟩

theorem toList_extended (handle : Nat) (t : List Char) : (extended handle t).toList =
    ['u', 'r', 'n', ':'] ++ (resourcePath handle ++ t) := by
  rw [extended, String.toList_ofList, toList_resourceUri]
  rfl

theorem extended_inj {handle handle' : Nat} {t t' : List Char} (ht : Tail t) (ht' : Tail t')
    (h : extended handle t = extended handle' t') : handle = handle' ∧ t = t' := by
  have hlist := congrArg String.toList h
  rw [toList_extended, toList_extended] at hlist
  have hpath := append_inj_of_tail plain_resourcePath plain_resourcePath ht ht'
    (List.append_cancel_left hlist)
  exact ⟨resourcePath_inj hpath.1, hpath.2⟩

open Classical in
/-- Follow a map of handles on identifiers; those that name no handle stay. -/
noncomputable def rename (π : Nat → Nat) (uri : String) : String :=
  if h : Internal uri then extended (π h.choose) h.choose_spec.choose else uri

theorem rename_extended (π : Nat → Nat) (handle : Nat) {t : List Char} (ht : Tail t) :
    rename π (extended handle t) = extended (π handle) t := by
  have h : Internal (extended handle t) := ⟨handle, t, ht, rfl⟩
  have hspec := h.choose_spec.choose_spec
  have hinj := extended_inj ht hspec.1 hspec.2
  unfold rename
  rw [dif_pos h]
  exact congrArg₂ extended (congrArg π hinj.1.symm) hinj.2.symm

theorem rename_of_not_internal (π : Nat → Nat) {uri : String} (h : ¬ Internal uri) :
    rename π uri = uri := dif_neg h

theorem rename_resourceUri (π : Nat → Nat) (handle : Nat) :
    rename π (resourceUri handle) = resourceUri (π handle) := by
  have ht : Tail [] := by simp [Tail]
  have h := rename_extended π handle ht
  rwa [extended_nil, extended_nil] at h

theorem internal_rename_iff (π : Nat → Nat) (uri : String) :
    Internal (rename π uri) ↔ Internal uri := by
  by_cases h : Internal uri
  · rcases h with ⟨handle, t, ht, rfl⟩
    rw [rename_extended π handle ht]
    exact iff_of_true ⟨π handle, t, ht, rfl⟩ ⟨handle, t, ht, rfl⟩
  · rw [rename_of_not_internal π h]

theorem rename_inj {π : Nat → Nat} (hπ : Function.Injective π) {uri uri' : String}
    (h : rename π uri = rename π uri') : uri = uri' := by
  by_cases hi : Internal uri
  · have hi' : Internal uri' := by rwa [← internal_rename_iff π, ← h, internal_rename_iff]
    rcases hi with ⟨handle, t, ht, rfl⟩
    rcases hi' with ⟨handle', t', ht', rfl⟩
    rw [rename_extended π handle ht, rename_extended π handle' ht'] at h
    rcases extended_inj ht ht' h with ⟨heq, rfl⟩
    rw [hπ heq]
  · have hi' : ¬ Internal uri' := by rwa [← internal_rename_iff π, ← h, internal_rename_iff]
    rwa [rename_of_not_internal π hi, rename_of_not_internal π hi'] at h

/-! ## Which references are identifiers of handles -/

/-- What stands behind the path of a reference. -/
theorem tail_of_query_fragment (query fragment : Option String) :
    Tail ((query.map (fun q => '?' :: q.toList)).getD [] ++
      (fragment.map (fun f => '#' :: f.toList)).getD []) := by
  cases query <;> cases fragment <;> simp [Tail]

/-- What a reference that reads like the identifier of a handle consists of. -/
theorem path_of_text {u : Uri} (hu : u.Plain) {handle : Nat} {t : List Char} (ht : Tail t)
    (h : u.text = extended handle t) : u.authority = none ∧
      (u.scheme = some "urn" ∧ u.path.toList = resourcePath handle ∨
        u.scheme = none ∧ u.path.toList = ['u', 'r', 'n', ':'] ++ resourcePath handle) := by
  have hlist := congrArg String.toList h
  rw [toList_text, toList_extended] at hlist
  have htail := tail_of_query_fragment u.query u.fragment
  rcases u with ⟨_ | scheme, _ | authority, path, query, fragment⟩
  · -- no scheme: the whole front is the path
    have hlist' : path.toList ++ ((query.map (fun q => '?' :: q.toList)).getD [] ++
        (fragment.map (fun f => '#' :: f.toList)).getD []) =
          (['u', 'r', 'n', ':'] ++ resourcePath handle) ++ t := by
      simpa using hlist
    have hplain : ∀ c ∈ ['u', 'r', 'n', ':'] ++ resourcePath handle, c ≠ '?' ∧ c ≠ '#' := by
      intro c hc
      rcases List.mem_append.mp hc with hc | hc
      · have hscheme : ∀ c ∈ ['u', 'r', 'n', ':'], c ≠ '?' ∧ c ≠ '#' := by simp
        exact hscheme c hc
      · exact plain_resourcePath c hc
    exact ⟨rfl, Or.inr ⟨rfl, (append_inj_of_tail hu.path hplain htail ht hlist').1⟩⟩
  · simp at hlist
  · have hsplit : scheme.toList ++ ':' :: (path.toList ++
        ((query.map (fun q => '?' :: q.toList)).getD [] ++
          (fragment.map (fun f => '#' :: f.toList)).getD [])) =
        ['u', 'r', 'n'] ++ ':' :: (resourcePath handle ++ t) := by
      simpa using hlist
    have hcolon : ∀ c ∈ scheme.toList, (c == ':') = false := by
      intro c hc
      exact beq_eq_false_iff_ne.mpr (fun heq => hu.scheme scheme rfl (heq ▸ hc))
    rcases append_inj_of_stop hcolon (by simp) (by simp) (by simp) hsplit with ⟨hscheme, hrest⟩
    have hurn : scheme = "urn" := String.toList_injective (by simpa using hscheme)
    exact ⟨rfl, Or.inl ⟨by rw [hurn],
      (append_inj_of_tail hu.path plain_resourcePath htail ht (List.cons.inj hrest).2).1⟩⟩
  · have hsplit : scheme.toList ++ ':' :: ('/' :: '/' :: (authority.toList ++ (path.toList ++
        ((query.map (fun q => '?' :: q.toList)).getD [] ++
          (fragment.map (fun f => '#' :: f.toList)).getD [])))) =
        ['u', 'r', 'n'] ++ ':' :: (resourcePath handle ++ t) := by
      simpa using hlist
    have hcolon : ∀ c ∈ scheme.toList, (c == ':') = false := by
      intro c hc
      exact beq_eq_false_iff_ne.mpr (fun heq => hu.scheme scheme rfl (heq ▸ hc))
    rcases append_inj_of_stop hcolon (by simp) (by simp) (by simp) hsplit with ⟨-, hrest⟩
    -- the identifier goes on with a letter, not with an authority
    exact absurd (List.cons.inj (List.cons.inj hrest).2).1 (by decide)

theorem cutAt_append {p : Char → Bool} {a : List Char} (ha : ∀ c ∈ a, p c = false)
    (t : List Char) : cutAt p (a ++ t) = (a ++ (cutAt p t).1, (cutAt p t).2) := by
  have hdrop : (a ++ t).dropWhile (fun c => !p c) = t.dropWhile (fun c => !p c) :=
    List.dropWhile_append_of_pos (fun c hc => by simp [ha c hc])
  have htake : (a ++ t).takeWhile (fun c => !p c) = a ++ t.takeWhile (fun c => !p c) :=
    List.takeWhile_append_of_pos (fun c hc => by simp [ha c hc])
  unfold cutAt
  rw [hdrop, htake]
  split <;> rfl

/-- Behind the path of an identifier there is nothing but a query and a fragment. -/
theorem cutAt_tail {t : List Char} (ht : Tail t) :
    (cutAt (· == '?') (cutAt (· == '#') t).1).1 = [] := by
  cases t with
  | nil => rfl
  | cons c rest =>
    rcases ht c rfl with rfl | rfl
    · have hcons : cutAt (· == '#') ('?' :: rest) =
          (['?'] ++ (cutAt (· == '#') rest).1, (cutAt (· == '#') rest).2) :=
        cutAt_append (a := ['?']) (by simp) rest
      rw [hcons]
      rfl
    · rfl

theorem plain_front {handle : Nat} : ∀ c ∈ ['u', 'r', 'n', ':'] ++ resourcePath handle,
    c ≠ '?' ∧ c ≠ '#' := by
  intro c hc
  rcases List.mem_append.mp hc with hc | hc
  · have hscheme : ∀ c ∈ ['u', 'r', 'n', ':'], c ≠ '?' ∧ c ≠ '#' := by simp
    exact hscheme c hc
  · exact plain_resourcePath c hc

/-- The components of an identifier depend on the handle in the path alone. -/
theorem split_extended (handle : Nat) {t : List Char} (ht : Tail t) :
    split (extended handle t) = ⟨some "urn", none, String.ofList (resourcePath handle),
      (cutAt (· == '?') (cutAt (· == '#') t).1).2.map String.ofList,
      (cutAt (· == '#') t).2.map String.ofList⟩ := by
  have hfragment : cutAt (· == '#') (extended handle t).toList =
      (['u', 'r', 'n', ':'] ++ resourcePath handle ++ (cutAt (· == '#') t).1,
        (cutAt (· == '#') t).2) := by
    rw [toList_extended, ← List.append_assoc,
      cutAt_append (fun c hc => by simpa using (plain_front c hc).2)]
  have hquery : cutAt (· == '?')
        (['u', 'r', 'n', ':'] ++ resourcePath handle ++ (cutAt (· == '#') t).1) =
      (['u', 'r', 'n', ':'] ++ resourcePath handle,
        (cutAt (· == '?') (cutAt (· == '#') t).1).2) := by
    rw [cutAt_append (fun c hc => by simpa using (plain_front c hc).1), cutAt_tail ht,
      List.append_nil]
  unfold split
  rw [hfragment]
  dsimp only
  rw [hquery]
  rfl

/-- A reference whose components read like the identifier of a handle is one. -/
theorem internal_of_path {uri : String} {handle : Nat} (hauthority : (split uri).authority = none)
    (h : (split uri).scheme = some "urn" ∧ (split uri).path.toList = resourcePath handle ∨
      (split uri).scheme = none ∧
        (split uri).path.toList = ['u', 'r', 'n', ':'] ++ resourcePath handle) :
    Internal uri := by
  refine ⟨handle, _, tail_of_query_fragment (split uri).query (split uri).fragment, ?_⟩
  apply String.toList_injective
  have htext := congrArg String.toList (text_split uri)
  rcases h with ⟨hscheme, hpath⟩ | ⟨hscheme, hpath⟩
  · rw [toList_text, hscheme, hauthority, hpath] at htext
    rw [toList_extended, ← htext]
    simp
  · rw [toList_text, hscheme, hauthority, hpath] at htext
    rw [toList_extended, ← htext]
    simp

/-! ## Resolution of renamed identifiers -/

/-- The text is written like part of an identifier of a handle. -/
def Spells (text : String) : Prop := marked <:+: text.toList

/-- A text without its last character if that is the mark of an empty fragment. -/
def trim (cs : List Char) : List Char := if cs.getLast? = some '#' then cs.dropLast else cs

theorem toList_trimmed (uri : String) : (Library.trimmed uri).toList = trim uri.toList := by
  have hends : uri.endsWith "#" = true ↔ uri.toList.getLast? = some '#' := by
    unfold String.endsWith
    rw [String.Slice.endsWith_string_eq_endsWith_toSlice, String.Slice.endsWith_slice_iff]
    have hsuffix : (['#'] <:+ uri.toList) ↔ uri.toList.getLast? = some '#' := by
      constructor
      · rintro ⟨front, hfront⟩
        simp [← hfront]
      · intro hlast
        rcases List.getLast?_eq_some_iff.mp hlast with ⟨front, hfront⟩
        exact ⟨front, hfront.symm⟩
    simpa using hsuffix
  unfold Library.trimmed trim
  by_cases h : uri.toList.getLast? = some '#'
  · rw [if_pos (hends.mpr h), if_pos h, String.toList_ofList]
  · rw [if_neg (fun h' => h (hends.mp h')), if_neg h]

theorem Tail.trim {t : List Char} (ht : Tail t) : Tail (trim t) := by
  unfold Identifier.trim
  split
  · intro c hc
    cases t with
    | nil => simp at hc
    | cons d rest =>
      cases rest with
      | nil => simp at hc
      | cons _ _ => exact ht c (by simpa using hc)
  · exact ht

theorem trimmed_extended (handle : Nat) (t : List Char) :
    Library.trimmed (extended handle t) = extended handle (trim t) := by
  apply String.toList_injective
  rw [toList_trimmed, toList_extended, toList_extended]
  rcases List.eq_nil_or_concat t with rfl | ⟨front, c, rfl⟩
  · -- an identifier ends with a digit
    have hlast : (['u', 'r', 'n', ':'] ++ (resourcePath handle ++ [])).getLast? ≠ some '#' := by
      intro hlast
      have hmem := List.mem_of_getLast? hlast
      rw [List.append_nil] at hmem
      exact (plain_front _ hmem).2 rfl
    rw [trim, if_neg hlast]
    rfl
  · have hbehind : ∀ a : List Char, trim (a ++ [c]) = if c = '#' then a else a ++ [c] := by
      intro a
      simp [trim]
    have hassoc : ['u', 'r', 'n', ':'] ++ (resourcePath handle ++ (front ++ [c])) =
        (['u', 'r', 'n', ':'] ++ (resourcePath handle ++ front)) ++ [c] := by
      simp only [List.append_assoc]
    rw [List.concat_eq_append, hassoc, hbehind, hbehind]
    split
    · rfl
    · simp only [List.append_assoc]

/-- An identifier that is internal once trimmed was so before. -/
theorem internal_of_trimmed {uri : String} (h : Internal (Library.trimmed uri)) :
    Internal uri := by
  rcases h with ⟨handle, t, ht, h⟩
  have hlist := congrArg String.toList h
  rw [toList_trimmed, trim] at hlist
  split at hlist
  · next hlast =>
    rcases List.getLast?_eq_some_iff.mp hlast with ⟨front, hfront⟩
    rw [hfront, List.dropLast_concat] at hlist
    refine ⟨handle, t ++ ['#'], ?_, ?_⟩
    · cases t with
      | nil => simp [Tail]
      | cons c rest => exact ht
    · apply String.toList_injective
      rw [hfront, hlist, toList_extended, toList_extended]
      simp
  · exact ⟨handle, t, ht, String.toList_injective hlist⟩

theorem segments_resourcePath (handle : Nat) :
    segments (String.ofList (resourcePath handle)) = [String.ofList (resourcePath handle)] := by
  unfold segments
  rw [String.toList_ofList, List.splitOn_eq_singleton
    (fun h => (plain_of_mem_resourcePath h).2.2 rfl)]
  rfl

/-- A reference that does not spell an identifier does not resolve to one on its own. -/
theorem not_internal_resolve {base : Uri} {r : String} (hbase : base.Plain) (hr : ¬ Spells r)
    (hown : Own (split r)) : ¬ Internal (resolve base (split r)).text := by
  rintro ⟨handle, t, ht, h⟩
  apply hr
  obtain ⟨path, hpath, hlast, -⟩ := @path_resolve base _ hown
  rcases path_of_text (hbase.resolve (plain_split r)) ht h with ⟨-, hor⟩
  -- the path that comes out is the last segment of the reference, and has the marked part
  have hfacts : '/' ∉ (normalPath path).toList ∧ marked <:+: (normalPath path).toList := by
    rw [← hpath]
    have hinfix : marked <:+: resourcePath handle := (List.prefix_append _ _).isInfix
    rcases hor with ⟨-, heq⟩ | ⟨-, heq⟩
    · rw [heq]
      exact ⟨fun hc => (plain_of_mem_resourcePath hc).2.2 rfl, hinfix⟩
    · rw [heq]
      refine ⟨fun hc => ?_, hinfix.trans (List.suffix_append _ _).isInfix⟩
      rcases List.mem_append.mp hc with hc | hc
      · exact absurd hc (by decide)
      · exact (plain_of_mem_resourcePath hc).2.2 rfl
  have hsegment : (segments (split r).path).getLast? = some (normalPath path) := by
    rcases normalPath_eq_last hfacts.1 with hempty | h
    · rw [hempty] at hfacts
      exact absurd (List.eq_nil_of_infix_nil hfacts.2) (by decide)
    · rw [← hlast, h]
  have hwhole : (split r).path.toList <:+: r.toList := by
    have htext := congrArg String.toList (text_split r)
    rw [toList_text] at htext
    rw [← htext]
    exact ⟨_, _, (List.append_assoc _ _ _).symm⟩
  exact hfacts.2.trans ((infix_of_getLast?_segments hsegment).trans hwhole)

/-- A reference with more than a query and a fragment does not see which handle it is read at. -/
theorem resolve_extended {handle handle' : Nat} {t : List Char} (ht : Tail t) {reference : Uri}
    (hown : Own reference) : resolve (split (extended handle t)) reference =
      resolve (split (extended handle' t)) reference := by
  rw [split_extended handle ht, split_extended handle' ht]
  unfold resolve
  split
  · rfl
  · next hscheme =>
    split
    · rfl
    · next hauthority =>
      have hpath : reference.path ≠ "" := by
        rcases hown with h | h | h
        · exact absurd h hscheme
        · exact absurd h hauthority
        · exact h
      have hmerge : ∀ handle, mergePath ⟨some "urn", none, String.ofList (resourcePath handle),
          (cutAt (· == '?') (cutAt (· == '#') t).1).2.map String.ofList,
          (cutAt (· == '#') t).2.map String.ofList⟩ reference.path = reference.path := by
        intro handle
        unfold mergePath
        rw [if_neg (by simp), segments_resourcePath]
        exact String.intercalate_singleton
      rw [if_neg hpath, if_neg hpath, hmerge, hmerge]

theorem text_of_extended {handle : Nat} (query fragment : Option String) :
    (Uri.mk (some "urn") none (String.ofList (resourcePath handle)) query fragment).text =
      extended handle ((query.map (fun q => '?' :: q.toList)).getD [] ++
        (fragment.map (fun f => '#' :: f.toList)).getD []) := by
  apply String.toList_injective
  rw [toList_text, toList_extended]
  simp

variable (π : Nat → Nat)

/-- Resolution commutes with renaming, for references that spell no identifier of a handle. -/
theorem absolute_rename {r : String} (hr : ¬ Spells r) (base : String) :
    Library.absolute (rename π base) r = rename π (Library.absolute base r) := by
  unfold Library.absolute
  by_cases hown : Own (split r)
  · -- the outcome is the same for every handle, and names none
    have hstays : rename π (Library.trimmed (resolve (split base) (split r)).text) =
        Library.trimmed (resolve (split base) (split r)).text :=
      rename_of_not_internal π
        (fun h => not_internal_resolve (plain_split base) hr hown (internal_of_trimmed h))
    rw [hstays]
    by_cases hbase : Internal base
    · rcases hbase with ⟨handle, t, ht, rfl⟩
      rw [rename_extended π handle ht, resolve_extended ht hown]
    · rw [rename_of_not_internal π hbase]
  · rw [resolve_of_not_own hown, resolve_of_not_own hown]
    by_cases hbase : Internal base
    · rcases hbase with ⟨handle, t, ht, rfl⟩
      rw [rename_extended π handle ht, split_extended handle ht, split_extended (π handle) ht]
      dsimp only
      rw [text_of_extended, text_of_extended, trimmed_extended, trimmed_extended,
        rename_extended π handle (tail_of_query_fragment _ _).trim]
    · -- scheme and path are those of the base, which names no handle
      rw [rename_of_not_internal π hbase, rename_of_not_internal]
      intro h
      rcases internal_of_trimmed h with ⟨handle, t, ht, h⟩
      have hplain : (Uri.mk (split base).scheme (split base).authority (split base).path
          ((split r).query.or (split base).query) (split r).fragment).Plain :=
        ⟨(plain_split base).scheme, (plain_split base).path⟩
      rcases path_of_text hplain ht h with ⟨hauthority, hor⟩
      exact hbase (internal_of_path hauthority hor)

theorem withoutFragment_rename (uri : String) :
    Library.withoutFragment (rename π uri) = rename π (Library.withoutFragment uri) := by
  unfold Library.withoutFragment
  by_cases huri : Internal uri
  · rcases huri with ⟨handle, t, ht, rfl⟩
    rw [rename_extended π handle ht, split_extended handle ht, split_extended (π handle) ht]
    dsimp only
    rw [text_of_extended, text_of_extended, rename_extended π handle (tail_of_query_fragment _ _)]
  · rw [rename_of_not_internal π huri, rename_of_not_internal]
    rintro ⟨handle, t, ht, h⟩
    have hplain : (Uri.mk (split uri).scheme (split uri).authority (split uri).path
        (split uri).query none).Plain :=
      ⟨(plain_split uri).scheme, (plain_split uri).path⟩
    rcases path_of_text hplain ht h with ⟨hauthority, hor⟩
    exact huri (internal_of_path hauthority hor)

end Identifier

end HttpContract
