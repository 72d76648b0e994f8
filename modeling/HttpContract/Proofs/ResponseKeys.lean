import Mathlib.Data.List.Dedup
import Mathlib.Data.List.Nodup
import HttpContract.Proofs.Reloading
import HttpContract.Proofs.Satisfaction
import HttpContract.Text.Ascii

/-!
# Response keys that are read alike

Response schemas are declared under texts and stored under the status keys that these are read as.
Of two texts only the letters of a class can differ while they mean the same (`Spells.eq_iff`), and
then the schema under the first is lost. An operation answers with each of its response schemas
exactly if no two of the texts are of this kind (`Repository.answersEach_iff`).
-/

namespace HttpContract

/-! ## How status keys are written -/

namespace StatusKey

/-- The ways to write a status key. -/
inductive Spells : List Char → StatusKey → Prop
  | default : Spells "default".toList .default
  | statusClass {a b c : Char} (ha : a.isDigit = true) (hb : b.toUpper = 'X')
      (hc : c.toUpper = 'X') : Spells [a, b, c] (.statusClass (a.toNat - 48))
  | exact {a b c : Char} (ha : a.isDigit = true) (hb : b.isDigit = true) (hc : c.isDigit = true) :
      Spells [a, b, c]
        (.exact ((a.toNat - 48) * 100 + (b.toNat - 48) * 10 + (c.toNat - 48)))

theorem spells_of_read? {key : String} {status : StatusKey} (h : read? key = some status) :
    Spells key.toList status := by
  unfold read? at h
  split at h
  · next hdefault =>
    cases h
    rw [hdefault]
    exact .default
  · split at h
    · next a b c hchars =>
      rw [hchars]
      by_cases hletters : b.toUpper = 'X' ∧ c.toUpper = 'X'
      · rw [if_pos hletters] at h
        split at h
        · next ha =>
          cases h
          refine .statusClass ?_ hletters.1 hletters.2
          have h1 : '1'.toNat ≤ a.toNat := ha.1
          have h5 : a.toNat ≤ '5'.toNat := ha.2
          rw [Char.isDigit_iff_toNat]
          exact ⟨le_trans (by decide) h1, le_trans h5 (by decide)⟩
        · cases h
      · rw [if_neg hletters] at h
        split at h
        · next hdigits =>
          simp only [List.all_cons, List.all_nil, Bool.and_true, Bool.and_eq_true] at hdigits
          dsimp only at h
          split at h
          · cases h
            exact .exact hdigits.1 hdigits.2.1 hdigits.2.2
          · cases h
        · cases h
    · cases h

/-- A digit is the same in upper case. -/
theorem toUpper_of_isDigit {c : Char} (h : c.isDigit = true) : c.toUpper = c := by
  unfold Char.toUpper
  rw [dif_neg]
  intro hlower
  have hle : c.toNat ≤ '9'.toNat := (Char.isDigit_iff_toNat.mp h).2
  have hge : 'a'.toNat ≤ c.toNat := hlower.1
  exact absurd (hge.trans hle) (by decide)

/-- Digits are told apart by their values. -/
theorem digit_eq_iff {a b : Char} (ha : a.isDigit = true) (hb : b.isDigit = true) :
    a.toNat - 48 = b.toNat - 48 ↔ a = b := by
  have hage : 48 ≤ a.toNat := (Char.isDigit_iff_toNat.mp ha).1
  have hbge : 48 ≤ b.toNat := (Char.isDigit_iff_toNat.mp hb).1
  rw [← Char.toNat_inj]
  omega

/-- A number of three digits tells what its digits are. -/
theorem code_eq_iff {a b c a' b' c' : Char} (ha : a.isDigit = true) (hb : b.isDigit = true)
    (hc : c.isDigit = true) (ha' : a'.isDigit = true) (hb' : b'.isDigit = true)
    (hc' : c'.isDigit = true) :
    (a.toNat - 48) * 100 + (b.toNat - 48) * 10 + (c.toNat - 48) =
        (a'.toNat - 48) * 100 + (b'.toNat - 48) * 10 + (c'.toNat - 48) ↔
      a = a' ∧ b = b' ∧ c = c' := by
  have hvalue : ∀ d : Char, d.isDigit = true → d.toNat - 48 ≤ 9 := by
    intro d hd
    have hle : d.toNat ≤ 57 := (Char.isDigit_iff_toNat.mp hd).2
    omega
  rw [← digit_eq_iff ha ha', ← digit_eq_iff hb hb', ← digit_eq_iff hc hc']
  have hb9 := hvalue b hb
  have hc9 := hvalue c hc
  have hb9' := hvalue b' hb'
  have hc9' := hvalue c' hc'
  omega

/-- Two texts mean the same status key exactly if they differ in nothing but the case of letters. -/
theorem Spells.eq_iff {text text' : List Char} {status status' : StatusKey}
    (h : Spells text status) (h' : Spells text' status') :
    status = status' ↔ text.map Char.toUpper = text'.map Char.toUpper := by
  have hX : ∀ c : Char, c.isDigit = true → c.toUpper ≠ 'X' := by
    intro c hc heq
    rw [toUpper_of_isDigit hc] at heq
    subst heq
    exact absurd hc (by decide)
  cases h with
  | default =>
    cases h' with
    | default => simp
    | statusClass ha' hb' hc' => simp
    | exact ha' hb' hc' => simp
  | statusClass ha hb hc =>
    cases h' with
    | default => simp
    | statusClass ha' hb' hc' =>
      simp [hb, hc, hb', hc', toUpper_of_isDigit ha, toUpper_of_isDigit ha', digit_eq_iff ha ha']
    | exact ha' hb' hc' =>
      simp [hb, (hX _ hb').symm]
  | exact ha hb hc =>
    cases h' with
    | default => simp
    | statusClass ha' hb' hc' =>
      simp [hb', hX _ hb]
    | exact ha' hb' hc' =>
      simp [toUpper_of_isDigit ha, toUpper_of_isDigit ha', toUpper_of_isDigit hb,
        toUpper_of_isDigit hb', toUpper_of_isDigit hc, toUpper_of_isDigit hc',
        code_eq_iff ha hb hc ha' hb' hc']

/-- Texts that are read as status keys are read as the same one exactly if they are the same in
upper case. -/
theorem read?_eq_iff {key key' : String} (h : (read? key).isSome = true)
    (h' : (read? key').isSome = true) :
    read? key = read? key' ↔ Ascii.upper key = Ascii.upper key' := by
  obtain ⟨status, hstatus⟩ := Option.isSome_iff_exists.mp h
  obtain ⟨status', hstatus'⟩ := Option.isSome_iff_exists.mp h'
  rw [hstatus, hstatus', Option.some.injEq, (spells_of_read? hstatus).eq_iff
    (spells_of_read? hstatus')]
  unfold Ascii.upper
  rw [String.ofList_inj]

/-! ## Listings that ascend by status keys -/

theorem before_trans {a b c : StatusKey} (hab : before a b = true) (hbc : before b c = true) :
    before a c = true := by
  cases a <;> cases b <;> cases c <;> simp_all [before] <;> omega

theorem before_of_not {a b : StatusKey} (hne : a ≠ b) (h : before b a ≠ true) :
    before a b = true := by
  cases a <;> cases b <;> simp_all [before] <;> omega

theorem not_before_self (a : StatusKey) : before a a ≠ true := by
  cases a <;> simp [before]

variable {α : Type}

/-- The entries ascend by their keys. -/
def Ascending (entries : List (StatusKey × α)) : Prop :=
  entries.Pairwise (fun x y => before x.1 y.1 = true)

theorem ascending_insert {entries : List (StatusKey × α)} (h : Ascending entries) (key : StatusKey)
    (value : α) : Ascending (insert key value entries) := by
  unfold Ascending at h ⊢
  induction entries with
  | nil => exact List.pairwise_singleton _ _
  | cons e rest ih =>
    obtain ⟨k, v⟩ := e
    obtain ⟨hfirst, hrest⟩ := List.pairwise_cons.mp h
    unfold insert
    -- the key is there already, or it comes before the first entry, or it goes further on
    by_cases heq : k = key
    · subst heq
      rw [if_pos rfl]
      exact List.pairwise_cons.mpr ⟨hfirst, hrest⟩
    · rw [if_neg heq]
      by_cases hbefore : before key k = true
      · rw [if_pos hbefore]
        refine List.pairwise_cons.mpr ⟨fun x hx => ?_, h⟩
        rcases List.mem_cons.mp hx with rfl | hx
        · exact hbefore
        · exact before_trans hbefore (hfirst x hx)
      · rw [if_neg hbefore]
        refine List.pairwise_cons.mpr ⟨fun x hx => ?_, ih hrest⟩
        rcases mem_of_mem_insert hx with rfl | hx
        · exact before_of_not heq hbefore
        · exact hfirst x hx

/-- No key stands twice in a listing that ascends. -/
theorem Ascending.nodup_keys {entries : List (StatusKey × α)} (h : Ascending entries) :
    (entries.map (·.1)).Nodup := by
  unfold List.Nodup
  rw [List.pairwise_map]
  refine List.Pairwise.imp ?_ h
  intro x y hxy heq
  rw [heq] at hxy
  exact not_before_self _ hxy

theorem mem_keys_insert (key : StatusKey) (value : α) (entries : List (StatusKey × α))
    (k : StatusKey) :
    k ∈ (insert key value entries).map (·.1) ↔ k = key ∨ k ∈ entries.map (·.1) := by
  induction entries with
  | nil => simp [insert]
  | cons e rest ih =>
    obtain ⟨k', v⟩ := e
    unfold insert
    by_cases heq : k' = key
    · subst heq
      simp
    · rw [if_neg heq]
      by_cases hbefore : before key k' = true
      · rw [if_pos hbefore]
        simp
      · rw [if_neg hbefore, List.map_cons, List.mem_cons, ih, List.map_cons, List.mem_cons]
        tauto

end StatusKey

/-! ## What an operation answers with -/

namespace OperationSchemas

/-- The texts under which the operation declares a response schema. -/
def answered (s : OperationSchemas) : List String :=
  (s.responses.filter (fun m => m.2.isSome)).map (·.1)

theorem mem_answered {s : OperationSchemas} {key : String} :
    key ∈ s.answered ↔ ∃ f, (key, some f) ∈ s.responses := by
  unfold answered
  constructor
  · intro h
    obtain ⟨⟨k, declared⟩, hmem, rfl⟩ := List.mem_map.mp h
    obtain ⟨hm, hsome⟩ := List.mem_filter.mp hmem
    obtain ⟨f, hf⟩ := Option.isSome_iff_exists.mp hsome
    dsimp only at hf
    subst hf
    exact ⟨f, hm⟩
  · rintro ⟨f, hf⟩
    exact List.mem_map.mpr ⟨(key, some f), List.mem_filter.mpr ⟨hf, rfl⟩, rfl⟩

theorem nodup_answered {s : OperationSchemas} (h : Fields.Ordered s.responses) :
    s.answered.Nodup :=
  List.Nodup.sublist (List.Sublist.map _ List.filter_sublist) (Fields.nodup_keys_of_ordered h)

/-- What counts for a status key is declared under a text that is read as this key. -/
theorem exists_mem_of_responseFor? {status : StatusKey} {f : Fragment} :
    ∀ {responses : Fields (Option Fragment)}, responseFor? status responses = some f →
      ∃ key, (key, some f) ∈ responses ∧ StatusKey.read? key = some status := by
  intro responses
  induction responses with
  | nil =>
    intro h
    cases h
  | cons m rest ih =>
    intro h
    obtain ⟨written, declared⟩ := m
    rcases Option.or_eq_some_iff.mp h with hlater | ⟨-, hhere⟩
    · obtain ⟨key, hmem, hread⟩ := ih hlater
      exact ⟨key, List.mem_cons_of_mem _ hmem, hread⟩
    · split at hhere
      · next hread => exact ⟨written, by rw [hhere]; exact List.mem_cons_self, hread⟩
      · cases hhere

theorem isSome_responseFor? {status : StatusKey} {key : String} {f : Fragment}
    (hread : StatusKey.read? key = some status) :
    ∀ {responses : Fields (Option Fragment)}, (key, some f) ∈ responses →
      (responseFor? status responses).isSome = true := by
  intro responses
  induction responses with
  | nil =>
    intro h
    cases h
  | cons m rest ih =>
    intro h
    obtain ⟨written, declared⟩ := m
    rw [responseFor?, Option.isSome_or, Bool.or_eq_true]
    rcases List.mem_cons.mp h with heq | hmem
    · cases heq
      right
      rw [if_pos hread]
      rfl
    · exact Or.inl (ih hmem)

end OperationSchemas

/-- Each declared response schema has an artifact of its own: there are as many artifacts as
schemas, and under the status key that a text is read as there is what was made of the schema under
this text. -/
structure OperationContract.AnswersEach (e : Engine) (fast : Bool) (s : OperationSchemas)
    (c : OperationContract) : Prop where
  count : c.responses.length = s.answered.length
  own : ∀ key f, (key, some f) ∈ s.responses → ∃ status compiled,
    StatusKey.read? key = some status ∧ e.compile f = .ok compiled ∧
      c.artifact? status = some (.of fast compiled)

namespace Repository

variable {e : Engine} {operation : String} {fast : Bool}

/-- Artifacts are stored in ascending order, under what the texts with a schema are read as. -/
theorem keys_of_compileResponses : ∀ {responses : Fields (Option Fragment)}
    {stored found : List (StatusKey × ResponseArtifact)},
    compileResponses e operation fast responses stored = .ok found →
      StatusKey.Ascending stored → StatusKey.Ascending found ∧
        ∀ k, k ∈ found.map (·.1) ↔ k ∈ stored.map (·.1) ∨
          ∃ key f, (key, some f) ∈ responses ∧ StatusKey.read? key = some k := by
  intro responses
  induction responses with
  | nil =>
    intro stored found h hstored
    cases h
    exact ⟨hstored, fun k => by simp⟩
  | cons m rest ih =>
    intro stored found h hstored
    obtain ⟨written, declared⟩ := m
    obtain ⟨status, hread, ⟨rfl, hrest⟩ | ⟨f, compiled, rfl, -, hrest⟩⟩ :=
      compileResponses_cons h
    · obtain ⟨hfound, hkeys⟩ := ih hrest hstored
      refine ⟨hfound, fun k => ?_⟩
      simp [hkeys k]
    · obtain ⟨hfound, hkeys⟩ := ih hrest (StatusKey.ascending_insert hstored status _)
      refine ⟨hfound, fun k => ?_⟩
      rw [hkeys k, StatusKey.mem_keys_insert]
      constructor
      · rintro ((rfl | hk) | ⟨key, g, hmem, hk⟩)
        · exact Or.inr ⟨written, f, List.mem_cons_self, hread⟩
        · exact Or.inl hk
        · exact Or.inr ⟨key, g, List.mem_cons_of_mem _ hmem, hk⟩
      · rintro (hk | ⟨key, g, hmem, hk⟩)
        · exact Or.inl (Or.inr hk)
        · rcases List.mem_cons.mp hmem with heq | hmem
          · cases heq
            exact Or.inl (Or.inl (Option.some.inj (hk.symm.trans hread)))
          · exact Or.inr ⟨key, g, hmem, hk⟩

/-- There is one artifact for each status key that a text with a schema is read as. -/
theorem length_of_compileOperation {s : OperationSchemas} {c : OperationContract}
    (h : compileOperation e fast operation s = .ok c) :
    c.responses.length = (s.answered.map StatusKey.read?).dedup.length := by
  have hresponses := responses_of_compileOperation h
  obtain ⟨hascending, hkeys⟩ := keys_of_compileResponses hresponses List.Pairwise.nil
  have hreadable := (stored?_of_compileResponses hresponses).1
  -- the keys of the artifacts are the readings, each one once
  have hperm : ((c.responses.map (·.1)).map some).Perm (s.answered.map StatusKey.read?).dedup := by
    have hnodup := hascending.nodup_keys.map (Option.some_injective StatusKey)
    refine (List.perm_ext_iff_of_nodup hnodup (List.nodup_dedup _)).mpr (fun reading => ?_)
    rw [List.mem_dedup, List.mem_map, List.mem_map]
    constructor
    · rintro ⟨k, hk, rfl⟩
      obtain ⟨key, f, hmem, hread⟩ := ((hkeys k).mp hk).resolve_left List.not_mem_nil
      exact ⟨key, OperationSchemas.mem_answered.mpr ⟨f, hmem⟩, hread⟩
    · rintro ⟨key, hkey, rfl⟩
      obtain ⟨f, hmem⟩ := OperationSchemas.mem_answered.mp hkey
      obtain ⟨k, hk⟩ := Option.isSome_iff_exists.mp (hreadable _ hmem)
      exact ⟨k, (hkeys k).mpr (Or.inr ⟨key, f, hmem, hk⟩), hk.symm⟩
  have hlength := hperm.length_eq
  rw [List.length_map, List.length_map] at hlength
  exact hlength

/-- After a load that succeeds an operation of the table has one artifact for each status key under
which a schema is declared, the last one that is written so. Each schema has one of its own exactly
if no two texts with a schema differ in nothing but the case of letters. -/
theorem answersEach_iff {r r' : Repository} {table : SchemaTable} {id : String}
    {s : OperationSchemas} (hordered : Fields.Ordered table)
    (hresponses : Fields.Ordered s.responses) (h : r.load table fast = .ok r')
    (hs : Fields.get? table id = some s) :
    ∃ c, r'.get? id = some c ∧ c.Implements r.engine fast s ∧
      c.responses.length = (s.answered.map StatusKey.read?).dedup.length ∧
      (c.AnswersEach r.engine fast s ↔
        ∀ a ∈ s.answered, ∀ b ∈ s.answered, Ascii.upper a = Ascii.upper b → a = b) := by
  obtain ⟨c, hcompile, hc⟩ := (get?_of_load hordered h id).2 s hs
  have himplements := implements_of_compileOperation hcompile
  have hlength := length_of_compileOperation hcompile
  have hreadable : ∀ a ∈ s.answered, (StatusKey.read? a).isSome = true := by
    intro a ha
    obtain ⟨f, hmem⟩ := OperationSchemas.mem_answered.mp ha
    exact himplements.readable _ hmem
  refine ⟨c, hc, himplements, hlength, ?_⟩
  constructor
  · intro heach a ha b hb hletters
    -- as many artifacts as texts: no two texts are read as the same status key
    have hnodup : (s.answered.map StatusKey.read?).Nodup := by
      have hsame : (s.answered.map StatusKey.read?).dedup.length =
          (s.answered.map StatusKey.read?).length := by
        rw [List.length_map, ← hlength, heach.count]
      exact List.dedup_eq_self.mp ((List.dedup_sublist _).eq_of_length hsame)
    exact List.inj_on_of_nodup_map hnodup ha hb
      ((StatusKey.read?_eq_iff (hreadable a ha) (hreadable b hb)).mpr hletters)
  · intro hapart
    have hinj : ∀ a ∈ s.answered, ∀ b ∈ s.answered,
        StatusKey.read? a = StatusKey.read? b → a = b := by
      intro a ha b hb hread
      exact hapart a ha b hb
        ((StatusKey.read?_eq_iff (hreadable a ha) (hreadable b hb)).mp hread)
    refine ⟨?_, fun key f hmem => ?_⟩
    · have hnodup := (List.nodup_map_iff_inj_on
        (OperationSchemas.nodup_answered hresponses)).mpr hinj
      rw [hlength, List.dedup_eq_self.mpr hnodup, List.length_map]
    · have hkey := OperationSchemas.mem_answered.mpr ⟨f, hmem⟩
      obtain ⟨status, hstatus⟩ := Option.isSome_iff_exists.mp (hreadable key hkey)
      -- what counts for the status key can only be declared under this text
      obtain ⟨g, hg⟩ := Option.isSome_iff_exists.mp
        (OperationSchemas.isSome_responseFor? hstatus hmem)
      obtain ⟨key', hmem', hstatus'⟩ := OperationSchemas.exists_mem_of_responseFor? hg
      have hsame : key' = key := hinj key' (OperationSchemas.mem_answered.mpr ⟨g, hmem'⟩) key hkey
        (hstatus'.trans hstatus.symm)
      subst hsame
      have hfragment : f = g := by
        have hget := Fields.get?_of_mem hresponses hmem
        rw [Fields.get?_of_mem hresponses hmem'] at hget
        exact (Option.some.inj (Option.some.inj hget)).symm
      subst hfragment
      obtain ⟨compiled, hcompiled, hartifact⟩ := himplements.response status f hg
      exact ⟨status, compiled, hstatus, hcompiled, hartifact⟩

/-! ## Two responses -/

/-- Whole numbers under one text and texts under another. -/
def numbersAndTexts (key key' : String) : OperationSchemas :=
  ⟨none, none, none, none,
    [(key, some (Engine.typed .integer)), (key', some (Engine.typed .string))]⟩

theorem exists_compile_typed (o : Options) (t : JsonType) : ∃ s,
    (Engine.ofOptions o).compile (Engine.typed t) = .ok s ∧
      s.source = (Engine.typed t).document := by
  obtain ⟨l, hs⟩ := Engine.compile_of_basic o (Engine.typed t)
    (n := .plan { Plan.empty with types := [t] }) rfl (by cases t <;> rfl) (.single (.type t))
  exact ⟨_, hs, rfl⟩

/-- The second response is stored on top of the first. -/
theorem exists_load_numbersAndTexts (o : Options) (fast : Bool) {key key' : String}
    {status status' : StatusKey} (hread : StatusKey.read? key = some status)
    (hread' : StatusKey.read? key' = some status') : ∃ r n t,
      (empty (Engine.ofOptions o)).load [(soleOperation, numbersAndTexts key key')] fast = .ok r ∧
      r.engine = Engine.ofOptions o ∧
      r.get? soleOperation = some ⟨none, none, none, none,
        StatusKey.insert status' (ResponseArtifact.of fast t)
          (StatusKey.insert status (.of fast n) [])⟩ ∧
      n.source = (Engine.typed .integer).document ∧ t.source = (Engine.typed .string).document := by
  obtain ⟨n, hn, hnsource⟩ := exists_compile_typed o .integer
  obtain ⟨t, ht, htsource⟩ := exists_compile_typed o .string
  have hresponses : compileResponses (Engine.ofOptions o) soleOperation fast
      (numbersAndTexts key key').responses [] =
        .ok (StatusKey.insert status' (ResponseArtifact.of fast t)
          (StatusKey.insert status (.of fast n) [])) := by
    simp only [numbersAndTexts, compileResponses, hread, hread', compileSlot, hn, ht]
    rfl
  have htable : compileTable (Engine.ofOptions o) fast
      [(soleOperation, numbersAndTexts key key')] =
        .ok [(soleOperation, ⟨none, none, none, none,
          StatusKey.insert status' (ResponseArtifact.of fast t)
            (StatusKey.insert status (.of fast n) [])⟩)] := by
    show ((compileResponses _ _ _ (numbersAndTexts key key').responses []).bind _ >>= _) = _
    rw [hresponses]
    rfl
  refine ⟨⟨Engine.ofOptions o, [(soleOperation, ⟨none, none, none, none,
    StatusKey.insert status' (ResponseArtifact.of fast t)
      (StatusKey.insert status (.of fast n) [])⟩)]⟩, n, t, ?_, rfl, rfl, hnsource, htsource⟩
  unfold load
  rw [show (empty (Engine.ofOptions o)).engine = Engine.ofOptions o from rfl, htable]
  rfl

/-- A class and a code are told apart. -/
theorem answersEach_classAndCode : ∃ r' c, Fields.Ordered
      [(soleOperation, numbersAndTexts "2XX" "404")] ∧
    Fields.Ordered (numbersAndTexts "2XX" "404").responses ∧
    (empty (Engine.ofOptions .standard)).load [(soleOperation, numbersAndTexts "2XX" "404")] true =
      .ok r' ∧
    Fields.get? [(soleOperation, numbersAndTexts "2XX" "404")] soleOperation =
      some (numbersAndTexts "2XX" "404") ∧
    r'.get? soleOperation = some c ∧ c.responses.length = 2 ∧
    c.AnswersEach (empty (Engine.ofOptions .standard)).engine true
      (numbersAndTexts "2XX" "404") := by
  have hclass : StatusKey.read? "2XX" = some (.statusClass 2) := rfl
  have hcode : StatusKey.read? "404" = some (.exact 404) := rfl
  obtain ⟨r', n, t, hload, -, -, -, -⟩ := exists_load_numbersAndTexts .standard true hclass hcode
  have hordered : Fields.Ordered [(soleOperation, numbersAndTexts "2XX" "404")] :=
    List.pairwise_singleton _ _
  have hresponses : Fields.Ordered (numbersAndTexts "2XX" "404").responses := by
    simp only [numbersAndTexts, Fields.Ordered]
    decide
  have hdeclared : Fields.get? [(soleOperation, numbersAndTexts "2XX" "404")] soleOperation =
      some (numbersAndTexts "2XX" "404") := rfl
  obtain ⟨c, hc, -, hlength, hiff⟩ := answersEach_iff hordered hresponses hload hdeclared
  have hanswered : (numbersAndTexts "2XX" "404").answered = ["2XX", "404"] := rfl
  have heach := hiff.mpr (by rw [hanswered]; decide)
  exact ⟨r', c, hordered, hresponses, hload, hdeclared, hc, heach.count, heach⟩

/-- A class that is written in two ways has one artifact; the schema written first is lost. -/
theorem not_answersEach_sameClass : ∃ r' c,
    (empty (Engine.ofOptions .standard)).load [(soleOperation, numbersAndTexts "2XX" "2xx")] false =
      .ok r' ∧
    r'.get? soleOperation = some c ∧
    c.responses.map (fun x => (x.1, x.2.source)) =
      [(.statusClass 2, (Engine.typed .string).document)] ∧
    ¬ c.AnswersEach r'.engine false (numbersAndTexts "2XX" "2xx") := by
  have hupper : StatusKey.read? "2XX" = some (.statusClass 2) := rfl
  have hlower : StatusKey.read? "2xx" = some (.statusClass 2) := rfl
  obtain ⟨r', n, t, hload, -, hc, -, htsource⟩ :=
    exists_load_numbersAndTexts .standard false hupper hlower
  refine ⟨r', _, hload, hc, ?_, ?_⟩
  · rw [← htsource]
    rfl
  · intro heach
    -- one artifact for two texts
    have hcount : 1 = 2 := heach.count
    exact absurd hcount (by decide)

end Repository

end HttpContract
