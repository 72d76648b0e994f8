import HttpContract.OpenApi.Exploration

/-!
# Chains of references in a description

A value of a description can refer to another one, and that one to a third. `Chain` says how many
references lie between two values. Following the references of a value goes along its chain
(`follow_of_chain`), and a chain ends, breaks off or is longer than any limit (`chain_cases`), so
what is found is known from the chain alone. `Context.resolve_of_chains` says so: the value at the
end is found if fewer references than the limit lead there. A chain with as many references as the
limit is refused like a longer one, and so is a circle (`resolve_relayed`).
-/

namespace HttpContract.OpenApi

/-- How the references into a section of the components start. -/
def sectionStart (area : String) : String := "#/components/" ++ area ++ "/"

/-- Where a reference leads: behind its mark stands a pointer. -/
def landing? (document : Json) (r : String) : Option Json :=
  Json.Pointer.resolve? document (String.ofList (r.toList.drop 1))

/-- What a value refers to, by a reference with the right start that leads somewhere. -/
def target? (document : Json) (start : String) (v : Json) : Option Json :=
  (reference? v).bind fun r => if r.startsWith start then landing? document r else none

/-- A number of references lead from one value to another. -/
inductive Chain (document : Json) (start : String) : Nat → Json → Json → Prop where
  | here (v : Json) : Chain document start 0 v v
  | step {n : Nat} {v t w : Json} (h : target? document start v = some t)
      (rest : Chain document start n t w) : Chain document start (n + 1) v w

/-- The chain ends with a value that is no reference. -/
structure EndsWith (document : Json) (start : String) (n : Nat) (v w : Json) : Prop where
  chain : Chain document start n v w
  plain : reference? w = none

/-- A value that cannot be followed: it refers elsewhere, or its reference leads nowhere. -/
inductive Breaks (document : Json) (start : String) : Json → Fault → Prop where
  | elsewhere {v : Json} {r : String} (hr : reference? v = some r)
      (hstart : r.startsWith start = false) : Breaks document start v (.unsupportedReference r)
  | nowhere {v : Json} {r : String} (hr : reference? v = some r)
      (hstart : r.startsWith start = true) (hlanding : landing? document r = none) :
      Breaks document start v (.unresolvedReference r)

/-- The chain breaks off at a value that cannot be followed. -/
def BreaksOff (document : Json) (start : String) (n : Nat) (v : Json) (e : Fault) : Prop :=
  ∃ w, Chain document start n v w ∧ Breaks document start w e

/-- The chain leads into a circle. -/
def Circles (document : Json) (start : String) (v : Json) : Prop :=
  ∃ n k w, Chain document start n v w ∧ Chain document start (k + 1) w w

variable {document : Json} {start r : String} {v t w : Json} {n k : Nat} {e : Fault}

/-! ## Chains -/

theorem chain_succ_iff : Chain document start (n + 1) v w ↔
    ∃ t, target? document start v = some t ∧ Chain document start n t w := by
  constructor
  · rintro (_ | ⟨h, rest⟩)
    exact ⟨_, h, rest⟩
  · rintro ⟨t, h, rest⟩
    exact .step h rest

instance Chain.decidable (document : Json) (start : String) :
    ∀ n v w, Decidable (Chain document start n v w)
  | 0, v, w => decidable_of_iff (v = w) ⟨fun h => h ▸ .here v, fun h => by cases h; rfl⟩
  | n + 1, v, w =>
    match h : target? document start v with
    | none => isFalse (fun hchain => by simp [chain_succ_iff, h] at hchain)
    | some t =>
      have := Chain.decidable document start n t w
      decidable_of_iff (Chain document start n t w) (by simp [chain_succ_iff, h])

theorem Chain.append (h : Chain document start n v t) (h' : Chain document start k t w) :
    Chain document start (n + k) v w := by
  induction h with
  | here => rwa [Nat.zero_add]
  | step htarget _ ih =>
    rw [Nat.succ_add]
    exact .step htarget (ih h')

/-- The first part of a chain. -/
theorem Chain.exists_shorter (h : Chain document start n v w) (hk : k ≤ n) :
    ∃ t, Chain document start k v t := by
  induction h generalizing k with
  | here v =>
    obtain rfl := Nat.le_zero.mp hk
    exact ⟨v, .here v⟩
  | step htarget _ ih =>
    cases k with
    | zero => exact ⟨_, .here _⟩
    | succ k =>
      obtain ⟨t, ht⟩ := ih (Nat.le_of_succ_le_succ hk)
      exact ⟨t, .step htarget ht⟩

/-- A circle can be run through as often as one likes. -/
theorem Circles.exists_chain (h : Circles document start v) (n : Nat) :
    ∃ w, Chain document start n v w := by
  obtain ⟨m, k, x, hfirst, hround⟩ := h
  have hrounds : ∀ i, Chain document start (i * (k + 1)) x x := by
    intro i
    induction i with
    | zero => rw [Nat.zero_mul]; exact .here x
    | succ i ih =>
      rw [Nat.succ_mul]
      exact ih.append hround
  -- A round has at least one reference, so `n` rounds are long enough.
  have hlong : n ≤ m + n * (k + 1) := by
    rw [Nat.mul_succ]
    omega
  exact (hfirst.append (hrounds n)).exists_shorter hlong

/-! ## Following references -/

/-- One step along a reference. -/
theorem follow_of_reference? (h : reference? v = some r) (fuel : Nat) :
    follow document start (fuel + 1) v =
      if r.startsWith start = true then
        (landing? document r).elim (.error (.unresolvedReference r)) (follow document start fuel)
      else .error (.unsupportedReference r) := by
  rw [follow, h]
  dsimp only
  cases r.startsWith start with
  | false => rfl
  | true =>
    rw [if_pos rfl, if_neg (by decide)]
    unfold landing?
    cases Json.Pointer.resolve? document (String.ofList (r.toList.drop 1)) <;> rfl

theorem follow_of_target? (h : target? document start v = some t) (fuel : Nat) :
    follow document start (fuel + 1) v = follow document start fuel t := by
  obtain ⟨r, hr, h⟩ := Option.bind_eq_some_iff.mp h
  rw [follow_of_reference? hr]
  split at h
  · next hstart => rw [if_pos hstart, h, Option.elim_some]
  · cases h

theorem follow_of_breaks (h : Breaks document start v e) (fuel : Nat) :
    follow document start (fuel + 1) v = .error e := by
  cases h with
  | elsewhere hr hstart => simp [follow_of_reference? hr, hstart]
  | nowhere hr hstart hlanding => simp [follow_of_reference? hr, hstart, hlanding]

/-- Following references goes along the chain. -/
theorem follow_of_chain (h : Chain document start n v w) (fuel : Nat) :
    follow document start (n + fuel) v = follow document start fuel w := by
  induction h with
  | here => rw [Nat.zero_add]
  | step htarget _ ih => rw [Nat.succ_add, follow_of_target? htarget, ih]

theorem follow_of_endsWith (h : EndsWith document start n v w) (hn : n < k) :
    follow document start k v = .ok w := by
  obtain ⟨fuel, rfl⟩ := Nat.exists_eq_add_of_lt hn
  rw [Nat.add_assoc, follow_of_chain h.chain, follow, h.plain]

theorem follow_of_breaksOff (h : BreaksOff document start n v e) (hn : n < k) :
    follow document start k v = .error e := by
  obtain ⟨fuel, rfl⟩ := Nat.exists_eq_add_of_lt hn
  obtain ⟨w, hchain, hbreaks⟩ := h
  rw [Nat.add_assoc, follow_of_chain hchain, follow_of_breaks hbreaks]

/-- What is longer than the limit is refused, and so is what is as long. -/
theorem follow_of_exceeds (h : ∃ w, Chain document start n v w) :
    follow document start n v = .error (.deepReference referenceLimit) := by
  obtain ⟨w, hchain⟩ := h
  exact follow_of_chain hchain 0

/-- A value is no reference, or leads on, or cannot be followed. -/
theorem value_cases (document : Json) (start : String) (v : Json) :
    reference? v = none ∨ (∃ t, target? document start v = some t) ∨
      ∃ e, Breaks document start v e := by
  cases hr : reference? v with
  | none => exact Or.inl rfl
  | some r =>
    right
    cases hstart : r.startsWith start with
    | false => exact Or.inr ⟨_, .elsewhere hr hstart⟩
    | true =>
      cases hlanding : landing? document r with
      | none => exact Or.inr ⟨_, .nowhere hr hstart hlanding⟩
      | some t =>
        refine Or.inl ⟨t, ?_⟩
        rw [target?, hr, Option.bind_some, if_pos hstart, hlanding]

/-- Up to any number of references, a chain ends, breaks off or goes on. -/
theorem chain_cases (document : Json) (start : String) (fuel : Nat) (v : Json) :
    (∃ n < fuel, ∃ w, EndsWith document start n v w) ∨
      (∃ n < fuel, ∃ e, BreaksOff document start n v e) ∨
      ∃ w, Chain document start fuel v w := by
  induction fuel generalizing v with
  | zero => exact Or.inr (Or.inr ⟨v, .here v⟩)
  | succ fuel ih =>
    rcases value_cases document start v with hplain | ⟨t, htarget⟩ | ⟨e, hbreaks⟩
    · exact Or.inl ⟨0, Nat.succ_pos _, v, .here v, hplain⟩
    -- What is referred to has one reference less before it, whichever case it is in.
    · rcases ih t with ⟨n, hn, w, hends⟩ | ⟨n, hn, e, w, hchain, hbreaks⟩ | ⟨w, hchain⟩
      · exact Or.inl ⟨n + 1, Nat.succ_lt_succ hn, w, .step htarget hends.chain, hends.plain⟩
      · exact Or.inr (Or.inl ⟨n + 1, Nat.succ_lt_succ hn, e, w, .step htarget hchain, hbreaks⟩)
      · exact Or.inr (Or.inr ⟨w, .step htarget hchain⟩)
    · exact Or.inr (Or.inl ⟨0, Nat.succ_pos _, e, v, .here v, hbreaks⟩)

theorem follow_eq_ok_iff : follow document start k v = .ok w ↔
    ∃ n < k, EndsWith document start n v w := by
  constructor
  · intro h
    -- The other two cases are in error, and an end that is found is the only one.
    rcases chain_cases document start k v with ⟨n, hn, x, hends⟩ | ⟨n, hn, e, hbreaks⟩ | hchain
    · obtain rfl := Except.ok.inj ((follow_of_endsWith hends hn).symm.trans h)
      exact ⟨n, hn, hends⟩
    · cases (follow_of_breaksOff hbreaks hn).symm.trans h
    · cases (follow_of_exceeds hchain).symm.trans h
  · rintro ⟨n, hn, hends⟩
    exact follow_of_endsWith hends hn

theorem follow_eq_error_iff : follow document start k v = .error e ↔
    (∃ n < k, BreaksOff document start n v e) ∨
      (∃ w, Chain document start k v w) ∧ e = .deepReference referenceLimit := by
  constructor
  · intro h
    rcases chain_cases document start k v with ⟨n, hn, x, hends⟩ | ⟨n, hn, e', hbreaks⟩ | hchain
    · cases (follow_of_endsWith hends hn).symm.trans h
    · obtain rfl := Except.error.inj ((follow_of_breaksOff hbreaks hn).symm.trans h)
      exact Or.inl ⟨n, hn, hbreaks⟩
    · exact Or.inr ⟨hchain, (Except.error.inj ((follow_of_exceeds hchain).symm.trans h)).symm⟩
  · rintro (⟨n, hn, hbreaks⟩ | ⟨hchain, rfl⟩)
    · exact follow_of_breaksOff hbreaks hn
    · exact follow_of_exceeds hchain

/-! ## Sections of components -/

/-- What a value is or refers to within a section of the components. It is found if fewer references
than the limit lead to a value that is no reference. Every other chain is in error: one that breaks
off before by the reference at which it does, one with as many references or more, also if it runs
in a circle, by the limit. -/
theorem Context.resolve_of_chains (c : Context) (area : String) (v : Json) :
    (∀ w, c.resolve area v = .ok w ↔
      ∃ n < referenceLimit, EndsWith c.document (sectionStart area) n v w) ∧
    (∀ e, c.resolve area v = .error e ↔
      (∃ n < referenceLimit, BreaksOff c.document (sectionStart area) n v e) ∨
        (∃ w, Chain c.document (sectionStart area) referenceLimit v w) ∧
          e = .deepReference referenceLimit) ∧
    (∀ n w, EndsWith c.document (sectionStart area) n v w →
      (c.resolve area v = .ok w ↔ n < referenceLimit)) ∧
    (Circles c.document (sectionStart area) v →
      c.resolve area v = .error (.deepReference referenceLimit)) := by
  refine ⟨fun w => follow_eq_ok_iff, fun e => follow_eq_error_iff, fun n w hends => ?_,
    fun hcircle => follow_of_exceeds (hcircle.exists_chain referenceLimit)⟩
  refine ⟨fun hok => ?_, fun hn => follow_of_endsWith hends hn⟩
  rcases Nat.lt_or_ge n referenceLimit with hshort | hlong
  · exact hshort
  · have hdeep : c.resolve area v = .error (.deepReference referenceLimit) :=
      follow_of_exceeds (hends.chain.exists_shorter hlong)
    cases hok.symm.trans hdeep

/-! ## A chain that is just too long -/

/-- A reference to a parameter. -/
def parameterReference (name : String) : Json :=
  .obj [("$ref", .str ("#/components/parameters/" ++ name))]

/-- Parameters each of which refers to the next one, up to the last. -/
def relayed (last : Json) : List String → Fields Json
  | name :: next :: rest => (name, parameterReference next) :: relayed last (next :: rest)
  | [name] => [(name, last)]
  | [] => []

/-- The parameter at the end. -/
def relayedParameter : Json := .obj [("in", .str "query"), ("name", .str "page")]

/-- A description in which parameters refer to one another. -/
def relay (names : List String) : Context :=
  ⟨.obj [("components", .obj [("parameters", .obj (relayed relayedParameter names))])], []⟩

/-- Fifteen parameters: fourteen refer to the next one. -/
def relayNames : List String :=
  ["a", "b", "c", "d", "e", "f", "g", "h", "i", "j", "k", "l", "m", "n", "o"]

/-- With a first reference to the first of fifteen parameters, fifteen references are followed. With
one parameter more there are as many references as the limit allows, and none is found. -/
theorem resolve_relayed :
    (relay relayNames).resolve "parameters" (parameterReference "a") = .ok relayedParameter ∧
    EndsWith (relay (relayNames ++ ["p"])).document (sectionStart "parameters") referenceLimit
      (parameterReference "a") relayedParameter ∧
    (relay (relayNames ++ ["p"])).resolve "parameters" (parameterReference "a") =
      .error (.deepReference referenceLimit) := by
  have hends : EndsWith (relay relayNames).document (sectionStart "parameters") 15
      (parameterReference "a") relayedParameter := ⟨by decide +kernel, by decide +kernel⟩
  have hlong : EndsWith (relay (relayNames ++ ["p"])).document (sectionStart "parameters")
      referenceLimit (parameterReference "a") relayedParameter :=
    ⟨by decide +kernel, by decide +kernel⟩
  exact ⟨follow_of_endsWith hends (by decide), hlong, follow_of_exceeds ⟨_, hlong.chain⟩⟩

end HttpContract.OpenApi
