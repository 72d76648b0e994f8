import HttpContract.Proofs.Enforcement

/-!
# Failing parts and the error handler

The parts of a request are validated one after the other, each in place, and only then is the error
handler asked about those that failed. The two stay apart. A part is checked as it was given,
whatever has become of the parts before it (`Gate.sweeps_of_nodup`), and the handler is given the
exceptions of all failing parts, whatever it says about each of them: what it says decides which
rejection is returned, and nothing else (`Gate.before_dispatches`).
-/

namespace HttpContract

namespace RequestData

@[simp] theorem slot_withSlot_self (d : RequestData) (slot : RequestSlot) (v : Json) :
    (d.withSlot slot v).slot slot = v := by
  cases slot <;> rfl

theorem slot_withSlot_of_ne (d : RequestData) {slot other : RequestSlot} (v : Json)
    (h : other ≠ slot) : (d.withSlot slot v).slot other = d.slot other := by
  cases slot <;> cases other <;> first | rfl | exact absurd rfl h

end RequestData

namespace Gate

variable {r : Repository} {operation : String} {d : RequestData}

/-! ## Parts -/

/-- What the schema of a part makes of the value given for it; none if the part has no schema. -/
def validated? (r : Repository) (operation : String) (d : RequestData) (slot : RequestSlot) :
    Option Validated :=
  (r.request? slot operation).map (fun s => r.engine.validate s (d.slot slot))

/-- The verdict on a part as it was given. -/
def verdictOn (r : Repository) (operation : String) (d : RequestData) (slot : RequestSlot) :
    Verdict :=
  (validated? r operation d slot).elim .notValidated (·.verdict)

/-- What is left of the value given for a part. -/
def leftOf (r : Repository) (operation : String) (d : RequestData) (slot : RequestSlot) : Json :=
  (validated? r operation d slot).elim (d.slot slot) (·.value)

theorem checkSlot_eq (slot : RequestSlot) : checkSlot r operation d slot =
    ⟨slot, verdictOn r operation d slot, d.slot slot, leftOf r operation d slot⟩ := by
  unfold checkSlot verdictOn leftOf validated?
  cases r.request? slot operation <;> rfl

/-- A check looks at no part but its own. -/
theorem checkSlot_congr {d' : RequestData} {slot : RequestSlot} (h : d'.slot slot = d.slot slot) :
    checkSlot r operation d' slot = checkSlot r operation d slot := by
  unfold checkSlot
  rw [h]

/-- A part is not validated exactly if it has no schema. -/
theorem validated_verdictOn (slot : RequestSlot) :
    (verdictOn r operation d slot).validated = false ↔ r.request? slot operation = none := by
  unfold verdictOn validated?
  cases r.request? slot operation with
  | none => exact iff_of_true rfl rfl
  | some s =>
    refine iff_of_false ?_ (by simp)
    have hvalidated : (r.engine.validate s (d.slot slot)).verdict.validated = true := by
      unfold Engine.validate
      split
      · unfold Verdict.ofErrors
        split <;> rfl
      · rfl
    simpa using hvalidated

/-- A part fails only by a schema. -/
theorem exists_schema_of_failed {slot : RequestSlot}
    (h : (verdictOn r operation d slot).success = false) :
    ∃ s, r.request? slot operation = some s ∧
      (verdictOn r operation d slot).errors =
        (r.engine.validate s (d.slot slot)).verdict.errors := by
  unfold verdictOn validated? at h ⊢
  cases hs : r.request? slot operation with
  | none =>
    rw [hs] at h
    cases h
  | some s => exact ⟨s, rfl, rfl⟩

/-! ## Validation in place -/

/-- Validating parts of a request one after the other, each in place: every check is made on the
data as the checks before it have left them. -/
inductive Sweeps (r : Repository) (operation : String) :
    List RequestSlot → (given : RequestData) → RequestReport → (left : RequestData) → Prop where
  | done (d : RequestData) : Sweeps r operation [] d [] d
  | step {slot : RequestSlot} {rest : List RequestSlot} {d left : RequestData}
      {report : RequestReport}
      (h : Sweeps r operation rest (d.withSlot slot (leftOf r operation d slot)) report left) :
      Sweeps r operation (slot :: rest) d ((slot, verdictOn r operation d slot) :: report) left

/-- Where no part comes twice, every part is checked as it was given. -/
theorem sweeps_of_nodup {slots : List RequestSlot} (h : slots.Nodup) :
    Sweeps r operation slots d
      ((slots.map (checkSlot r operation d)).map (fun c => (c.slot, c.verdict)))
      ((slots.map (checkSlot r operation d)).foldl (fun d c => d.withSlot c.slot c.value) d) := by
  induction slots generalizing d with
  | nil => exact .done d
  | cons slot rest ih =>
    obtain ⟨hslot, hrest⟩ := List.nodup_cons.mp h
    -- the parts that are still to come have not been touched
    have hlater : rest.map (checkSlot r operation
        (d.withSlot slot (leftOf r operation d slot))) = rest.map (checkSlot r operation d) := by
      refine List.map_congr_left (fun other hother => checkSlot_congr ?_)
      have hne : other ≠ slot := by
        rintro rfl
        exact hslot hother
      exact d.slot_withSlot_of_ne _ hne
    have hsweep := ih (d := d.withSlot slot (leftOf r operation d slot)) hrest
    rw [hlater] at hsweep
    simp only [List.map_cons, List.foldl_cons, checkSlot_eq slot]
    exact .step hsweep

/-! ## Exceptions -/

/-- There is one exception for each failing part, in the order of the parts, and it tells the
errors of the part and the value that was given for it. -/
structure Raises (r : Repository) (operation : String) (d : RequestData)
    (raised : List Exception) : Prop where
  slots : raised.map (·.slot) =
    (RequestSlot.all.filter (fun slot => !(verdictOn r operation d slot).success)).map some
  told : ∀ x ∈ raised, ∃ slot s, r.request? slot operation = some s ∧
    x = ⟨.request, operation, some slot, (r.engine.validate s (d.slot slot)).verdict.errors,
      d.slot slot⟩

/-- There is one verdict for each part, in the order of the parts; one that says that nothing was
validated stands for the parts without schema. -/
structure Reports (r : Repository) (operation : String) (d : RequestData)
    (report : RequestReport) : Prop where
  slots : report.map (·.1) = RequestSlot.all
  checked : ∀ slot s, r.request? slot operation = some s →
    report.get? slot = some (r.engine.validate s (d.slot slot)).verdict
  unchecked : ∀ slot, r.request? slot operation = none → report.get? slot = some .notValidated
  validated : ∀ slot verdict, report.get? slot = some verdict →
    (verdict.validated = false ↔ r.request? slot operation = none)

/-- The outcome is the first rejection of one of the exceptions, or the report if none of them is
rejected. -/
structure Decides (handler : Handler) (raised : List Exception) (report : RequestReport)
    (outcome : Except Rejection RequestReport) : Prop where
  rejected : ∀ rejection, outcome = .error rejection ↔ ∃ earlier x later,
    raised = earlier ++ x :: later ∧ (∀ y ∈ earlier, handler y = none) ∧
      handler x = some rejection
  passed : ∀ report', outcome = .ok report' ↔
    (∀ x ∈ raised, handler x = none) ∧ report' = report

theorem exception?_checkSlot (slot : RequestSlot) :
    SlotCheck.exception? operation (checkSlot r operation d slot) =
      if (verdictOn r operation d slot).success then none
      else some ⟨.request, operation, some slot, (verdictOn r operation d slot).errors,
        d.slot slot⟩ := by
  rw [checkSlot_eq]
  rfl

theorem raises_exceptions : Raises r operation d (exceptions r operation d) := by
  constructor
  · have hslots : ∀ slots : List RequestSlot,
        ((slots.map (checkSlot r operation d)).filterMap
          (SlotCheck.exception? operation)).map (·.slot) =
          (slots.filter (fun slot => !(verdictOn r operation d slot).success)).map some := by
      intro slots
      induction slots with
      | nil => rfl
      | cons slot rest ih =>
        rw [List.map_cons, List.filterMap_cons, exception?_checkSlot, List.filter_cons]
        cases (verdictOn r operation d slot).success with
        | true => simpa using ih
        | false => simpa using ih
    exact hslots RequestSlot.all
  · intro x hx
    obtain ⟨c, hc, hexception⟩ := List.mem_filterMap.mp hx
    obtain ⟨slot, -, rfl⟩ := List.mem_map.mp hc
    rw [exception?_checkSlot] at hexception
    split at hexception
    · cases hexception
    · next hfailed =>
      obtain ⟨s, hs, herrors⟩ := exists_schema_of_failed (Bool.eq_false_iff.mpr hfailed)
      refine ⟨slot, s, hs, ?_⟩
      rw [← herrors]
      exact (Option.some.inj hexception).symm

theorem reports_checks : Reports r operation d
    ((RequestSlot.all.map (checkSlot r operation d)).map (fun c => (c.slot, c.verdict))) := by
  have hget : ∀ slot, RequestReport.get?
      ((RequestSlot.all.map (checkSlot r operation d)).map (fun c => (c.slot, c.verdict))) slot =
        some (verdictOn r operation d slot) := by
    intro slot
    simp only [RequestSlot.all, List.map_cons, List.map_nil, checkSlot_eq]
    cases slot <;> rfl
  refine ⟨?_, fun slot s hs => ?_, fun slot hnone => ?_, fun slot verdict hverdict => ?_⟩
  · simp [RequestSlot.all, slot_checkSlot]
  · rw [hget, verdictOn, validated?, hs]
    rfl
  · rw [hget, verdictOn, validated?, hnone]
    rfl
  · rw [hget] at hverdict
    obtain rfl := Option.some.inj hverdict
    exact validated_verdictOn slot

/-! ## The answer of the handler -/

/-- The handler turns exceptions down by the first one that it rejects. -/
theorem handAll_eq_some_iff {handler : Handler} {raised : List Exception} {rejection : Rejection} :
    handAll handler raised = some rejection ↔ ∃ earlier x later,
      raised = earlier ++ x :: later ∧ (∀ y ∈ earlier, handler y = none) ∧
        handler x = some rejection := by
  unfold handAll
  rw [List.head?_filterMap, List.findSome?_eq_some_iff]
  constructor
  · rintro ⟨earlier, x, later, hsplit, hx, hearlier⟩
    exact ⟨earlier, x, later, hsplit, hearlier, hx⟩
  · rintro ⟨earlier, x, later, hsplit, hearlier, hx⟩
    exact ⟨earlier, x, later, hsplit, hx, hearlier⟩

theorem handAll_eq_none_iff {handler : Handler} {raised : List Exception} :
    handAll handler raised = none ↔ ∀ x ∈ raised, handler x = none := by
  unfold handAll
  rw [List.head?_filterMap, List.findSome?_eq_none_iff]

theorem decides_handAll (handler : Handler) (raised : List Exception) (report : RequestReport) :
    Decides handler raised report
      (match handAll handler raised with
        | some rejection => .error rejection
        | none => .ok report) := by
  cases hhand : handAll handler raised with
  | some first =>
    refine ⟨fun rejection => ?_, fun report' => ?_⟩
    · rw [← handAll_eq_some_iff, hhand, Except.error.injEq, Option.some.injEq]
    · rw [← handAll_eq_none_iff, hhand]
      simp
  | none =>
    refine ⟨fun rejection => ?_, fun report' => ?_⟩
    · rw [← handAll_eq_some_iff, hhand]
      simp
    · rw [← handAll_eq_none_iff, hhand, Except.ok.injEq]
      exact ⟨fun h => ⟨rfl, h.symm⟩, fun h => h.2.symm⟩

/-- Before the handler has said anything, all parts of a request are validated in place, in their
order, and it is settled which exceptions it is given: one for each failing part, with the errors of
this part and its value before the validation. Whatever the handler is, the data that are left are
those, and it is given those exceptions; the outcome is its first rejection, or else the report on
all parts. -/
theorem before_dispatches (r : Repository) (operation : String) (d : RequestData) :
    ∃ (report : RequestReport) (raised : List Exception) (left : RequestData),
      Sweeps r operation RequestSlot.all d report left ∧
      Reports r operation d report ∧ Raises r operation d raised ∧
      (∀ slot, left.slot slot = leftOf r operation d slot) ∧
      ∀ handler, ∃ outcome, before r handler operation d = (⟨outcome, raised⟩, left) ∧
        Decides handler raised report outcome := by
  have hsweeps : Sweeps r operation RequestSlot.all d _ _ := sweeps_of_nodup (by decide)
  refine ⟨_, exceptions r operation d, _, hsweeps, reports_checks, raises_exceptions,
    fun slot => ?_, fun handler => ⟨_, before_eq handler, decides_handAll handler _ _⟩⟩
  -- the data are the same for all handlers, so any of them will do
  have hleft : (before r Handler.reportOnly operation d).2.slot slot =
      (checkSlot r operation d slot).value := slot_before _ slot
  rw [before_eq, checkSlot_eq] at hleft
  exact hleft

end Gate

end HttpContract
