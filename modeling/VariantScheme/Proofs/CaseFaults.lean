import VariantScheme.Proofs.Checking

/-!
    What is reported about a case analysis with faults. Several may be there at once, and one is
    reported: an unknown type before a repeated arm, a repeated arm before a wrong one, the leftmost
    of wrong arms, and cases that are left out only when there is nothing else to report.
    `CaseFault` says which one it is without a search. -/

namespace VariantScheme

namespace Catalog

/-- The arm is for a case of the variant, and has a name for each field of its record. -/
def Suits (k : Catalog) (v : Variant) (arm : Arm) : Prop :=
  (∃ r, k.record? arm.record = some r ∧ arm.pattern.length = r.fields.length) ∧
    arm.record ∈ v.recordNames

/-- What is wrong with an arm: its record is unknown; else there are more or fewer names than
    fields; else the record is not a case of the variant. -/
inductive ArmFault (k : Catalog) (type : String) (v : Variant) (arm : Arm) : Failure → Prop
  | unknownRecord (unknown : ¬ k.DeclaresRecord arm.record) :
      ArmFault k type v arm (.unknownRecord arm.record)
  | arityMismatch {r : Record} (found : k.record? arm.record = some r)
      (uneven : arm.pattern.length ≠ r.fields.length) :
      ArmFault k type v arm
        (.arityMismatch (Phrase.arm arm).occurrence r.fields.length arm.pattern.length)
  | notACase {r : Record} (found : k.record? arm.record = some r)
      (even : arm.pattern.length = r.fields.length) (unlisted : arm.record ∉ v.recordNames) :
      ArmFault k type v arm (.notACase arm.record type)

/-- What is to be reported about an analysis of the variant that goes by `type`. -/
inductive CaseFault (k : Catalog) (type : String) (arms : List Arm) : Failure → Prop
  | unknownType (unknown : ¬ k.DeclaresVariant type) : CaseFault k type arms (.unknownType type)
  | duplicateCase {v : Variant} {before after : List Arm} {arm : Arm}
      (found : k.variant? type = some v) (split : arms = before ++ arm :: after)
      (once : (before.map (·.record)).Nodup) (again : arm.record ∈ before.map (·.record)) :
      CaseFault k type arms (.duplicateCase arm.record)
  | wrongArm {v : Variant} {before after : List Arm} {arm : Arm} {f : Failure}
      (found : k.variant? type = some v) (once : (arms.map (·.record)).Nodup)
      (split : arms = before ++ arm :: after) (suit : ∀ a ∈ before, k.Suits v a)
      (wrong : k.ArmFault type v arm f) : CaseFault k type arms f
  | notExhaustive {v : Variant} {n : String} (found : k.variant? type = some v)
      (once : (arms.map (·.record)).Nodup) (suit : ∀ a ∈ arms, k.Suits v a)
      (case : n ∈ v.recordNames) (uncovered : n ∉ arms.map (·.record)) :
      CaseFault k type arms
        (.notExhaustive type (v.recordNames.filter fun m => m ∉ arms.map (·.record)))

variable {k : Catalog} {v : Variant} {type : String} {arms : List Arm} {f : Failure}

theorem armFault?_eq_some_iff {arm : Arm} :
    k.armFault? type v arm = some f ↔ k.ArmFault type v arm f := by
  constructor
  · intro h
    rw [armFault?] at h
    split at h
    · rename_i hnone
      cases h
      exact .unknownRecord (record?_isNone_iff.mp (by rw [hnone]; rfl))
    · rename_i r hr
      split at h
      · rename_i huneven
        cases h
        exact .arityMismatch hr (Ne.symm huneven)
      · rename_i heven
        split at h
        · rename_i hunlisted
          cases h
          exact .notACase hr (Decidable.of_not_not heven).symm hunlisted
        · cases h
  · intro h
    cases h with
    | unknownRecord unknown =>
      rw [armFault?, Option.isNone_iff_eq_none.mp (record?_isNone_iff.mpr unknown)]
    | arityMismatch found uneven => simp [armFault?, found, Ne.symm uneven]
    | notACase found even unlisted => simp [armFault?, found, even, unlisted]

/-- The name that is found to be repeated belongs to the first arm for a record that an earlier arm
    is for. -/
theorem firstRepeat_records_iff {n : String} :
    firstRepeat [] (arms.map (·.record)) = some n ↔
      ∃ before arm after, arms = before ++ arm :: after ∧ arm.record = n ∧
        (before.map (·.record)).Nodup ∧ arm.record ∈ before.map (·.record) := by
  rw [firstRepeat_eq_some_iff]
  constructor
  · rintro ⟨names, rest, hsplit, hnodup, -, hagain⟩
    obtain ⟨before, tail, rfl, rfl, htail⟩ := List.map_eq_append_iff.mp hsplit
    obtain ⟨arm, after, rfl, rfl, rfl⟩ := List.map_eq_cons_iff.mp htail
    exact ⟨before, arm, after, rfl, rfl, hnodup, hagain.resolve_left List.not_mem_nil⟩
  · rintro ⟨before, arm, after, rfl, rfl, hnodup, hagain⟩
    exact ⟨before.map (·.record), after.map (·.record), by simp, hnodup, by simp, .inr hagain⟩

theorem firstRepeat_records_eq_none (h : (arms.map (·.record)).Nodup) :
    firstRepeat [] (arms.map (·.record)) = none :=
  firstRepeat_eq_none_iff.mpr ⟨h, by simp⟩

/-- A fault that is found is the one to be reported. -/
theorem caseFault_of_caseFault? (h : k.caseFault? type arms = some f) :
    k.CaseFault type arms f := by
  rw [caseFault?] at h
  split at h
  · rename_i hnone
    cases h
    exact .unknownType fun hdecl => by simpa [hnone] using variant?_isSome_iff.mpr hdecl
  · rename_i v hv
    rcases Option.or_eq_some_iff.mp h with h | ⟨honce, h⟩
    · obtain ⟨n, hn, rfl⟩ := Option.map_eq_some_iff.mp h
      obtain ⟨before, arm, after, hsplit, rfl, hnodup, hagain⟩ := firstRepeat_records_iff.mp hn
      exact .duplicateCase hv hsplit hnodup hagain
    have hnodup : (arms.map (·.record)).Nodup :=
      (firstRepeat_eq_none_iff.mp (Option.map_eq_none_iff.mp honce)).1
    rcases Option.or_eq_some_iff.mp h with h | ⟨hright, h⟩
    · obtain ⟨before, arm, after, hsplit, hwrong, hbefore⟩ := List.findSome?_eq_some_iff.mp h
      exact .wrongArm hv hnodup hsplit (fun a ha => armFault?_eq_none_iff.mp (hbefore a ha))
        (armFault?_eq_some_iff.mp hwrong)
    have hsuit : ∀ a ∈ arms, k.Suits v a := fun a ha =>
      armFault?_eq_none_iff.mp (List.findSome?_eq_none_iff.mp hright a ha)
    split at h
    · cases h
    · rename_i hmissing
      cases h
      obtain ⟨n, hn⟩ := List.exists_mem_of_ne_nil _ hmissing
      obtain ⟨hcase, huncovered⟩ : n ∈ v.recordNames ∧ n ∉ arms.map (·.record) := by
        simpa [missing] using hn
      exact .notExhaustive hv hnodup hsuit hcase huncovered

/-- The fault that is to be reported is the one found. -/
theorem caseFault?_of_caseFault (h : k.CaseFault type arms f) :
    k.caseFault? type arms = some f := by
  cases h with
  | unknownType unknown =>
    have hnone : k.variant? type = none :=
      Option.not_isSome_iff_eq_none.mp (mt variant?_isSome_iff.mp unknown)
    simp [caseFault?, hnone]
  | duplicateCase found split once again =>
    have hrepeat := firstRepeat_records_iff.mpr ⟨_, _, _, split, rfl, once, again⟩
    simp [caseFault?, found, hrepeat]
  | @wrongArm v before after arm f found once split suit wrong =>
    have hwrong : arms.findSome? (k.armFault? type v) = some f :=
      List.findSome?_eq_some_iff.mpr ⟨before, arm, after, split, armFault?_eq_some_iff.mpr wrong,
        fun a ha => armFault?_eq_none_iff.mpr (suit a ha)⟩
    simp [caseFault?, found, firstRepeat_records_eq_none once, hwrong]
  | @notExhaustive v n found once suit case uncovered =>
    have hright : arms.findSome? (k.armFault? type v) = none :=
      List.findSome?_eq_none_iff.mpr fun a ha => armFault?_eq_none_iff.mpr (suit a ha)
    have hmem : n ∈ missing v arms := List.mem_filter.mpr ⟨case, by simpa using uncovered⟩
    rw [caseFault?, found]
    simp only [firstRepeat_records_eq_none once, hright, Option.map_none, Option.none_or]
    split
    · rename_i hnil
      simp [hnil] at hmem
    · rfl

theorem Covers.armFields_eq (h : k.Covers v arms) {arm : Arm} (harm : arm ∈ arms)
    (lenient : Bool) : ∃ r, k.record? arm.record = some r ∧
      (⟨lenient, some k⟩ : Checker).armFields arm = .ok r.fieldTypes := by
  obtain ⟨r, hr, hlength⟩ := h.shaped arm harm
  exact ⟨r, hr, Checker.armFields_eq_ok_iff.mpr ⟨r, hr, hlength, rfl⟩⟩

/-- The search for faults of a case analysis decides whether there is exactly one arm for each case,
    with a name for each field. Where that is not so, it comes out with what is to be reported; where
    it is, the checker finds the record of every arm and as many names as that has fields, in either
    mode. -/
theorem caseFault?_decides (k : Catalog) (type : String) (arms : List Arm) :
    (k.caseFault? type arms = none ↔ ∃ v, k.variant? type = some v ∧ k.Covers v arms) ∧
      (∀ f, k.caseFault? type arms = some f ↔ k.CaseFault type arms f) ∧
      (k.caseFault? type arms = none → ∀ lenient, ∀ arm ∈ arms,
        ∃ r, k.record? arm.record = some r ∧
          (⟨lenient, some k⟩ : Checker).armFields arm = .ok r.fieldTypes) := by
  refine ⟨caseFault?_eq_none_iff, fun f => ?_, fun hnone lenient arm harm => ?_⟩
  · exact ⟨caseFault_of_caseFault?, caseFault?_of_caseFault⟩
  · obtain ⟨v, -, hcovers⟩ := caseFault?_eq_none_iff.mp hnone
    exact hcovers.armFields_eq harm lenient

/-- Two variants, to be analysed with and without faults. -/
def signals : Catalog :=
  ⟨[], [⟨"Signal", [⟨"Lamp", [⟨"color", .string⟩]⟩, ⟨"Horn", [⟨"tone", .number⟩, ⟨"time", .number⟩]⟩]⟩,
    ⟨"Memo", [⟨"Blank", []⟩]⟩]⟩

/-- An arm that only reads one of its names. -/
def reading (i : Nat) (record : String) (pattern : List String) (x : String) : Arm :=
  ⟨i, record, pattern, ⟨[], .variable (i + 1) x⟩⟩

/-- The second arm has too many names and the third is for another variant, but the fourth is for
    the same record as the first. -/
theorem caseFault?_decides_signals :
    (∀ lenient, ∀ arm ∈ [reading 0 "Horn" ["t", "d"] "t", reading 2 "Lamp" ["c"] "c"],
      ∃ r, signals.record? arm.record = some r ∧
        (⟨lenient, some signals⟩ : Checker).armFields arm = .ok r.fieldTypes) ∧
      signals.CaseFault "Signal"
        [reading 0 "Lamp" ["c"] "c", reading 2 "Horn" ["t", "d", "v"] "t", reading 4 "Blank" [] "x",
          reading 6 "Lamp" ["c"] "c"] (.duplicateCase "Lamp") := by
  obtain ⟨-, -, hguards⟩ := caseFault?_decides signals "Signal"
    [reading 0 "Horn" ["t", "d"] "t", reading 2 "Lamp" ["c"] "c"]
  obtain ⟨-, hfault, -⟩ := caseFault?_decides signals "Signal"
    [reading 0 "Lamp" ["c"] "c", reading 2 "Horn" ["t", "d", "v"] "t", reading 4 "Blank" [] "x",
      reading 6 "Lamp" ["c"] "c"]
  exact ⟨hguards (by decide), (hfault _).mp (by decide)⟩

end Catalog

end VariantScheme
