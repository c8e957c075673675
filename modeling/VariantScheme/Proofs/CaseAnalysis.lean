import VariantScheme.Catalog.CaseAnalysis
import VariantScheme.Proofs.Declarations

/-!
    A case analysis without fault has one arm for each case: `caseFault?_eq_none_iff` says that the
    search for a fault comes out empty exactly then. -/

namespace VariantScheme.Catalog

/-- The arms are one for each case of the variant, and each names the fields of its record. -/
structure Covers (k : Catalog) (v : Variant) (arms : List Arm) : Prop where
  once : (arms.map (·.record)).Nodup
  cases_iff : ∀ n, n ∈ arms.map (·.record) ↔ n ∈ v.recordNames
  shaped : ∀ arm ∈ arms, ∃ r, k.record? arm.record = some r ∧
    arm.pattern.length = r.fields.length

variable {k : Catalog} {v : Variant} {type : String} {arms : List Arm}

theorem armFault?_eq_none_iff {arm : Arm} : k.armFault? type v arm = none ↔
    (∃ r, k.record? arm.record = some r ∧ arm.pattern.length = r.fields.length) ∧
      arm.record ∈ v.recordNames := by
  cases hr : k.record? arm.record with
  | none => simp [armFault?, hr]
  | some r =>
    by_cases hlen : r.fields.length = arm.pattern.length
    · simp [armFault?, hr, hlen]
    · simp [armFault?, hr, hlen, Ne.symm hlen]

theorem missing_eq_nil_iff :
    missing v arms = [] ↔ ∀ n ∈ v.recordNames, n ∈ arms.map (·.record) := by
  simp [missing]

theorem covers_iff (type : String) : k.Covers v arms ↔
    (arms.map (·.record)).Nodup ∧ (∀ arm ∈ arms, k.armFault? type v arm = none) ∧
      missing v arms = [] := by
  simp only [armFault?_eq_none_iff, missing_eq_nil_iff]
  constructor
  · intro h
    refine ⟨h.once, fun arm harm => ⟨h.shaped arm harm, ?_⟩, fun n => (h.cases_iff n).mpr⟩
    exact (h.cases_iff _).mp (List.mem_map.mpr ⟨arm, harm, rfl⟩)
  · rintro ⟨once, harms, hmissing⟩
    refine ⟨once, fun n => ⟨fun hn => ?_, hmissing n⟩, fun arm harm => (harms arm harm).1⟩
    obtain ⟨arm, harm, rfl⟩ := List.mem_map.mp hn
    exact (harms arm harm).2

theorem caseFault?_eq_none_iff :
    k.caseFault? type arms = none ↔ ∃ v, k.variant? type = some v ∧ k.Covers v arms := by
  cases hv : k.variant? type with
  | none => simp [caseFault?, hv]
  | some v =>
    simp only [caseFault?, hv, Option.or_eq_none_iff, Option.map_eq_none_iff,
      List.findSome?_eq_none_iff, firstRepeat_eq_none_iff, Option.some.injEq, exists_eq_left',
      covers_iff type]
    cases missing v arms <;> simp

end VariantScheme.Catalog
