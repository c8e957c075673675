import VariantScheme.Catalog.Basic

/-!
    Faults in a case analysis. There has to be exactly one arm for each case of the type, in any
    order, and each arm names exactly the fields of its record. -/

namespace VariantScheme.Catalog

/-- What is wrong with one arm of an analysis of the variant that goes by `type`. -/
def armFault? (k : Catalog) (type : String) (v : Variant) (arm : Arm) : Option Failure :=
  match k.record? arm.record with
  | none => some (.unknownRecord arm.record)
  | some r =>
      if r.fields.length ≠ arm.pattern.length then
        some (.arityMismatch (Phrase.arm arm).occurrence r.fields.length arm.pattern.length)
      else if arm.record ∉ v.recordNames then some (.notACase arm.record type)
      else none

/-- The cases of a variant that no arm is for. -/
def missing (v : Variant) (arms : List Arm) : List String :=
  v.recordNames.filter fun n => n ∉ arms.map (·.record)

/-- The first fault of a case analysis: an unknown type, a repeated arm, a wrong arm, and last the
    cases that are left out. -/
def caseFault? (k : Catalog) (type : String) (arms : List Arm) : Option Failure :=
  match k.variant? type with
  | none => some (.unknownType type)
  | some v =>
      ((firstRepeat [] (arms.map (·.record))).map .duplicateCase).or <|
        (arms.findSome? (k.armFault? type v)).or <|
          match missing v arms with
          | [] => none
          | names => some (.notExhaustive type names)

end VariantScheme.Catalog
