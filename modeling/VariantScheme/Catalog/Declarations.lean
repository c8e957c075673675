import VariantScheme.Catalog.Building
import VariantScheme.Ty.Equality

/-!
    Faults in declarations. A name may be declared twice only if the declarations agree, and every
    variant needs a value that can be built in finitely many steps. -/

namespace VariantScheme.Catalog

/-! ### Agreement of repeated declarations -/

/-- The first record, or else the first variant, that differs from the first one of its name. -/
def redeclared? (k : Catalog) : Option String :=
  ((k.records.find? fun r => k.record? r.name ≠ some r).map (·.name)).or
    ((k.variants.find? fun v => k.variant? v.name ≠ some v).map (·.name))

/-! ### Base cases -/

/-- The variants that have no value. -/
def stuck (k : Catalog) : List Variant :=
  let known := k.constructible
  k.variants.filter fun v => v.name ∉ known

/-- The variant to blame for a missing base case: one that recurs into itself before one that
    merely depends on such. -/
def baseless? (k : Catalog) : Option String :=
  ((k.stuck.find? fun v => v.name ∈ k.reachable v).or k.stuck.head?).map (·.name)

/-! ### Faults -/

/-- The first fault in the declarations. -/
def declarationFault? (k : Catalog) : Option Failure :=
  (k.redeclared?.map .recordMismatch).or (k.baseless?.map .noBaseCase)

end VariantScheme.Catalog
