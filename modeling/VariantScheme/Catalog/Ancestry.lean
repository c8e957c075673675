import VariantScheme.Catalog.Basic
import VariantScheme.Ty.Equality

/-!
    The order of types by name. A record lies below every variant that lists it as a case, and
    every type lies below `any`; beyond that types are related only by equality. The join of several
    types is the most specific of the ancestors that they have in common. -/

namespace VariantScheme.Catalog

/-- The names a named type goes by: for a variant its own, for a record its own and those of the
    variants it is a case of. A name that is not declared goes by none. -/
def lineage (k : Catalog) (name : String) : List String :=
  if (k.variant? name).isSome then [name]
  else if (k.record? name).isNone then []
  else distinctBy id (name :: (k.parents name).map (·.name))

/-- The names above a type, itself included. -/
def ancestorNames (k : Catalog) : Ty → List String
  | .named n => k.lineage n
  | .record r => k.lineage r.name
  | .variant v => [v.name]
  | _ => []

/-- A type with all that lies above it, named types by name. -/
def ancestors (k : Catalog) (t : Ty) : Except Refusal (List Ty) :=
  match t with
  | .atom _ | .quoted | .var _ _ | .proc _ _ => .ok [t]
  | .named _ | .record _ | .variant _ => .ok ((k.ancestorNames t).map .named)
  | .failure _ | .bare _ => .error (.noAncestry t)

/-- Does the first type lie below the second? -/
def isSubtype (k : Catalog) (a b : Ty) : Bool :=
  b = .any ||
    match a.name?, b.name? with
    | some m, some n => m = n || n ∈ k.ancestorNames a
    | _, _ => (a.isAtomic || a.isVar) && a = b

/-- May a value of the computed type stand where the declared type is expected? -/
def fits (k : Catalog) (computed declared : Ty) : Bool :=
  declared = .any || computed = declared || k.isSubtype computed declared

/-- The declared type if the computed one fits, else that failure at the site. -/
def compatible (k : Catalog) (computed declared : Ty) (site : Phrase) : Ty :=
  if k.fits computed declared then declared
  else .failure (.incompatible computed declared site.occurrence)

/-- Those of some types that lie above one more type. -/
def narrow (k : Catalog) (common : List Ty) (t : Ty) : Except Refusal (List Ty) := do
  let above ← k.ancestors t
  return common.filter (· ∈ above)

/-- The ancestors that all the types have in common, in the order of the first type's. -/
def commonAncestors (k : Catalog) : List Ty → Except Refusal (List Ty)
  | [] => .ok []
  | t :: ts => do ts.foldlM k.narrow (← k.ancestors t)

/-- The most specific of some types: each one that lies below the choice so far replaces it. -/
def mostSpecific (k : Catalog) (candidates : List Ty) : Ty :=
  candidates.foldl (fun choice c => if k.isSubtype c choice then c else choice) .any

/-- The most specific common ancestor of some types; when they have none, that failure. -/
def join (k : Catalog) (types : List Ty) : Except Refusal Ty := do
  let common ← k.commonAncestors types
  if common.isEmpty then return .failure (.noCommonType types)
  else return k.mostSpecific common

end VariantScheme.Catalog
