import VariantScheme.Env

/-!
    What a program declares: its top-level definitions and its variants, with their records. Names
    in types are keys into the catalog. Where a name is declared more than once, the first
    declaration is the one found. -/

namespace VariantScheme

/-- The declarations of a program, in order. -/
structure Catalog where
  definitions : List Param
  variants : List Variant

namespace Catalog

/-- The records of all variants, in order. -/
def records (k : Catalog) : List Record := k.variants.flatMap (·.records)

/-- The variant of a name. -/
def variant? (k : Catalog) (name : String) : Option Variant :=
  k.variants.find? fun v => v.name == name

/-- The record of a name. -/
def record? (k : Catalog) (name : String) : Option Record :=
  k.records.find? fun r => r.name == name

/-- The variant of a name if there is one, else the record. -/
def declared? (k : Catalog) (name : String) : Option Ty :=
  ((k.variant? name).map .variant).or ((k.record? name).map .record)

/-- The variants that have the named record as one of their cases. -/
def parents (k : Catalog) (name : String) : List Variant :=
  k.variants.filter fun v => name ∈ v.recordNames

/-- The type of the predicates `R?` that tell one declared name from the others. -/
def predicate : Ty := .proc [.any] .boolean

/-- What a variant adds to the global frame. -/
def variantEntries (v : Variant) : List (String × Ty) :=
  [(v.name, .named v.name), (v.name ++ "?", predicate)]

/-- What a record adds to the global frame: its name, its predicate and its constructor. -/
def recordEntries (r : Record) : List (String × Ty) :=
  [(r.name, .named r.name), (r.name ++ "?", predicate),
    ("make-" ++ r.name, .proc r.fieldTypes (.named r.name))]

/-- The global environment: definitions first, then variants, then records. -/
def globals (k : Catalog) : Env :=
  Env.bind [] (Param.entries k.definitions
    ++ k.variants.flatMap variantEntries ++ k.records.flatMap recordEntries)

/-- The declarations among some phrases. -/
def ofPhrases (phrases : List Phrase) : Catalog where
  definitions := phrases.filterMap Phrase.definition?
  variants := phrases.filterMap Phrase.declaration?

end Catalog

/-- The top-level definitions of a program. -/
def Body.definitions (program : Program) : List Phrase :=
  program.toList.filter fun p => p.definition?.isSome

/-- The declarations of a program. -/
def Body.catalog (program : Program) : Catalog := .ofPhrases program.toList

/-- A type that was looked for by name; when there is none, that failure. -/
def orNotFound (name : String) (found? : Option Ty) : Ty :=
  found?.getD (.failure (.notFound name))

/-- The name of the declared type that a type is, or that a failure is about. -/
def Ty.topic? : Ty → Option String
  | .failure (.noBaseCase n) | .failure (.notACase _ n) | .failure (.notExhaustive n _) => some n
  | t => t.name?

/-- The first type of a name. Each type up to that one needs to have a name. -/
def findNamed (name : String) : List Ty → Except Refusal (Option Ty)
  | [] => .ok none
  | t :: ts =>
      match t.topic? with
      | none => .error (.nameless t)
      | some n => if n = name then .ok (some t) else findNamed name ts

end VariantScheme
