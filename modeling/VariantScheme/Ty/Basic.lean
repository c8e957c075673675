/-!
    The types of the language, and the failures that stand where a type could not be given.

    Declared variants and their records refer to one another by name, so a recursive declaration is
    still finite data, and two types are the same exactly when they are equal as data. A failure is
    a judgement of the same standing as a type: it can be looked up, rendered and passed on. -/

namespace VariantScheme

/-- What has no written form: the general notions, of which only the particular kinds are written,
    and the numeral of an integer with too many digits. -/
inductive Unprintable where
  | phrase | expression | type | failure | numeral
  deriving DecidableEq

/-- A text, or what had no written form to give. -/
abbrev Printed := Except Unprintable String

instance : DecidableEq Printed
  | .ok a, .ok b => if h : a = b then isTrue (by rw [h]) else isFalse (by simpa using h)
  | .error a, .error b => if h : a = b then isTrue (by rw [h]) else isFalse (by simpa using h)
  | .ok _, .error _ => isFalse (by simp)
  | .error _, .ok _ => isFalse (by simp)

/-- A place in the code: which node it is, and how that node reads. -/
structure Occurrence where
  id : Nat
  text : Printed
  deriving DecidableEq

/-- What tells the type variables of one use of a generic operator from those of another. -/
inductive Site where
  | unplaced
  | label (text : String)
  | node (place : Occurrence)
  deriving DecidableEq

mutual

/-- A named component of a record. -/
structure Field where
  name : String
  type : Ty

/-- One case of a variant. -/
structure Record where
  name : String
  fields : List Field

/-- A declared type: its name and the records that are its cases. -/
structure Variant where
  name : String
  records : List Record

/-- A type. `quoted` is the type of quoted data; `named` refers to a variant or a record by name;
    `bare` is a type of no particular kind, the same only as itself. -/
inductive Ty where
  | atom (name : String)
  | quoted
  | var (name : String) (site : Site)
  | proc (params : List Ty) (result : Ty)
  | named (name : String)
  | record (r : Record)
  | variant (v : Variant)
  | failure (f : Failure)
  | bare (id : Nat)

/-- Why there is no honest type. `unspecified` is the general notion, of no particular kind. -/
inductive Failure where
  | unboundVariable (name : String)
  | notFound (name : String)
  | unknownPrimitive (name : String)
  | incompatible (computed expected : Ty) (site : Occurrence)
  | notAProcedure (type : Ty) (site : Occurrence)
  | arityMismatch (site : Occurrence) (need got : Int)
  | noCommonType (types : List Ty)
  | recordMismatch (name : String)
  | noBaseCase (type : String)
  | duplicateCase (record : String)
  | unknownRecord (name : String)
  | unknownType (name : String)
  | notACase (record type : String)
  | notExhaustive (type : String) (missing : List String)
  | letrecRequiresProcedures (site : Occurrence)
  | unspecified

end

namespace Ty

def number : Ty := .atom "number"
def boolean : Ty := .atom "boolean"
def string : Ty := .atom "string"
def void : Ty := .atom "void"

/-- The type that every type fits. -/
def any : Ty := .atom "any"

/-- The name of a declared type, of a record, or of a reference to either. -/
def name? : Ty → Option String
  | .named n => some n
  | .record r => some r.name
  | .variant v => some v.name
  | _ => none

/-- Types that go by a declared name. -/
def isNamed (t : Ty) : Bool := t.name?.isSome

/-- Types without parts. -/
def isAtomic : Ty → Bool
  | .atom _ | .quoted => true
  | _ => false

def isVar : Ty → Bool
  | .var _ _ => true
  | _ => false

def isFailure : Ty → Bool
  | .failure _ => true
  | _ => false

end Ty

/-- The types of a record's fields, in order. -/
def Record.fieldTypes (r : Record) : List Ty := r.fields.map (·.type)

/-- The names of a variant's cases, in order. -/
def Variant.recordNames (v : Variant) : List String := v.records.map (·.name)

end VariantScheme
