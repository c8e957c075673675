import VariantScheme.Ty.Basic

/-!
    The primitive operators and their signatures. A generic operator has type variables for
    parameters, qualified by the place where it is used: two uses never share their variables. -/

namespace VariantScheme.Operator

/-- Operators with one signature wherever they are used. -/
def fixed? (op : String) : Option Ty :=
  if op ∈ ["+", "-", "*", "/"] then some (.proc [.number, .number] .number)
  else if op ∈ [">", "<", "="] then some (.proc [.number, .number] .boolean)
  else if op ∈ ["and", "or"] then some (.proc [.boolean, .boolean] .boolean)
  else if op = "not" then some (.proc [.boolean] .boolean)
  else if op = "newline" then some (.proc [] .void)
  else none

/-- Operators that take anything: the names of their parameters, and the result. -/
def generic? (op : String) : Option (List String × Ty) :=
  if op ∈ ["number?", "boolean?", "string?", "list?", "pair?", "symbol?"] then
    some (["T"], .boolean)
  else if op ∈ ["eq?", "string=?"] then some (["T1", "T2"], .boolean)
  else if op = "display" then some (["T"], .void)
  else none

/-- The signature of one use of an operator. -/
def signature? (op : String) (site : Site) : Option Ty :=
  match fixed? op, generic? op with
  | some t, _ => some t
  | none, some (params, result) => some (.proc (params.map fun p => .var p site) result)
  | none, none => none

end VariantScheme.Operator
