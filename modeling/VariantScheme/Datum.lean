import VariantScheme.Decimal.Numeral
import VariantScheme.Ty.Basic

/-!
    The data that literals and quotations hold. -/

namespace VariantScheme

/-- A datum. Lists may hold data of any kind. -/
inductive Datum where
  | null
  | bool (b : Bool)
  | int (n : Int)
  | float (x : Float)
  | text (s : String)
  | list (items : List Datum)

namespace Datum

/-- Doubles are written positionally from `0.0001` up to sixteen whole digits. -/
def decimals : Decimal.Layout where
  lowestPositional := -4
  firstScientific := 16
  exponentDigits := 2

/-- The most digits that an integer is written with. -/
def digitLimit : Nat := 4300

/-- An integer in decimal notation, if it has no more digits than the limit. -/
def numeral (n : Int) : Printed :=
  if (Nat.toDigits 10 n.natAbs).length ≤ digitLimit then .ok (toString n) else .error .numeral

mutual

/-- A datum as a list shows its members: texts between apostrophes, lists between brackets. Nothing
    is escaped inside a text, so that one with an apostrophe, a backslash or a line break is shown
    as it is. An integer beyond the limit of digits has no written form, and neither has a list that
    holds one. -/
def inspect : Datum → Printed
  | .null => .ok "None"
  | .bool b => .ok (if b then "True" else "False")
  | .int n => numeral n
  | .float x => .ok (decimals.text x)
  | .text s => .ok ("'" ++ s ++ "'")
  | .list items => do return "[" ++ ", ".intercalate (← inspectEach items) ++ "]"

def inspectEach : List Datum → Except Unprintable (List String)
  | [] => .ok []
  | d :: ds => do
      let first ← d.inspect
      let rest ← inspectEach ds
      return first :: rest

end

/-- A datum as a literal expression. -/
def asLiteral : Datum → Printed
  | .bool b => .ok (if b then "#t" else "#f")
  | .text s => .ok ("\"" ++ s ++ "\"")
  | d => d.inspect

mutual

/-- A datum under a quotation: lists between parentheses, texts as they are. -/
def asQuoted : Datum → Printed
  | .text s => .ok s
  | .list items => do return "(" ++ " ".intercalate (← asQuotedEach items) ++ ")"
  | .null => inspect .null
  | .bool b => inspect (.bool b)
  | .int n => inspect (.int n)
  | .float x => inspect (.float x)

def asQuotedEach : List Datum → Except Unprintable (List String)
  | [] => .ok []
  | d :: ds => do
      let first ← d.asQuoted
      let rest ← asQuotedEach ds
      return first :: rest

end

/-- The type of a literal. A null and a list have none. -/
def type? : Datum → Option Ty
  | .bool _ => some .boolean
  | .int _ | .float _ => some .number
  | .text _ => some .string
  | .null | .list _ => none

end Datum

end VariantScheme
