import VariantScheme.Ty.Basic

/-!
    How types and failures read. A procedure type is written with its parameters between stars,
    `(number * number -> boolean)`, or with `Empty` when it takes none; everything with a name is
    written as its name. -/

namespace VariantScheme

/-- The kind of a failure, as reports name it. -/
def Failure.label : Failure → String
  | .unboundVariable _ => "UnboundVariable"
  | .notFound _ => "NotFound"
  | .unknownPrimitive _ => "UnknownPrimitive"
  | .incompatible .. => "IncompatibleTypes"
  | .notAProcedure .. => "NotAProcedure"
  | .arityMismatch .. => "ArityMismatch"
  | .noCommonType _ => "NoCommonType"
  | .recordMismatch _ => "RecordMismatch"
  | .noBaseCase _ => "NoBaseCase"
  | .duplicateCase _ => "DuplicateCase"
  | .unknownRecord _ => "UnknownRecord"
  | .unknownType _ => "UnknownType"
  | .notACase .. => "NotACase"
  | .notExhaustive .. => "NotExhaustive"
  | .letrecRequiresProcedures _ => "LetrecRequiresProcedures"
  | .unspecified => "Failure"

mutual

/-- The written form of a type. -/
def Ty.render : Ty → Printed
  | .atom n => .ok n
  | .quoted => .ok "literal"
  | .var n _ => .ok n
  | .proc ps r => do
      let params ← Ty.renderEach ps
      let result ← r.render
      let source := if params.isEmpty then "Empty" else " * ".intercalate params
      return "(" ++ source ++ " -> " ++ result ++ ")"
  | .named n => .ok n
  | .record r => .ok r.name
  | .variant v => .ok v.name
  | .failure f => do return "<Error: " ++ (← f.describe) ++ ">"
  | .bare _ => .error .type

/-- The written forms of several types, in order. -/
def Ty.renderEach : List Ty → Except Unprintable (List String)
  | [] => .ok []
  | t :: ts => do
      let first ← t.render
      let rest ← Ty.renderEach ts
      return first :: rest

/-- A failure in one line. -/
def Failure.describe : Failure → Printed
  | .unboundVariable n => .ok ("Unbound variable: " ++ n)
  | .notFound n => .ok (n ++ " not found")
  | .unknownPrimitive n => .ok ("Primitive not yet implemented: " ++ n)
  | .incompatible computed expected site => do
      let c ← computed.render
      let e ← expected.render
      return "Incompatible types: " ++ c ++ " and " ++ e ++ " in " ++ (← site.text)
  | .notAProcedure type site => do
      let t ← type.render
      return "Application of non-procedure: " ++ t ++ " in " ++ (← site.text)
  | .arityMismatch site need got => do
      return "Wrong number of parameters (need " ++ toString need ++ ", got " ++ toString got
        ++ "): " ++ (← site.text)
  | .noCommonType types => do
      return "No type found to cover " ++ " ".intercalate (← Ty.renderEach types)
  | .recordMismatch n => .ok ("Declarations of " ++ n ++ " do not match")
  | .noBaseCase t => .ok ("Recursive type " ++ t ++ " has no base case")
  | .duplicateCase r => .ok ("More than one clause for " ++ r)
  | .unknownRecord n => .ok ("No record is called " ++ n)
  | .unknownType n => .ok ("No user-defined type is called " ++ n)
  | .notACase r t => .ok (r ++ " is not a case of " ++ t)
  | .notExhaustive t missing =>
      .ok ("Type-case over " ++ t ++ " lacks clauses for " ++ ", ".intercalate missing)
  | .letrecRequiresProcedures site => do
      return "letrec only supports binding procedures: " ++ (← site.text)
  | .unspecified => .error .failure

end

/-- A failure by its kind and its description. -/
def Failure.summary (f : Failure) : Printed := do
  return "<" ++ f.label ++ ": " ++ (← f.describe) ++ ">"

/-- A type as rendered, a failure by its summary. -/
def Ty.summary : Ty → Printed
  | .failure f => f.summary
  | t => t.render

end VariantScheme
