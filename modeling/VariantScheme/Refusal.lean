import VariantScheme.Phrase.Unparse

/-!
    Requests that are refused outright: they are not about the program being ill typed, but about
    something that was never a well-formed request. -/

namespace VariantScheme

/-- Why a request is refused. -/
inductive Refusal where
  | emptyBody
  | notAnExpression (p : Phrase)
  | notAVariant (t : Ty)
  | noParamType (t : Ty)
  | notRecords (members : List Ty)
  | noLiteralType (text : String)
  | notAFailure (t : Ty)
  | unequalLengths (names types : Nat)
  | noRule (p : Phrase)
  | noAncestry (t : Ty)
  | noExplanation
  | noCatalog
  | noFrame
  | nameless (t : Ty)
  | unprintable (notion : Unprintable)
  | tooManyIssues
  | issuesRemain (outcry : String)

/-- The refusal of a literal that has no type. It quotes the datum, if that can be written down. -/
def Refusal.untyped (value : Datum) : Refusal :=
  match value.inspect with
  | .ok text => .noLiteralType text
  | .error u => .unprintable u

/-- The words that come with a refusal. There are none when they would quote something that has no
    written form, or when the kind of the refusal says it all. -/
def Refusal.message? : Refusal → Option String
  | .emptyBody => some "A body must contain at least one expression."
  | .notAnExpression p => p.unparse.toOption
  | .notAVariant t | .noParamType t | .notAFailure t => t.summary.toOption
  | .notRecords members =>
      (members.mapM Ty.summary).toOption.map fun texts => "[" ++ ", ".intercalate texts ++ "]"
  | .noLiteralType text => some ("No literal type for " ++ text)
  | .unequalLengths names types =>
      some ("Cannot bind " ++ toString names ++ " names to " ++ toString types ++ " types.")
  | .issuesRemain outcry => some outcry
  | .noRule _ | .noAncestry _ | .noExplanation | .noCatalog | .noFrame | .nameless _
  | .unprintable _ | .tooManyIssues => none

end VariantScheme
