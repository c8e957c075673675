import VariantScheme.Refusal

/-!
    Putting phrases together from parts that may not fit: a body needs at least one member and only
    expressions, an annotation has to be a type, and a type declaration has to declare a variant
    made of records. -/

namespace VariantScheme

/-- A body of the given members. The first member that is no expression is refused. -/
def Body.ofList (members : List Phrase) : Except Refusal Body :=
  match members.getLast?, members.find? (fun p => !p.isExpression) with
  | none, _ => .error .emptyBody
  | some _, some p => .error (.notAnExpression p)
  | some last, none => .ok ⟨members.dropLast, last⟩

/-- A parameter. A failure is no annotation, and neither is a type of no kind. -/
def Param.of (name : String) : Ty → Except Refusal Param
  | .failure f => .error (.noParamType (.failure f))
  | .bare i => .error (.noParamType (.bare i))
  | t => .ok ⟨name, t⟩

/-- The record that a type is, if it is one. -/
def Ty.record? : Ty → Option Record
  | .record r => some r
  | _ => none

/-- A variant whose cases are the given members, all of which have to be records. -/
def Variant.of (name : String) (members : List Ty) : Except Refusal Variant :=
  match members.mapM Ty.record? with
  | some records => .ok ⟨name, records⟩
  | none => .error (.notRecords members)

/-- The declaration of a type, which has to be a variant. -/
def Phrase.declare (id : Nat) : Ty → Except Refusal Phrase
  | .variant v => .ok (.defineType id v)
  | t => .error (.notAVariant t)

end VariantScheme
