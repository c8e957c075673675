import VariantScheme.Datum

/-!
    The phrases of the language. Every annotation is part of the phrase, as a type.

    Each node carries an identity of its own: the same text at two places is two occurrences, and
    the type variables of a generic operator are told apart by occurrence. A body is a sequence of
    phrases that is never empty, so its last member, which gives the body its type, stands apart. -/

namespace VariantScheme

/-- A variable with its declared type. -/
structure Param where
  name : String
  type : Ty

/-- The bindings that parameters make. -/
def Param.entries (params : List Param) : List (String × Ty) :=
  params.map fun p => (p.name, p.type)

mutual

/-- A parameter with the value it is bound to. -/
structure Binding where
  id : Nat
  param : Param
  value : Phrase

/-- One arm of a case analysis: the record it matches, names for its fields, and a body. -/
structure Arm where
  id : Nat
  record : String
  pattern : List String
  body : Body

/-- A non-empty sequence: what comes first, and the member that counts. -/
structure Body where
  init : List Phrase
  last : Phrase

/-- A phrase. The first thirteen forms are expressions; parameters, bindings, arms and programs
    are phrases only. The last two have no form at all. -/
inductive Phrase where
  | literal (id : Nat) (value : Datum)
  | quotation (id : Nat) (datum : Datum)
  | operator (id : Nat) (name : String)
  | variable (id : Nat) (name : String)
  | cond (id : Nat) (test thenPart elsePart : Phrase)
  | lambda (id : Nat) (params : List Param) (result : Ty) (body : Body)
  | call (id : Nat) (fn : Phrase) (args : List Phrase)
  | letIn (id : Nat) (bindings : List Binding) (body : Body)
  | letrec (id : Nat) (bindings : List Binding) (body : Body)
  | define (id : Nat) (param : Param) (value : Phrase)
  | assign (id : Nat) (name : String) (value : Phrase)
  | defineType (id : Nat) (declared : Variant)
  | typeCase (id : Nat) (type : String) (subject : Phrase) (arms : List Arm)
  | param (id : Nat) (declared : Param)
  | binding (b : Binding)
  | arm (a : Arm)
  | program (id : Nat) (body : Body)
  | formless (id : Nat)
  | formlessExpression (id : Nat)

end

/-- A program is a body: its top-level expressions, in order. -/
abbrev Program := Body

/-- The members of a body, in order. -/
def Body.toList (b : Body) : List Phrase := b.init ++ [b.last]

/-- The identity of a node. -/
def Phrase.id : Phrase → Nat
  | .literal i _ | .quotation i _ | .operator i _ | .variable i _ | .cond i _ _ _
  | .lambda i _ _ _ | .call i _ _ | .letIn i _ _ | .letrec i _ _ | .define i _ _ | .assign i _ _
  | .defineType i _ | .typeCase i _ _ _ | .param i _ | .program i _ | .formless i
  | .formlessExpression i => i
  | .binding b => b.id
  | .arm a => a.id

/-- Phrases that can stand in a body. -/
def Phrase.isExpression : Phrase → Bool
  | .param .. | .binding _ | .arm _ | .program .. | .formless _ => false
  | _ => true

/-- The variable that a top-level or internal definition introduces. -/
def Phrase.definition? : Phrase → Option Param
  | .define _ p _ => some p
  | _ => none

/-- The variant that a phrase declares. -/
def Phrase.declaration? : Phrase → Option Variant
  | .defineType _ v => some v
  | _ => none

/-- The type that a lambda announces, whatever its body. -/
def Phrase.header? : Phrase → Option Ty
  | .lambda _ params result _ => some (.proc (params.map (·.type)) result)
  | _ => none

end VariantScheme
