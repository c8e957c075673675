import VariantScheme.Phrase.Basic
import VariantScheme.Ty.Render

/-!
    Concrete syntax. The text of a phrase is put together from the texts of its parts, from left to
    right; when a part has no written form, neither has the whole, and the first such part says
    why. -/

namespace VariantScheme

/-- Items with single spaces between them. -/
def spaced (items : List String) : String := " ".intercalate items

/-- A name with its type, as in `(x : number)`. -/
def annotated (name : String) (type : Ty) : Printed := do
  return "(" ++ name ++ " : " ++ (← type.render) ++ ")"

def Param.unparse (p : Param) : Printed := annotated p.name p.type

/-- A record as a case of a type declaration. -/
def Record.unparse (r : Record) : Printed := do
  let fields ← r.fields.mapM fun f => annotated f.name f.type
  return "(" ++ spaced (r.name :: fields) ++ ")"

mutual

/-- The text of a phrase. -/
def Phrase.unparse : Phrase → Printed
  | .literal _ value => value.asLiteral
  | .quotation _ datum => do return "'" ++ (← datum.asQuoted)
  | .operator _ name => .ok name
  | .variable _ name => .ok name
  | .cond _ test thenPart elsePart => do
      let c ← test.unparse
      let a ← thenPart.unparse
      let b ← elsePart.unparse
      return "(if " ++ spaced [c, a, b] ++ ")"
  | .lambda _ params result body => do
      let ps ← params.mapM Param.unparse
      let r ← result.render
      let b ← body.unparse
      return "(lambda (" ++ spaced ps ++ ") : " ++ r ++ " " ++ spaced b ++ ")"
  | .call _ fn args => do
      let f ← fn.unparse
      let xs ← Phrase.unparseEach args
      return "(" ++ spaced (f :: xs) ++ ")"
  | .letIn _ bindings body => do
      let bs ← Binding.unparseEach bindings
      let b ← body.unparse
      return "(let (" ++ spaced bs ++ ") " ++ spaced b ++ ")"
  | .letrec _ bindings body => do
      let bs ← Binding.unparseEach bindings
      let b ← body.unparse
      return "(letrec (" ++ spaced bs ++ ") " ++ spaced b ++ ")"
  | .define _ param value => do
      let p ← param.unparse
      let v ← value.unparse
      return "(define " ++ p ++ " " ++ v ++ ")"
  | .assign _ name value => do
      return "(set! " ++ name ++ " " ++ (← value.unparse) ++ ")"
  | .defineType _ declared => do
      let cases ← declared.records.mapM Record.unparse
      return "(define-type " ++ declared.name ++ " " ++ spaced cases ++ ")"
  | .typeCase _ type subject arms => do
      let s ← subject.unparse
      let clauses ← Arm.unparseEach arms
      return "(type-case " ++ type ++ " " ++ s ++ " " ++ spaced clauses ++ ")"
  | .param _ declared => declared.unparse
  | .binding b => b.unparse
  | .arm a => a.unparse
  | .program _ body => do return "\n".intercalate (← body.unparse)
  | .formless _ => .error .phrase
  | .formlessExpression _ => .error .expression

def Phrase.unparseEach : List Phrase → Except Unprintable (List String)
  | [] => .ok []
  | p :: ps => do
      let first ← p.unparse
      let rest ← Phrase.unparseEach ps
      return first :: rest

/-- The texts of a body's members. -/
def Body.unparse : Body → Except Unprintable (List String)
  | ⟨init, last⟩ => do
      let first ← Phrase.unparseEach init
      let final ← last.unparse
      return first ++ [final]

def Binding.unparse : Binding → Printed
  | ⟨_, param, value⟩ => do
      let p ← param.unparse
      let v ← value.unparse
      return "(" ++ p ++ " " ++ v ++ ")"

def Binding.unparseEach : List Binding → Except Unprintable (List String)
  | [] => .ok []
  | b :: bs => do
      let first ← b.unparse
      let rest ← Binding.unparseEach bs
      return first :: rest

def Arm.unparse : Arm → Printed
  | ⟨_, record, pattern, body⟩ => do
      let b ← body.unparse
      return "(" ++ record ++ " (" ++ spaced pattern ++ ") " ++ spaced b ++ ")"

def Arm.unparseEach : List Arm → Except Unprintable (List String)
  | [] => .ok []
  | a :: as => do
      let first ← a.unparse
      let rest ← Arm.unparseEach as
      return first :: rest

end

/-- A phrase as a place in the code. -/
def Phrase.occurrence (p : Phrase) : Occurrence := ⟨p.id, p.unparse⟩

end VariantScheme
