import VariantScheme.Catalog.Ancestry
import VariantScheme.Catalog.CaseAnalysis
import VariantScheme.Catalog.Declarations
import VariantScheme.Operator

/-!
    The type of an expression. Every annotation is given, so nothing is inferred: each rule works
    out the type of a form from the types of its parts, and holds those against what the program
    declares. The first failure met is the verdict, and nothing is looked at after it. -/

namespace VariantScheme

/-- Why a check ended without an honest type. A failure is `failed` where a rule detects it, and
    `inherited` when it stood as the declared result of a procedure that is called. -/
inductive Halt where
  | failed (f : Failure)
  | inherited (f : Failure)
  | refused (r : Refusal)

/-- How to check. A lenient check takes case analyses on trust, and gives an assignment a type
    variable named for its target. Some rules need the catalog of a program. -/
structure Checker where
  lenient : Bool
  catalog? : Option Catalog

/-- An honest type; a failure in its place is detected here. -/
def detect : Ty → Except Halt Ty
  | .failure f => .error (.failed f)
  | t => .ok t

/-- An honest type; a failure in its place was there before. -/
def inherit : Ty → Except Halt Ty
  | .failure f => .error (.inherited f)
  | t => .ok t

/-- The scope of what follows a phrase in a sequence: a definition is visible from there on. -/
def Phrase.scope (p : Phrase) (env : Env) : Env :=
  match p.definition? with
  | some new => env.bind (Param.entries [new])
  | none => env

/-- The scope of what follows several phrases. -/
def scopeAfter (phrases : List Phrase) (env : Env) : Env :=
  phrases.foldl (fun inner p => p.scope inner) env

namespace Checker

/-- The catalog, for the rules that need it. -/
def catalog (c : Checker) : Except Halt Catalog :=
  match c.catalog? with
  | some k => .ok k
  | none => .error (.refused .noCatalog)

/-- The computed type has to fit the declared one. -/
def expect (c : Checker) (computed declared : Ty) (site : Phrase) : Except Halt Unit := do
  let k ← c.catalog
  let _ ← detect (k.compatible computed declared site)

/-- An argument has to fit its parameter. A type variable, the slot of a generic operator, takes
    anything. -/
def expectArg (c : Checker) (computed param : Ty) (arg : Phrase) : Except Halt Unit :=
  if param.isVar then .ok () else c.expect computed param arg

/-- The most specific type above all the given ones. -/
def join (c : Checker) (types : List Ty) : Except Halt Ty := do
  let k ← c.catalog
  detect (← (k.join types).mapError .refused)

/-- The type of an `if` from the types of its branches. -/
def branches (c : Checker) (thenType elseType : Ty) : Except Halt Ty := do
  let k ← c.catalog
  if k.fits thenType elseType then return elseType
  else c.join [thenType, elseType]

/-- The headers that a `letrec` binds its names to. Each value has to be a lambda. -/
def headers : List Binding → Except Halt (List Ty)
  | [] => .ok []
  | b :: bs =>
      match b.value.header? with
      | none => .error (.failed (.letrecRequiresProcedures (Phrase.binding b).occurrence))
      | some header => do return header :: (← headers bs)

/-- Each header has to fit the type declared for its name. -/
def expectHeaders (c : Checker) : List Binding → List Ty → Except Halt Unit
  | b :: bs, header :: rest => do
      c.expect header b.param.type (.binding b)
      c.expectHeaders bs rest
  | _, _ => .ok ()

/-- The types of the fields that an arm names. -/
def armFields (c : Checker) (arm : Arm) : Except Halt (List Ty) := do
  let k ← c.catalog
  match k.record? arm.record with
  | none => .error (.failed (.unknownRecord arm.record))
  | some r =>
      if arm.pattern.length ≠ r.fields.length then
        .error (.failed (.arityMismatch (Phrase.arm arm).occurrence
          r.fields.length arm.pattern.length))
      else return r.fieldTypes

/-- A case analysis has to be without fault. -/
def expectCases (c : Checker) (type : String) (arms : List Arm) : Except Halt Unit := do
  let k ← c.catalog
  match k.caseFault? type arms with
  | some f => .error (.failed f)
  | none => return ()

/-- The declarations of the program have to be without fault. -/
def expectDeclarations (c : Checker) : Except Halt Unit := do
  let k ← c.catalog
  match k.declarationFault? with
  | some f => .error (.failed f)
  | none => return ()

/-- The scope of names that stand for the given types, which have to be equally many. -/
def enter (env : Env) (names : List String) (types : List Ty) : Except Halt Env :=
  (env.extend names types).mapError .refused

mutual

/-- The type of a phrase in an environment. -/
def check (c : Checker) : Phrase → Env → Except Halt Ty
  | .literal _ value, _ =>
      match value.type? with
      | some t => .ok t
      | none => .error (.refused (.untyped value))
  | .quotation _ _, _ => .ok .quoted
  | .operator i op, _ =>
      match Operator.signature? op (.node (Phrase.operator i op).occurrence) with
      | some t => .ok t
      | none => .error (.failed (.unknownPrimitive op))
  | .variable _ name, env => detect (env.lookup name)
  | .cond _ test thenPart elsePart, env => do
      let t ← c.check test env
      c.expect t .boolean test
      let a ← c.check thenPart env
      let b ← c.check elsePart env
      c.branches a b
  | .lambda i params result body, env => do
      let t ← c.checkBody body (env.bind (Param.entries params))
      c.expect t result (.lambda i params result body)
      return .proc (params.map (·.type)) result
  | .call i fn args, env => do
      match ← c.check fn env with
      | .proc params result =>
          if params.length ≠ args.length then
            .error (.failed (.arityMismatch (Phrase.call i fn args).occurrence
              params.length args.length))
          else do
            c.checkArgs args params env
            inherit result
      | t => .error (.failed (.notAProcedure t (Phrase.call i fn args).occurrence))
  | .letIn _ bindings body, env => do
      c.checkBindings bindings env
      c.checkBody body (env.bind (Param.entries (bindings.map (·.param))))
  | .letrec _ bindings body, env => do
      let hs ← headers bindings
      c.expectHeaders bindings hs
      let inner ← enter env (bindings.map (·.param.name)) hs
      c.checkValues bindings inner
      c.checkBody body inner
  | .define i param value, env => do
      let t ← c.check value (env.bind (Param.entries [param]))
      c.expect t param.type (.define i param value)
      return .void
  | .assign i name value, env => do
      let t ← c.check value env
      let target ← detect (env.lookup name)
      if c.lenient then return .var name .unplaced
      else do
        c.expect t target (.assign i name value)
        return .void
  | .defineType _ _, _ => do
      c.expectDeclarations
      return .void
  | .typeCase _ type subject arms, env => do
      if c.lenient then c.join (← c.checkArms arms env)
      else do
        c.expectCases type arms
        let t ← c.check subject env
        c.expect t (.named type) subject
        c.join (← c.checkArms arms env)
  | .param i declared, _ => .error (.refused (.noRule (.param i declared)))
  | .binding b, _ => .error (.refused (.noRule (.binding b)))
  | .arm a, _ => .error (.refused (.noRule (.arm a)))
  | .program i body, _ => .error (.refused (.noRule (.program i body)))
  | .formless i, _ => .error (.refused (.noRule (.formless i)))
  | .formlessExpression i, _ => .error (.refused (.noRule (.formlessExpression i)))

/-- Each member of a body is checked; the last one gives the type. -/
def checkBody (c : Checker) : Body → Env → Except Halt Ty
  | ⟨init, last⟩, env => do
      c.checkInit init env
      c.check last (scopeAfter init env)

/-- The first members of a body, each in the scope that those before it leave. -/
def checkInit (c : Checker) : List Phrase → Env → Except Halt Unit
  | [], _ => .ok ()
  | p :: ps, env => do
      let _ ← c.check p env
      c.checkInit ps (p.scope env)

/-- Arguments against parameters, from left to right. -/
def checkArgs (c : Checker) : List Phrase → List Ty → Env → Except Halt Unit
  | arg :: args, param :: params, env => do
      let t ← c.check arg env
      c.expectArg t param arg
      c.checkArgs args params env
  | _, _, _ => .ok ()

/-- The values of a `let` against the types declared for them; they cannot see one another. -/
def checkBindings (c : Checker) : List Binding → Env → Except Halt Unit
  | [], _ => .ok ()
  | ⟨i, param, value⟩ :: bs, env => do
      let t ← c.check value env
      c.expect t param.type (.binding ⟨i, param, value⟩)
      c.checkBindings bs env

/-- The values of a `letrec`, whose names are all in scope. -/
def checkValues (c : Checker) : List Binding → Env → Except Halt Unit
  | [], _ => .ok ()
  | ⟨_, _, value⟩ :: bs, env => do
      let _ ← c.check value env
      c.checkValues bs env

/-- The type of an arm is that of its body, with names for the fields of its record. -/
def checkArm (c : Checker) : Arm → Env → Except Halt Ty
  | ⟨i, record, pattern, body⟩, env => do
      let fields ← c.armFields ⟨i, record, pattern, body⟩
      let inner ← enter env pattern fields
      c.checkBody body inner

/-- The types of the arms, from first to last. -/
def checkArms (c : Checker) : List Arm → Env → Except Halt (List Ty)
  | [], _ => .ok []
  | a :: arms, env => do
      let t ← c.checkArm a env
      return t :: (← c.checkArms arms env)

end

end Checker

end VariantScheme
