import VariantScheme.Checker
import VariantScheme.Report

/-!
    Checking with a report at hand. Here a failure is a judgement like any type. The rule that
    detects one enters it in the report, and every rule around that one hands it up as it is: each
    judgement is looked at before anything else is done, and a failure ends the rule. A sequence of
    expressions is gone through in one way, whether it is a body or a whole program; only at the top
    level is each expression announced in the log before it is checked.

    `check` finds the same judgements without a report; there, a failure ends the whole check. -/

namespace VariantScheme

/-- What a check writes to. -/
structure Journal where
  log : String
  report : Report

/-- A step of a check, which may write to the journal. What was written before a refusal stays. -/
def Reporting (α : Type) : Type := Journal → Except Refusal α × Journal

namespace Reporting

instance : Monad Reporting where
  pure a := fun j => (.ok a, j)
  bind x f := fun j =>
    match x j with
    | (.ok a, later) => f a later
    | (.error e, later) => (.error e, later)

/-- A step that writes nothing, and may refuse. -/
def ofExcept {α : Type} (x : Except Refusal α) : Reporting α := fun j => (x, j)

/-- Goes on with the judgement of a step, unless that is a failure: then it is handed up. -/
def proceed (x : Reporting Ty) (next : Ty → Reporting Ty) : Reporting Ty := do
  let t ← x
  if t.isFailure then return t else next t

/-- Enters a failure in the report and gives it as the judgement. -/
def fail (f : Failure) : Reporting Ty := fun j =>
  let (outcome, entered) := j.report.fail f
  (outcome.map fun _ => .failure f, { j with report := entered })

/-- Gives a judgement. If it is a failure, this is where that is detected. -/
def judge : Ty → Reporting Ty
  | .failure f => fail f
  | t => pure t

/-- Enters a failure if there is one. -/
def failAny : Option Failure → Reporting Ty
  | some f => fail f
  | none => pure .void

/-- Writes a line to the log, if the report keeps one. -/
def note (items : List Printed) : Reporting Unit := fun j =>
  let (line, outcome) := j.report.note items
  (outcome, { j with log := j.log ++ line })

/-- Announces a phrase of the top level. -/
def announce (topLevel : Bool) (p : Phrase) : Reporting Unit :=
  if topLevel then note [.ok "Type-Check", p.unparse] else pure ()

end Reporting

open Reporting

namespace Checker

/-- The catalog, for the rules that need it. -/
def consult (c : Checker) : Reporting Catalog :=
  match c.catalog? with
  | some k => pure k
  | none => ofExcept (.error .noCatalog)

/-- The declared type, which the computed one has to fit. -/
def require (c : Checker) (computed declared : Ty) (site : Phrase) : Reporting Ty := do
  let k ← c.consult
  judge (k.compatible computed declared site)

/-- The most specific type above all the given ones. -/
def cover (c : Checker) (types : List Ty) : Reporting Ty := do
  let k ← c.consult
  judge (← ofExcept (k.join types))

/-- Each header has to fit the type declared for its name. -/
def requireHeaders (c : Checker) : List Binding → List Ty → Reporting Ty
  | b :: bs, header :: rest =>
      (c.require header b.param.type (.binding b)).proceed fun _ => c.requireHeaders bs rest
  | _, _ => pure .void

mutual

/-- The judgement on a phrase in an environment. -/
def visit (c : Checker) : Phrase → Env → Reporting Ty
  | .literal _ value, _ =>
      match value.type? with
      | some t => pure t
      | none => ofExcept (.error (.untyped value))
  | .quotation _ _, _ => pure .quoted
  | .operator i op, _ =>
      match Operator.signature? op (.node (Phrase.operator i op).occurrence) with
      | some t => pure t
      | none => fail (.unknownPrimitive op)
  | .variable _ name, env => judge (env.lookup name)
  | .cond i test thenPart elsePart, env =>
      (c.visit test env).proceed fun t =>
      (c.require t .boolean test).proceed fun _ =>
      (c.visit thenPart env).proceed fun a =>
      (c.visit elsePart env).proceed fun b => do
        let k ← c.consult
        -- a probe: that one branch does not fit the other is no failure yet, and is not reported
        let probe := k.compatible a b (.cond i test thenPart elsePart)
        if probe.isFailure then c.cover [a, b] else return b
  | .lambda i params result body, env =>
      (c.visitBody false body (env.bind (Param.entries params))).proceed fun t =>
      (c.require t result (.lambda i params result body)).proceed fun _ =>
      pure (.proc (params.map (·.type)) result)
  | .call i fn args, env =>
      (c.visit fn env).proceed fun
      | .proc params result =>
          if params.length ≠ args.length then
            fail (.arityMismatch (Phrase.call i fn args).occurrence params.length args.length)
          else
            (c.visitArgs args params env).proceed fun _ => pure result
      | t => fail (.notAProcedure t (Phrase.call i fn args).occurrence)
  | .letIn _ bindings body, env =>
      (c.visitBindings bindings env).proceed fun _ =>
      c.visitBody false body (env.bind (Param.entries (bindings.map (·.param))))
  | .letrec _ bindings body, env =>
      match bindings.find? fun b => b.value.header?.isNone with
      | some b => fail (.letrecRequiresProcedures (Phrase.binding b).occurrence)
      | none =>
          let headers := bindings.filterMap (·.value.header?)
          (c.requireHeaders bindings headers).proceed fun _ => do
          let inner ← ofExcept (env.extend (bindings.map (·.param.name)) headers)
          (c.visitValues bindings inner).proceed fun _ => c.visitBody false body inner
  | .define i param value, env =>
      (c.visit value (env.bind (Param.entries [param]))).proceed fun t =>
      (c.require t param.type (.define i param value)).proceed fun _ => pure .void
  | .assign i name value, env =>
      (c.visit value env).proceed fun t =>
      (judge (env.lookup name)).proceed fun target =>
        if c.lenient then pure (.var name .unplaced)
        else (c.require t target (.assign i name value)).proceed fun _ => pure .void
  | .defineType _ _, _ => do
      let k ← c.consult
      failAny k.declarationFault?
  | .typeCase _ type subject arms, env =>
      if c.lenient then c.visitArms arms env []
      else do
        let k ← c.consult
        (failAny (k.caseFault? type arms)).proceed fun _ =>
          (c.visit subject env).proceed fun t =>
          (c.require t (.named type) subject).proceed fun _ => c.visitArms arms env []
  | .param i declared, _ => ofExcept (.error (.noRule (.param i declared)))
  | .binding b, _ => ofExcept (.error (.noRule (.binding b)))
  | .arm a, _ => ofExcept (.error (.noRule (.arm a)))
  | .program i body, _ => ofExcept (.error (.noRule (.program i body)))
  | .formless i, _ => ofExcept (.error (.noRule (.formless i)))
  | .formlessExpression i, _ => ofExcept (.error (.noRule (.formlessExpression i)))

/-- The judgement on a sequence is that on its last member. -/
def visitBody (c : Checker) (topLevel : Bool) : Body → Env → Reporting Ty
  | ⟨init, last⟩, env =>
      (c.visitInit topLevel init env).proceed fun _ => do
      announce topLevel last
      c.visit last (scopeAfter init env)

/-- The first members of a sequence, each in the scope that those before it leave. -/
def visitInit (c : Checker) (topLevel : Bool) : List Phrase → Env → Reporting Ty
  | [], _ => pure .void
  | p :: ps, env => do
      announce topLevel p
      (c.visit p env).proceed fun _ => c.visitInit topLevel ps (p.scope env)

/-- Arguments against parameters, from left to right. A generic slot takes anything. -/
def visitArgs (c : Checker) : List Phrase → List Ty → Env → Reporting Ty
  | arg :: args, param :: params, env =>
      (c.visit arg env).proceed fun t =>
        if param.isVar then c.visitArgs args params env
        else (c.require t param arg).proceed fun _ => c.visitArgs args params env
  | _, _, _ => pure .void

/-- The values of a `let` against the types declared for them; they cannot see one another. -/
def visitBindings (c : Checker) : List Binding → Env → Reporting Ty
  | [], _ => pure .void
  | ⟨i, param, value⟩ :: bs, env =>
      (c.visit value env).proceed fun t =>
      (c.require t param.type (.binding ⟨i, param, value⟩)).proceed fun _ => c.visitBindings bs env

/-- The values of a `letrec`, whose names are all in scope. -/
def visitValues (c : Checker) : List Binding → Env → Reporting Ty
  | [], _ => pure .void
  | ⟨_, _, value⟩ :: bs, env =>
      (c.visit value env).proceed fun _ => c.visitValues bs env

/-- The judgement on an arm is that on its body, with names for the fields of its record. -/
def visitArm (c : Checker) : Arm → Env → Reporting Ty
  | ⟨i, record, pattern, body⟩, env => do
      let k ← c.consult
      match k.record? record with
      | none => fail (.unknownRecord record)
      | some r =>
          if pattern.length ≠ r.fields.length then
            fail (.arityMismatch (Phrase.arm ⟨i, record, pattern, body⟩).occurrence
              r.fields.length pattern.length)
          else do
            let inner ← ofExcept (env.extend pattern r.fieldTypes)
            c.visitBody false body inner

/-- The cover of the arms' types, where `types` are those of the arms before. -/
def visitArms (c : Checker) : List Arm → Env → List Ty → Reporting Ty
  | [], _, types => c.cover types
  | a :: arms, env, types =>
      (c.visitArm a env).proceed fun t => c.visitArms arms env (types ++ [t])

end

end Checker

/-- A check as the report saw it: what was logged, the verdict, and the report afterwards. -/
structure Run where
  log : String
  verdict : Except Refusal Ty
  report : Report

/-- What a check comes to, when it is given the report. -/
def Reporting.run (x : Reporting Ty) (r : Report) : Run :=
  let (verdict, journal) := x ⟨"", r⟩
  ⟨journal.log, verdict, journal.report⟩

namespace Checker

/-- The check of a phrase, entered in a report. -/
def runPhrase (c : Checker) (r : Report) (p : Phrase) (env : Env) : Run := (c.visit p env).run r

/-- The check of a program in its own global environment, entered in a report. -/
def runProgram (c : Checker) (r : Report) (program : Program) : Run :=
  let k := program.catalog
  ({ c with catalog? := some k }.visitBody true program k.globals).run r

end Checker

/-- The type of an expression in an environment, in the context of a program. -/
def typeOfExpression (e : Phrase) (env : Env) (program : Program) (r : Report) (lenient : Bool) :
    Run :=
  Checker.runPhrase ⟨lenient, some program.catalog⟩ r e env

/-- The type of a program is that of its last top-level expression. -/
def typeOfProgram (program : Program) (r : Report) (lenient : Bool) : Run :=
  Checker.runProgram ⟨lenient, none⟩ r program

/-- What can be asked for: the type of a program, or that of an expression in an environment and in
    the context of a program. Each request says how to check. -/
inductive Request where
  | program (program : Program) (lenient : Bool)
  | expression (e : Phrase) (env : Env) (program : Program) (lenient : Bool)

/-- The check that is asked for, entered in a report. -/
def Request.run (r : Report) : Request → Run
  | .program p lenient => typeOfProgram p r lenient
  | .expression e env p lenient => typeOfExpression e env p r lenient

end VariantScheme
