import VariantScheme.Proofs.Typing
import VariantScheme.Visit

/-!
    A check with a report at hand comes to what the check without one does. There a failure ends the
    check at once; here it is a judgement, which the rule that detects it enters in the report and
    the rules around it hand up. `Tells` relates a step here to one there: what the one comes to is
    concluded from the other, so that a failure is entered once, however deep it was detected, and
    the probe of a conditional enters nothing. `visit_tells` says this of every phrase, rule by rule
    along the recursion. -/

namespace VariantScheme

/-- What an outcome comes to with a report: a failure that was detected is entered and becomes the
    verdict, and one that stood for a type all along is the verdict as it is. -/
def Report.conclude (r : Report) : Except Halt Ty → Except Refusal Ty × Report
  | .ok t => (.ok t, r)
  | .error (.failed f) => ((r.fail f).1.map fun _ => .failure f, (r.fail f).2)
  | .error (.inherited f) => (.ok (.failure f), r)
  | .error (.refused e) => (.error e, r)

namespace Reporting

/-- Enters what an outcome comes to. -/
def conclude (x : Except Halt Ty) : Reporting Ty := fun j =>
  ((j.report.conclude x).1, { j with report := (j.report.conclude x).2 })

/-- The step `m` is concluded from what `x` comes to, where the judgement `shown a` stands for the
    result `a`. That judgement is never a failure, so the steps after `m` can tell. -/
structure Tells {α : Type} (m : Reporting Ty) (x : Except Halt α) (shown : α → Ty) : Prop where
  eq : m = conclude (x.map shown)
  honest : ∀ a, x = .ok a → (shown a).isFailure = false

variable {α β : Type} {shown : α → Ty} {after : β → Ty}

/-! ### One step and then another -/

theorem bind_of_ok {x : Reporting α} {f : α → Reporting β} {j later : Journal} {a : α}
    (h : x j = (.ok a, later)) : (x >>= f) j = f a later := by
  simp only [bind, h]

theorem bind_of_error {x : Reporting α} {f : α → Reporting β} {j later : Journal} {e : Refusal}
    (h : x j = (.error e, later)) : (x >>= f) j = (.error e, later) := by
  simp only [bind, h]

theorem proceed_bind (x : Reporting α) (f : α → Reporting Ty) (next : Ty → Reporting Ty) :
    (x >>= f).proceed next = x >>= fun a => (f a).proceed next := by
  funext j
  rcases hx : x j with ⟨outcome, later⟩
  cases outcome with
  | error e =>
    rw [bind_of_error hx]
    exact bind_of_error (bind_of_error hx)
  | ok a =>
    rw [bind_of_ok hx]
    simp only [proceed, bind, hx]

/-- Of three steps, a failure of the first ends all. -/
theorem proceed_proceed (m : Reporting Ty) (f next : Ty → Reporting Ty) :
    (m.proceed f).proceed next = m.proceed fun t => (f t).proceed next := by
  show (m >>= fun t => if t.isFailure then pure t else f t).proceed next = _
  rw [proceed_bind]
  refine congrArg (m >>= ·) (funext fun t => ?_)
  by_cases ht : t.isFailure = true
  · have hend : (pure t : Reporting Ty).proceed next = if t.isFailure then pure t else next t := rfl
    rw [if_pos ht, if_pos ht, hend, if_pos ht]
  · rw [if_neg ht, if_neg ht]

/-- A failure is handed up as it is, unless entering it broke the check off. -/
theorem proceed_conclude_error (halt : Halt) (next : Ty → Reporting Ty) :
    (conclude (.error halt)).proceed next = conclude (.error halt) := by
  funext j
  cases halt with
  | failed f =>
    cases hfail : (j.report.fail f).1 with
    | error e =>
      have hm : conclude (.error (.failed f)) j =
          (.error e, { j with report := (j.report.fail f).2 }) := by
        simp [conclude, Report.conclude, Except.map, hfail]
      exact (bind_of_error hm).trans hm.symm
    | ok _ =>
      have hm : conclude (.error (.failed f)) j =
          (.ok (.failure f), { j with report := (j.report.fail f).2 }) := by
        simp [conclude, Report.conclude, Except.map, hfail]
      exact (bind_of_ok hm).trans hm.symm
  | inherited f => rfl
  | refused e => rfl

theorem proceed_conclude_ok {t : Ty} (ht : t.isFailure = false) (next : Ty → Reporting Ty) :
    (conclude (.ok t)).proceed next = next t := by
  have hgo : (conclude (.ok t)).proceed next = if t.isFailure then pure t else next t := rfl
  rw [hgo, if_neg (by simp [ht])]

/-- A failure ends both sides, and after any other outcome both go on. -/
theorem Tells.proceed {m : Reporting Ty} {next : Ty → Reporting Ty} {x : Except Halt α}
    {f : α → Except Halt β} (h : m.Tells x shown)
    (hnext : ∀ a, x = .ok a → (next (shown a)).Tells (f a) after) :
    (m.proceed next).Tells (x >>= f) after := by
  obtain ⟨rfl, honest⟩ := h
  cases x with
  | error halt => exact ⟨proceed_conclude_error halt next, fun _ hb => nomatch hb⟩
  | ok a =>
    have hrest : (next (shown a)).Tells (f a) after := hnext a rfl
    exact ⟨(proceed_conclude_ok (honest a rfl) next).trans hrest.eq, hrest.honest⟩

/-! ### Single steps -/

theorem tells_type {t : Ty} (ht : t.isFailure = false) : (pure t : Reporting Ty).Tells (.ok t) id :=
  ⟨rfl, fun _ hb => Except.ok.inj hb ▸ ht⟩

/-- The end of a loop, which shows no type. -/
theorem tells_done : (pure .void : Reporting Ty).Tells (.ok ()) fun _ => .void :=
  ⟨rfl, fun _ _ => rfl⟩

theorem tells_fail (f : Failure) : (fail f).Tells (.error (.failed f)) shown :=
  ⟨rfl, fun _ hb => nomatch hb⟩

theorem tells_refuse (e : Refusal) :
    (ofExcept (.error e) : Reporting Ty).Tells (.error (.refused e)) shown :=
  ⟨rfl, fun _ hb => nomatch hb⟩

theorem tells_judge (t : Ty) : (judge t).Tells (detect t) id := by
  cases t with
  | failure f => exact tells_fail f
  | _ => exact tells_type rfl

theorem tells_inherit (t : Ty) : (pure t : Reporting Ty).Tells (inherit t) id := by
  cases t with
  | failure f => exact ⟨rfl, fun _ hb => nomatch hb⟩
  | _ => exact tells_type rfl

/-- A step that only ever refuses is the same on both sides. -/
theorem Tells.ofExcept {x : Except Refusal α} {next : α → Reporting Ty} {f : α → Except Halt β}
    (hnext : ∀ a, (next a).Tells (f a) after) :
    (ofExcept x >>= next).Tells (x.mapError .refused >>= f) after := by
  cases x with
  | error e => exact ⟨rfl, fun _ hb => nomatch hb⟩
  | ok a => exact hnext a

end Reporting

open Reporting

namespace Checker

variable {c : Checker} {env : Env}

theorem tells_consult {β : Type} {after : β → Ty} {next : Catalog → Reporting Ty}
    {f : Catalog → Except Halt β} (hnext : ∀ k, (next k).Tells (f k) after) :
    (c.consult >>= next).Tells (c.catalog >>= f) after := by
  rw [consult, catalog]
  cases c.catalog? with
  | none => exact ⟨rfl, fun _ hb => nomatch hb⟩
  | some k => exact hnext k

theorem tells_require (computed declared : Ty) (site : Phrase) :
    (c.require computed declared site).Tells (c.expect computed declared site)
      fun _ => declared := by
  refine tells_consult fun k => ?_
  rw [Catalog.compatible]
  split
  · cases declared with
    | failure f => exact tells_fail f
    | _ => exact ⟨rfl, fun _ _ => rfl⟩
  · exact tells_fail _

theorem tells_cover (types : List Ty) : (c.cover types).Tells (c.join types) id :=
  tells_consult fun _ => .ofExcept tells_judge

/-- The probe enters nothing: it only decides whether a cover is needed. -/
theorem tells_branches (a b : Ty) (hb : b.isFailure = false) (site : Phrase) :
    (c.consult >>= fun k =>
      if (k.compatible a b site).isFailure then c.cover [a, b] else pure b).Tells
      (c.branches a b) id := by
  refine tells_consult fun k => ?_
  rw [Catalog.compatible]
  by_cases hfits : k.fits a b = true
  · rw [if_pos hfits, if_pos hfits, if_neg (by simp [hb])]
    exact tells_type hb
  · rw [if_neg hfits, if_neg hfits, if_pos (by rfl)]
    exact tells_cover [a, b]

theorem tells_failAny {fault? : Option Failure} :
    (failAny fault?).Tells
      (match fault? with
        | some f => .error (.failed f)
        | none => (.ok () : Except Halt Unit)) fun _ => .void := by
  cases fault? with
  | none => exact tells_done
  | some f => exact tells_fail f

theorem tells_requireHeaders : ∀ (bs : List Binding) (hs : List Ty),
    (c.requireHeaders bs hs).Tells (c.expectHeaders bs hs) fun _ => .void
  | [], _ => tells_done
  | _ :: _, [] => tells_done
  | _ :: bs, h :: hs => (tells_require h _ _).proceed fun _ _ => tells_requireHeaders bs hs

/-- The headers come out exactly when there is one for every value. -/
theorem headers_eq (bs : List Binding) : headers bs =
    match bs.find? fun b => b.value.header?.isNone with
    | some b => .error (.failed (.letrecRequiresProcedures (Phrase.binding b).occurrence))
    | none => .ok (bs.filterMap (·.value.header?)) := by
  induction bs with
  | nil => rfl
  | cons b bs ih =>
    rw [headers, ih, List.find?_cons, List.filterMap_cons]
    cases b.value.header? with
    | none => rfl
    | some h => cases bs.find? fun b => b.value.header?.isNone <;> rfl

/-! ### The recursion -/

mutual

/-- The judgement on a phrase is concluded from the check of it. -/
theorem visit_tells : ∀ (p : Phrase) (env : Env), (c.visit p env).Tells (c.check p env) id
  | .literal _ value, env => by
      rw [visit, check]
      cases ht : value.type? with
      | none => exact tells_refuse _
      | some t => exact tells_type (Datum.type?_eq_some_iff.mp ht).isFailure_eq
  | .quotation _ _, env => by
      rw [visit, check]
      exact tells_type rfl
  | .operator i op, env => by
      rw [visit, check]
      cases ht : Operator.signature? op (.node (Phrase.operator i op).occurrence) with
      | none => exact tells_fail _
      | some t =>
        obtain ⟨params, result, rfl, -⟩ := Operator.signature?_shape ht
        exact tells_type (by rfl)
  | .variable _ name, env => by
      rw [visit, check]
      exact tells_judge _
  | .cond i test thenPart elsePart, env => by
      rw [visit, check]
      refine (visit_tells test env).proceed fun t _ => ?_
      refine (tells_require t .boolean test).proceed fun _ _ => ?_
      refine (visit_tells thenPart env).proceed fun a _ => ?_
      refine (visit_tells elsePart env).proceed fun b hb => ?_
      exact tells_branches a b ((visit_tells elsePart env).honest b hb) _
  | .lambda i params result body, env => by
      rw [visit, check]
      refine (visitBody_tells body _).proceed fun t _ => ?_
      refine (tells_require t result _).proceed fun _ _ => ?_
      exact tells_type rfl
  | .call i fn args, env => by
      rw [visit, check]
      refine (visit_tells fn env).proceed fun t _ => ?_
      cases t with
      | proc params result =>
        dsimp only [id]
        split
        · exact tells_fail _
        · exact (visitArgs_tells args params env).proceed fun _ _ => tells_inherit result
      | _ => exact tells_fail _
  | .letIn _ bindings body, env => by
      rw [visit, check]
      exact (visitBindings_tells bindings env).proceed fun _ _ => visitBody_tells body _
  | .letrec _ bindings body, env => by
      rw [visit, check, headers_eq]
      cases bindings.find? fun b => b.value.header?.isNone with
      | some b => exact tells_fail _
      | none =>
        refine (tells_requireHeaders bindings _).proceed fun _ _ => ?_
        refine .ofExcept fun inner => ?_
        exact (visitValues_tells bindings inner).proceed fun _ _ => visitBody_tells body inner
  | .define i param value, env => by
      rw [visit, check]
      refine (visit_tells value _).proceed fun t _ => ?_
      exact (tells_require t param.type _).proceed fun _ _ => tells_type rfl
  | .assign i name value, env => by
      rw [visit, check]
      refine (visit_tells value env).proceed fun t _ => ?_
      refine (tells_judge (env.lookup name)).proceed fun target _ => ?_
      split
      · exact tells_type rfl
      · exact (tells_require t target _).proceed fun _ _ => tells_type rfl
  | .defineType _ _, env => by
      rw [visit, check, expectDeclarations, bind_assoc]
      refine tells_consult fun k => ?_
      cases k.declarationFault? with
      | none => exact tells_type rfl
      | some f => exact tells_fail f
  | .typeCase _ type subject arms, env => by
      rw [visit, check]
      split
      · exact visitArms_tells arms env []
      · rw [expectCases, bind_assoc]
        refine tells_consult fun k => ?_
        refine tells_failAny.proceed fun _ _ => ?_
        refine (visit_tells subject env).proceed fun t _ => ?_
        exact (tells_require t (.named type) subject).proceed fun _ _ => visitArms_tells arms env []
  | .param .., env | .binding _, env | .arm _, env | .program .., env | .formless _, env
  | .formlessExpression _, env => by
      rw [visit, check]
      exact tells_refuse _

theorem visitBody_tells : ∀ (b : Body) (env : Env),
    (c.visitBody false b env).Tells (c.checkBody b env) id
  | ⟨init, last⟩, env => by
      rw [visitBody, checkBody]
      exact (visitInit_tells init env).proceed fun _ _ => visit_tells last _

theorem visitInit_tells : ∀ (ps : List Phrase) (env : Env),
    (c.visitInit false ps env).Tells (c.checkInit ps env) fun _ => .void
  | [], env => by
      rw [visitInit, checkInit]
      exact tells_done
  | p :: ps, env => by
      rw [visitInit, checkInit]
      exact (visit_tells p env).proceed fun _ _ => visitInit_tells ps _

theorem visitArgs_tells : ∀ (args : List Phrase) (params : List Ty) (env : Env),
    (c.visitArgs args params env).Tells (c.checkArgs args params env) fun _ => .void
  | [], _, env => tells_done
  | _ :: _, [], env => tells_done
  | arg :: args, param :: params, env => by
      rw [visitArgs, checkArgs]
      refine (visit_tells arg env).proceed fun t _ => ?_
      rw [expectArg]
      split
      · exact visitArgs_tells args params env
      · exact (tells_require t param arg).proceed fun _ _ => visitArgs_tells args params env

theorem visitBindings_tells : ∀ (bs : List Binding) (env : Env),
    (c.visitBindings bs env).Tells (c.checkBindings bs env) fun _ => .void
  | [], env => by
      rw [visitBindings, checkBindings]
      exact tells_done
  | ⟨i, param, value⟩ :: bs, env => by
      rw [visitBindings, checkBindings]
      refine (visit_tells value env).proceed fun t _ => ?_
      exact (tells_require t param.type _).proceed fun _ _ => visitBindings_tells bs env

theorem visitValues_tells : ∀ (bs : List Binding) (env : Env),
    (c.visitValues bs env).Tells (c.checkValues bs env) fun _ => .void
  | [], env => by
      rw [visitValues, checkValues]
      exact tells_done
  | ⟨i, param, value⟩ :: bs, env => by
      rw [visitValues, checkValues]
      exact (visit_tells value env).proceed fun _ _ => visitValues_tells bs env

theorem visitArm_tells : ∀ (a : Arm) (env : Env), (c.visitArm a env).Tells (c.checkArm a env) id
  | ⟨i, record, pattern, body⟩, env => by
      rw [visitArm, checkArm, armFields, bind_assoc]
      refine tells_consult fun k => ?_
      cases k.record? record with
      | none => exact tells_fail _
      | some r =>
        dsimp only
        split
        · exact tells_fail _
        · exact .ofExcept fun inner => visitBody_tells body inner

/-- The types of the arms before are kept, and the cover is that of all. -/
theorem visitArms_tells : ∀ (arms : List Arm) (env : Env) (types : List Ty),
    (c.visitArms arms env types).Tells
      (c.checkArms arms env >>= fun ts => c.join (types ++ ts)) id
  | [], env, types => by
      rw [visitArms, checkArms]
      show (c.cover types).Tells (c.join (types ++ [])) id
      rw [List.append_nil]
      exact tells_cover types
  | a :: arms, env, types => by
      have hrest := fun t => visitArms_tells arms env (types ++ [t])
      rw [visitArms, checkArms]
      simp only [bind_assoc, pure_bind]
      refine (visitArm_tells a env).proceed fun t _ => ?_
      simpa using hrest t

end

theorem visit_eq (c : Checker) (p : Phrase) (env : Env) :
    c.visit p env = conclude (c.check p env) := by
  have h := (visit_tells (c := c) p env).eq
  rwa [Except.map_id] at h

/-- A check never comes out with a failure for a type, whatever the catalog and the scope: failures
    halt it. -/
theorem isFailure_of_check {p : Phrase} {t : Ty} (h : c.check p env = .ok t) :
    t.isFailure = false :=
  (visit_tells p env).honest t h

theorem isFailure_of_checkBody {b : Body} {t : Ty} (h : c.checkBody b env = .ok t) :
    t.isFailure = false :=
  (visitBody_tells b env).honest t h

/-! ### Top-level expressions -/

/-- The checks of the top-level expressions in turn, each announced first when `verbose`. Gives
    the log and the type of the last expression. -/
def narrate (c : Checker) (r : Report) : List Phrase → Phrase → Env → String × Except Halt Ty
  | [], last, env =>
      match r.note [.ok "Type-Check", last.unparse] with
      | (line, .error e) => (line, .error (.refused e))
      | (line, .ok ()) => (line, c.check last env)
  | p :: ps, last, env =>
      match r.note [.ok "Type-Check", p.unparse] with
      | (line, .error e) => (line, .error (.refused e))
      | (line, .ok ()) =>
          match c.check p env with
          | .error h => (line, .error h)
          | .ok _ =>
              let (rest, outcome) := c.narrate r ps last (p.scope env)
              (line ++ rest, outcome)

theorem announce_of_note {j : Journal} {p : Phrase} {line : String} {outcome : Except Refusal Unit}
    (h : j.report.note [.ok "Type-Check", p.unparse] = (line, outcome)) :
    announce true p j = (outcome, { j with log := j.log ++ line }) := by
  simp [announce, note, h]

/-- The first member of a sequence, and then the others where it is defined. -/
theorem visitBody_cons (c : Checker) (topLevel : Bool) (p : Phrase) (ps : List Phrase)
    (last : Phrase) (env : Env) :
    c.visitBody topLevel ⟨p :: ps, last⟩ env =
      announce topLevel p >>= fun _ =>
        (c.visit p env).proceed fun _ => c.visitBody topLevel ⟨ps, last⟩ (p.scope env) := by
  rw [visitBody, visitInit, proceed_bind]
  simp only [proceed_proceed]
  rfl

/-- Top-level expressions are gone through as `narrate` says, and what that comes to is
    concluded. -/
theorem visitBody_eq (c : Checker) (last : Phrase) : ∀ (ps : List Phrase) (env : Env) (j : Journal),
    c.visitBody true ⟨ps, last⟩ env j =
      conclude (c.narrate j.report ps last env).2
        { j with log := j.log ++ (c.narrate j.report ps last env).1 }
  | [], env, j => by
      have hbody : c.visitBody true ⟨[], last⟩ env =
          announce true last >>= fun _ => conclude (c.check last env) := by
        rw [← visit_eq]
        rfl
      rw [hbody, narrate]
      rcases hnote : j.report.note [.ok "Type-Check", last.unparse] with ⟨line, outcome⟩
      cases outcome with
      | error e => exact bind_of_error (announce_of_note hnote)
      | ok _ => exact bind_of_ok (announce_of_note hnote)
  | p :: ps, env, j => by
      rw [visitBody_cons, visit_eq, narrate]
      rcases hnote : j.report.note [.ok "Type-Check", p.unparse] with ⟨line, outcome⟩
      cases outcome with
      | error e => exact bind_of_error (announce_of_note hnote)
      | ok _ =>
        rw [bind_of_ok (announce_of_note hnote)]
        cases hcheck : c.check p env with
        | error halt => rw [proceed_conclude_error]
        | ok t =>
          rw [proceed_conclude_ok (isFailure_of_check hcheck),
            visitBody_eq c last ps (p.scope env), String.append_assoc]

theorem runPhrase_eq (c : Checker) (r : Report) (p : Phrase) (env : Env) :
    c.runPhrase r p env =
      ⟨"", (r.conclude (c.check p env)).1, (r.conclude (c.check p env)).2⟩ := by
  rw [runPhrase, visit_eq]
  rfl

theorem runProgram_eq (c : Checker) (r : Report) (program : Program) :
    c.runProgram r program =
      let narration := narrate ⟨c.lenient, some program.catalog⟩ r program.init program.last
        program.catalog.globals
      ⟨narration.1, (r.conclude narration.2).1, (r.conclude narration.2).2⟩ := by
  obtain ⟨init, last⟩ := program
  rw [runProgram, run, visitBody_eq]
  simp [conclude]

end Checker

/-- The verdict on an expression is concluded from the check of it. -/
theorem typeOfExpression_eq (e : Phrase) (env : Env) (program : Program) (r : Report)
    (lenient : Bool) :
    typeOfExpression e env program r lenient =
      ⟨"", (r.conclude (Checker.check ⟨lenient, some program.catalog⟩ e env)).1,
        (r.conclude (Checker.check ⟨lenient, some program.catalog⟩ e env)).2⟩ :=
  Checker.runPhrase_eq _ r e env

/-- The verdict on a program is concluded from the checks of its expressions in turn. -/
theorem typeOfProgram_eq (program : Program) (r : Report) (lenient : Bool) :
    typeOfProgram program r lenient =
      let narration := Checker.narrate ⟨lenient, some program.catalog⟩ r program.init program.last
        program.catalog.globals
      ⟨narration.1, (r.conclude narration.2).1, (r.conclude narration.2).2⟩ :=
  Checker.runProgram_eq _ r program

end VariantScheme
