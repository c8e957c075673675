import VariantScheme.Proofs.RelabelCatalog

/-!
    Identities of nodes are compared and never looked into. A check of relabelled code takes the
    same steps: each step on relabelled data comes to the relabelled outcome, as long as different
    nodes keep different identities, and so does the whole check (`check_relabel`). What is reported
    has no identities in it and is the same. -/

namespace VariantScheme

/-! ### Steps of the check -/

namespace Checker

section

variable (ρ : Nat → Nat) (c : Checker)

def relabel : Checker := ⟨c.lenient, c.catalog?.map (Catalog.relabel ρ)⟩

theorem catalog_relabel :
    (c.relabel ρ).catalog = carry (Halt.relabel ρ) (Catalog.relabel ρ) c.catalog := by
  rw [catalog, catalog, relabel]
  cases c.catalog? <;> rfl

theorem headers_relabel (bs : List Binding) :
    headers (Binding.relabelEach ρ bs) =
      carry (Halt.relabel ρ) (List.map (Ty.relabel ρ)) (headers bs) := by
  induction bs with
  | nil => rfl
  | cons b bs ih =>
    have hheader : (b.relabel ρ).value.header? = b.value.header?.map (Ty.relabel ρ) := by
      rw [b.value_relabel, Phrase.header?_relabel]
    have hsite : (Phrase.binding (b.relabel ρ)).occurrence =
        (Phrase.binding b).occurrence.relabel ρ := (Phrase.binding b).occurrence_relabel ρ
    rw [Binding.relabelEach, headers, headers, hheader, hsite]
    cases b.value.header? with
    | none => rfl
    | some header => exact carry_bind ih fun rest => rfl

theorem armFields_relabel (a : Arm) :
    (c.relabel ρ).armFields (a.relabel ρ) =
      carry (Halt.relabel ρ) (List.map (Ty.relabel ρ)) (c.armFields a) := by
  have hsite := (Phrase.arm a).occurrence_relabel ρ
  obtain ⟨i, record, pattern, body⟩ := a
  rw [Phrase.relabel, Arm.relabel] at hsite
  rw [Arm.relabel, armFields, armFields, hsite]
  refine carry_bind (c.catalog_relabel ρ) fun k => ?_
  rw [k.record?_relabel]
  cases k.record? record with
  | none => rfl
  | some r =>
    simp only [Option.map_some, Record.fields_relabel, List.length_map, Record.fieldTypes_relabel]
    split_ifs <;> rfl

theorem expectCases_relabel (type : String) (arms : List Arm) :
    (c.relabel ρ).expectCases type (Arm.relabelEach ρ arms) =
      carry (Halt.relabel ρ) id (c.expectCases type arms) := by
  refine carry_bind (c.catalog_relabel ρ) fun k => ?_
  rw [Arm.relabelEach_eq, k.caseFault?_relabel]
  cases k.caseFault? type arms <;> rfl

end

variable {ρ : Nat → Nat} (hρ : Function.Injective ρ) (c : Checker)

include hρ

theorem expect_relabel (a d : Ty) (site : Phrase) :
    (c.relabel ρ).expect (a.relabel ρ) (d.relabel ρ) (site.relabel ρ) =
      carry (Halt.relabel ρ) id (c.expect a d site) := by
  refine carry_bind (c.catalog_relabel ρ) fun k => ?_
  rw [k.compatible_relabel hρ]
  exact carry_bind (detect_relabel ρ _) fun _ => rfl

theorem expectArg_relabel (a param : Ty) (arg : Phrase) :
    (c.relabel ρ).expectArg (a.relabel ρ) (param.relabel ρ) (arg.relabel ρ) =
      carry (Halt.relabel ρ) id (c.expectArg a param arg) := by
  rw [expectArg, expectArg, param.isVar_relabel, c.expect_relabel hρ]
  split <;> rfl

theorem join_relabel (ts : List Ty) :
    (c.relabel ρ).join (ts.map (Ty.relabel ρ)) =
      carry (Halt.relabel ρ) (Ty.relabel ρ) (c.join ts) := by
  refine carry_bind (c.catalog_relabel ρ) fun k => ?_
  rw [k.join_relabel hρ, carry_mapError]
  exact carry_bind rfl fun t => detect_relabel ρ t

theorem branches_relabel (a b : Ty) :
    (c.relabel ρ).branches (a.relabel ρ) (b.relabel ρ) =
      carry (Halt.relabel ρ) (Ty.relabel ρ) (c.branches a b) := by
  refine carry_bind (c.catalog_relabel ρ) fun k => ?_
  rw [k.fits_relabel hρ]
  split
  · rfl
  · exact c.join_relabel hρ [a, b]

theorem expectHeaders_relabel : ∀ (bs : List Binding) (hs : List Ty),
    (c.relabel ρ).expectHeaders (Binding.relabelEach ρ bs) (hs.map (Ty.relabel ρ)) =
      carry (Halt.relabel ρ) id (c.expectHeaders bs hs)
  | [], _ => rfl
  | _ :: _, [] => rfl
  | b :: bs, header :: hs => by
      have hfirst := c.expect_relabel hρ header b.param.type (.binding b)
      rw [Binding.relabelEach, List.map_cons, expectHeaders, expectHeaders, b.param_relabel]
      exact carry_bind hfirst fun _ => expectHeaders_relabel bs hs

theorem expectDeclarations_relabel :
    (c.relabel ρ).expectDeclarations = carry (Halt.relabel ρ) id c.expectDeclarations := by
  refine carry_bind (c.catalog_relabel ρ) fun k => ?_
  rw [k.declarationFault?_relabel hρ]
  cases k.declarationFault? <;> rfl

omit hρ

/-! ### The recursion -/

mutual

/-- Relabelled code is checked as the code is, up to the identities in what comes out. The recursion
    is that of the check, with one `carry_bind` for each of its steps. -/
theorem check_relabel (hρ : Function.Injective ρ) : ∀ (p : Phrase) (env : Env),
    (c.relabel ρ).check (p.relabel ρ) (env.relabel ρ) =
      carry (Halt.relabel ρ) (Ty.relabel ρ) (c.check p env)
  | .literal _ value, env => by
      rw [Phrase.relabel, check, check]
      cases hvalue : value.type? with
      | none => exact congrArg (Except.error ∘ Halt.refused) (Refusal.relabel_untyped ρ value).symm
      | some t => cases Datum.type?_eq_some_iff.mp hvalue <;> rfl
  | .quotation _ _, env => by
      rw [Phrase.relabel, check, check]
      rfl
  | .operator i op, env => by
      have hsite : Site.node (Phrase.operator (ρ i) op).occurrence =
          (Site.node (Phrase.operator i op).occurrence).relabel ρ := rfl
      rw [Phrase.relabel, check, check, hsite, Operator.signature?_relabel]
      cases Operator.signature? op (.node (Phrase.operator i op).occurrence) <;> rfl
  | .variable _ x, env => by
      rw [Phrase.relabel, check, check, Env.lookup_relabel]
      exact detect_relabel ρ _
  | .cond _ test thenPart elsePart, env => by
      rw [Phrase.relabel, check, check]
      refine carry_bind (check_relabel hρ test env) fun t => ?_
      refine carry_bind (c.expect_relabel hρ t .boolean test) fun _ => ?_
      refine carry_bind (check_relabel hρ thenPart env) fun a => ?_
      exact carry_bind (check_relabel hρ elsePart env) fun b => c.branches_relabel hρ a b
  | .lambda i params result body, env => by
      have hbody := checkBody_relabel hρ body (env.bind (Param.entries params))
      rw [← Env.bind_entries_relabel] at hbody
      rw [Phrase.relabel, check, check]
      refine carry_bind hbody fun t => ?_
      refine carry_bind (c.expect_relabel hρ t result (.lambda i params result body)) fun _ => ?_
      simp [carry, pure, Except.pure, Ty.relabel, Ty.relabelEach_eq, Function.comp_def,
        Param.relabel]
  | .call i fn args, env => by
      have hsite := (Phrase.call i fn args).occurrence_relabel ρ
      rw [Phrase.relabel] at hsite ⊢
      rw [check, check, hsite]
      refine carry_bind (check_relabel hρ fn env) fun t => ?_
      cases t with
      | proc params result =>
        have hlength : (Phrase.relabelEach ρ args).length = args.length := by
          rw [Phrase.relabelEach_eq, List.length_map]
        rw [Ty.relabel, Ty.relabelEach_eq]
        dsimp only
        rw [List.length_map, hlength]
        split
        · rfl
        · exact carry_bind (checkArgs_relabel hρ args params env) fun _ => inherit_relabel ρ result
      | _ => rfl
  | .letIn _ bindings body, env => by
      rw [Phrase.relabel, check, check, Binding.params_relabel, Env.bind_entries_relabel]
      exact carry_bind (checkBindings_relabel hρ bindings env) fun _ => checkBody_relabel hρ body _
  | .letrec _ bindings body, env => by
      rw [Phrase.relabel, check, check, Binding.names_relabel]
      refine carry_bind (headers_relabel ρ bindings) fun hs => ?_
      refine carry_bind (c.expectHeaders_relabel hρ bindings hs) fun _ => ?_
      refine carry_bind (enter_relabel ρ env _ hs) fun inner => ?_
      refine carry_bind (checkValues_relabel hρ bindings inner) fun _ => ?_
      exact checkBody_relabel hρ body inner
  | .define i x value, env => by
      have hvalue := check_relabel hρ value (env.bind (Param.entries [x]))
      rw [← Env.bind_entries_relabel] at hvalue
      rw [Phrase.relabel, check, check]
      refine carry_bind hvalue fun t => ?_
      exact carry_bind (c.expect_relabel hρ t x.type (.define i x value)) fun _ => rfl
  | .assign i x value, env => by
      rw [Phrase.relabel, check, check, Env.lookup_relabel]
      refine carry_bind (check_relabel hρ value env) fun t => ?_
      refine carry_bind (detect_relabel ρ _) fun target => ?_
      have hmode : (c.relabel ρ).lenient = c.lenient := rfl
      rw [hmode]
      split
      · rfl
      · exact carry_bind (c.expect_relabel hρ t target (.assign i x value)) fun _ => rfl
  | .defineType _ _, env => by
      rw [Phrase.relabel, check, check]
      exact carry_bind (c.expectDeclarations_relabel hρ) fun _ => rfl
  | .typeCase _ type subject arms, env => by
      have hjoin : ((c.relabel ρ).checkArms (Arm.relabelEach ρ arms) (env.relabel ρ) >>=
            (c.relabel ρ).join) =
          carry (Halt.relabel ρ) (Ty.relabel ρ) (c.checkArms arms env >>= c.join) :=
        carry_bind (checkArms_relabel hρ arms env) fun ts => c.join_relabel hρ ts
      have hmode : (c.relabel ρ).lenient = c.lenient := rfl
      rw [Phrase.relabel, check, check, hmode]
      split
      · exact hjoin
      · refine carry_bind (c.expectCases_relabel ρ type arms) fun _ => ?_
        refine carry_bind (check_relabel hρ subject env) fun t => ?_
        exact carry_bind (c.expect_relabel hρ t (.named type) subject) fun _ => hjoin
  | .param .., _ | .binding _, _ | .arm _, _ | .program .., _
  | .formless _, _ | .formlessExpression _, _ => by
      rw [Phrase.relabel, check, check]
      rfl

theorem checkBody_relabel (hρ : Function.Injective ρ) : ∀ (b : Body) (env : Env),
    (c.relabel ρ).checkBody (b.relabel ρ) (env.relabel ρ) =
      carry (Halt.relabel ρ) (Ty.relabel ρ) (c.checkBody b env)
  | ⟨init, last⟩, env => by
      rw [Body.relabel, checkBody, checkBody, scopeAfter_relabel]
      exact carry_bind (checkInit_relabel hρ init env) fun _ => check_relabel hρ last _

theorem checkInit_relabel (hρ : Function.Injective ρ) : ∀ (ps : List Phrase) (env : Env),
    (c.relabel ρ).checkInit (Phrase.relabelEach ρ ps) (env.relabel ρ) =
      carry (Halt.relabel ρ) id (c.checkInit ps env)
  | [], _ => by
      rw [Phrase.relabelEach, checkInit, checkInit]
      rfl
  | p :: ps, env => by
      rw [Phrase.relabelEach, checkInit, checkInit, p.scope_relabel]
      exact carry_bind (check_relabel hρ p env) fun _ => checkInit_relabel hρ ps _

theorem checkArgs_relabel (hρ : Function.Injective ρ) : ∀ (args : List Phrase) (params : List Ty)
    (env : Env),
    (c.relabel ρ).checkArgs (Phrase.relabelEach ρ args) (params.map (Ty.relabel ρ))
        (env.relabel ρ) =
      carry (Halt.relabel ρ) id (c.checkArgs args params env)
  | [], _, _ => by
      rw [Phrase.relabelEach, checkArgs, checkArgs] <;> simp [carry]
  | _ :: _, [], _ => by
      rw [Phrase.relabelEach, List.map_nil, checkArgs, checkArgs] <;> simp [carry]
  | arg :: args, param :: params, env => by
      rw [Phrase.relabelEach, List.map_cons, checkArgs, checkArgs]
      refine carry_bind (check_relabel hρ arg env) fun t => ?_
      refine carry_bind (c.expectArg_relabel hρ t param arg) fun _ => ?_
      exact checkArgs_relabel hρ args params env

theorem checkBindings_relabel (hρ : Function.Injective ρ) : ∀ (bs : List Binding) (env : Env),
    (c.relabel ρ).checkBindings (Binding.relabelEach ρ bs) (env.relabel ρ) =
      carry (Halt.relabel ρ) id (c.checkBindings bs env)
  | [], _ => by
      rw [Binding.relabelEach, checkBindings, checkBindings]
      rfl
  | ⟨i, x, value⟩ :: bs, env => by
      rw [Binding.relabelEach, Binding.relabel, checkBindings, checkBindings]
      refine carry_bind (check_relabel hρ value env) fun t => ?_
      refine carry_bind (c.expect_relabel hρ t x.type (.binding ⟨i, x, value⟩)) fun _ => ?_
      exact checkBindings_relabel hρ bs env

theorem checkValues_relabel (hρ : Function.Injective ρ) : ∀ (bs : List Binding) (env : Env),
    (c.relabel ρ).checkValues (Binding.relabelEach ρ bs) (env.relabel ρ) =
      carry (Halt.relabel ρ) id (c.checkValues bs env)
  | [], _ => by
      rw [Binding.relabelEach, checkValues, checkValues]
      rfl
  | ⟨i, x, value⟩ :: bs, env => by
      rw [Binding.relabelEach, Binding.relabel, checkValues, checkValues]
      exact carry_bind (check_relabel hρ value env) fun _ => checkValues_relabel hρ bs env

theorem checkArm_relabel (hρ : Function.Injective ρ) : ∀ (a : Arm) (env : Env),
    (c.relabel ρ).checkArm (a.relabel ρ) (env.relabel ρ) =
      carry (Halt.relabel ρ) (Ty.relabel ρ) (c.checkArm a env)
  | ⟨i, record, pattern, body⟩, env => by
      have hfields := c.armFields_relabel ρ ⟨i, record, pattern, body⟩
      rw [Arm.relabel] at hfields ⊢
      rw [checkArm, checkArm]
      refine carry_bind hfields fun fields => ?_
      refine carry_bind (enter_relabel ρ env pattern fields) fun inner => ?_
      exact checkBody_relabel hρ body inner

theorem checkArms_relabel (hρ : Function.Injective ρ) : ∀ (arms : List Arm) (env : Env),
    (c.relabel ρ).checkArms (Arm.relabelEach ρ arms) (env.relabel ρ) =
      carry (Halt.relabel ρ) (List.map (Ty.relabel ρ)) (c.checkArms arms env)
  | [], _ => by
      rw [Arm.relabelEach, checkArms, checkArms]
      rfl
  | a :: arms, env => by
      rw [Arm.relabelEach, checkArms, checkArms]
      refine carry_bind (checkArm_relabel hρ a env) fun t => ?_
      exact carry_bind (checkArms_relabel hρ arms env) fun ts => rfl

end

end Checker

/-! ### Reports -/

/-- If this is refused, there is no node in the refusal. -/
def Unlabelled {α : Type} (ρ : Nat → Nat) (x : Except Refusal α) : Prop :=
  ∀ e, x = .error e → e.relabel ρ = e

section

variable {ρ : Nat → Nat} {α β : Type}

theorem Unlabelled.ok {a : α} : Unlabelled ρ (.ok a) := fun _ h => by cases h

theorem Unlabelled.bind {x : Except Refusal α} {f : α → Except Refusal β} (hx : Unlabelled ρ x)
    (hf : ∀ a, Unlabelled ρ (f a)) : Unlabelled ρ (x >>= f) := by
  cases x with
  | error e =>
    intro e' h
    exact hx e' (congrArg Except.error (Except.error.inj h))
  | ok a => exact hf a

theorem Unlabelled.mapM {f : α → Except Refusal β} (hf : ∀ a, Unlabelled ρ (f a)) (as : List α) :
    Unlabelled ρ (as.mapM f) := by
  induction as with
  | nil => exact .ok
  | cons a as ih =>
    rw [List.mapM_cons]
    exact (hf a).bind fun _ => ih.bind fun _ => .ok

theorem unlabelled_printed (text : Printed) : Unlabelled ρ (text.mapError .unprintable) := by
  intro e h
  cases text <;> cases h
  rfl

/-- There is no node in what is said about a failure, nor in why nothing is said. -/
theorem Failure.unlabelled_explain (f : Failure) : Unlabelled ρ f.explain := by
  have htold : ∀ t : Ty, Unlabelled ρ t.told := fun t => unlabelled_printed t.render
  have hexhibit : ∀ (place : Occurrence) (caption : String),
      Unlabelled ρ (place.exhibit caption) := fun place _ =>
    (unlabelled_printed place.text).bind fun _ => .ok
  cases f with
  | incompatible computed expected site =>
    exact (htold computed).bind fun _ => (htold expected).bind fun _ =>
      (hexhibit site _).bind fun _ => .ok
  | notAProcedure type site => exact (htold type).bind fun _ => (hexhibit site _).bind fun _ => .ok
  | arityMismatch site | letrecRequiresProcedures site => exact (hexhibit site _).bind fun _ => .ok
  | noCommonType types => exact (Unlabelled.mapM htold types).bind fun _ => .ok
  | unspecified =>
    intro e h
    cases h
    rfl
  | _ => exact .ok

theorem Report.fail_relabel (r : Report) (f : Failure) : r.fail (f.relabel ρ) = r.fail f := by
  rw [Report.fail, Report.fail, f.explain_relabel]

theorem Report.unlabelled_fail (r : Report) (f : Failure) : Unlabelled ρ (r.fail f).1 := by
  rw [Report.fail]
  cases hexplain : f.explain with
  | error e =>
    intro e' h
    exact f.unlabelled_explain e' (hexplain.trans (congrArg Except.error (Except.error.inj h)))
  | ok issue =>
    intro e h
    simp only [Report.add] at h
    split at h <;> cases h
    rfl

theorem Report.conclude_relabel (r : Report) (x : Except Halt Ty) :
    r.conclude (carry (Halt.relabel ρ) (Ty.relabel ρ) x) =
      (carry (Refusal.relabel ρ) (Ty.relabel ρ) (r.conclude x).1, (r.conclude x).2) := by
  rcases x with (f | f | e) | t
  · simp only [carry, Halt.relabel, conclude, fail_relabel]
    cases h : (r.fail f).1 with
    | error e => simp only [Except.map, r.unlabelled_fail f e h]
    | ok _ => rfl
  · rfl
  · rfl
  · rfl

theorem unlabelled_writeLine : ∀ items : List Printed, Unlabelled ρ (writeLine items).2
  | [] | [.ok _] => .ok
  | .ok _ :: item :: items => unlabelled_writeLine (item :: items)
  | .error _ :: _ => fun e h => by
      cases h
      rfl

theorem Report.unlabelled_note (r : Report) (items : List Printed) :
    Unlabelled ρ (r.note items).2 := by
  rw [Report.note]
  split
  · exact unlabelled_writeLine items
  · exact .ok

/-- A run with other identities in its verdict. The log and the report have none. -/
def Run.relabel (ρ : Nat → Nat) (run : Run) : Run :=
  { run with verdict := carry (Refusal.relabel ρ) (Ty.relabel ρ) run.verdict }

end

namespace Checker

variable {ρ : Nat → Nat} (c : Checker)

theorem narrate_relabel (hρ : Function.Injective ρ) (r : Report) (last : Phrase) :
    ∀ (ps : List Phrase) (env : Env),
    (c.relabel ρ).narrate r (Phrase.relabelEach ρ ps) (last.relabel ρ) (env.relabel ρ) =
      ((c.narrate r ps last env).1,
        carry (Halt.relabel ρ) (Ty.relabel ρ) (c.narrate r ps last env).2)
  | [], env => by
      rw [Phrase.relabelEach, narrate, narrate, last.unparse_relabel, c.check_relabel hρ]
      cases hnote : r.note [.ok "Type-Check", last.unparse] with | mk line outcome
      cases outcome with
      | ok => rfl
      | error e =>
        have he : e.relabel ρ = e := r.unlabelled_note _ e (congrArg Prod.snd hnote)
        simp only [carry, Halt.relabel, he]
  | p :: ps, env => by
      rw [Phrase.relabelEach, narrate, narrate, p.unparse_relabel, c.check_relabel hρ,
        p.scope_relabel, narrate_relabel hρ r last ps]
      cases hnote : r.note [.ok "Type-Check", p.unparse] with | mk line outcome
      cases outcome with
      | ok => cases c.check p env <;> rfl
      | error e =>
        have he : e.relabel ρ = e := r.unlabelled_note _ e (congrArg Prod.snd hnote)
        simp only [carry, Halt.relabel, he]

theorem runPhrase_relabel (hρ : Function.Injective ρ) (r : Report) (p : Phrase) (env : Env) :
    (c.relabel ρ).runPhrase r (p.relabel ρ) (env.relabel ρ) = (c.runPhrase r p env).relabel ρ := by
  rw [runPhrase_eq, runPhrase_eq, c.check_relabel hρ, Report.conclude_relabel]
  rfl

theorem runProgram_relabel (hρ : Function.Injective ρ) (r : Report) (program : Program) :
    (c.relabel ρ).runProgram r (program.relabel ρ) = (c.runProgram r program).relabel ρ := by
  have hnarrate := narrate_relabel ⟨c.lenient, some program.catalog⟩ hρ r program.last program.init
    program.catalog.globals
  rw [runProgram_eq, runProgram_eq, Body.catalog_relabel, Catalog.globals_relabel]
  obtain ⟨init, last⟩ := program
  dsimp only [relabel, Option.map_some, Body.relabel] at hnarrate ⊢
  rw [hnarrate]
  dsimp only
  rw [Report.conclude_relabel]
  rfl

end Checker

/-! ### Uses of generic operators -/

/-- A generic operator has a parameter of its own at every place. -/
theorem Operator.signature?_of_generic? {op : String} (h : (generic? op).isSome) (s : Site) :
    ∃ x rest result, signature? op s = some (.proc (.var x s :: rest) result) := by
  rw [generic?] at h
  split_ifs at h with hkind hpair hdisplay
  · simp only [List.mem_cons, List.not_mem_nil, or_false] at hkind
    rcases hkind with rfl | rfl | rfl | rfl | rfl | rfl <;> exact ⟨_, _, _, rfl⟩
  · simp only [List.mem_cons, List.not_mem_nil, or_false] at hpair
    rcases hpair with rfl | rfl <;> exact ⟨_, _, _, rfl⟩
  · subst hdisplay
    exact ⟨_, _, _, rfl⟩
  · cases h

theorem verdict_operator {i : Nat} {op : String} {t : Ty} {env : Env} {program : Program}
    {r : Report} {lenient : Bool}
    (h : Operator.signature? op (.node (Phrase.operator i op).occurrence) = some t) :
    (typeOfExpression (.operator i op) env program r lenient).verdict = .ok t := by
  rw [typeOfExpression_eq, Checker.check, h]
  rfl

/-- The verdict depends on the identities of nodes only up to renaming. With other identities, as
    long as different ones stay different, the verdict is the one before with the same change, and
    the log and the issues are the same. In particular, two uses of generic operators have the same
    signature exactly when they are one and the same node. -/
theorem typeOf_relabel {ρ : Nat → Nat} (hρ : Function.Injective ρ) :
    (∀ (e : Phrase) (env : Env) (program : Program) (r : Report) (lenient : Bool),
      typeOfExpression (e.relabel ρ) (env.relabel ρ) (program.relabel ρ) r lenient =
        (typeOfExpression e env program r lenient).relabel ρ) ∧
    (∀ (program : Program) (r : Report) (lenient : Bool),
      typeOfProgram (program.relabel ρ) r lenient = (typeOfProgram program r lenient).relabel ρ) ∧
    ∀ (op op' : String) (i j : Nat) (env env' : Env) (program program' : Program) (r r' : Report)
      (lenient lenient' : Bool), (Operator.generic? op).isSome → (Operator.generic? op').isSome →
      ((typeOfExpression (.operator i op) env program r lenient).verdict =
          (typeOfExpression (.operator j op') env' program' r' lenient').verdict ↔
        i = j ∧ op = op') := by
  refine ⟨fun e env program r lenient => ?_, fun program r lenient => ?_, ?_⟩
  · have hrun := Checker.runPhrase_relabel ⟨lenient, some program.catalog⟩ hρ r e env
    rw [typeOfExpression, typeOfExpression, Body.catalog_relabel]
    exact hrun
  · exact Checker.runProgram_relabel ⟨lenient, none⟩ hρ r program
  · intro op op' i j env env' program program' r r' lenient lenient' hop hop'
    obtain ⟨x, rest, result, ht⟩ := Operator.signature?_of_generic? hop
      (.node (Phrase.operator i op).occurrence)
    obtain ⟨x', rest', result', ht'⟩ := Operator.signature?_of_generic? hop'
      (.node (Phrase.operator j op').occurrence)
    rw [verdict_operator ht, verdict_operator ht']
    constructor
    · intro h
      cases h
      exact ⟨rfl, rfl⟩
    · rintro ⟨rfl, rfl⟩
      exact congrArg Except.ok (Option.some.inj (ht.symm.trans ht'))

/-- The signature of `number?` as used at a node. -/
def numberTest (i : Nat) : Ty := .proc [.var "T" (.node ⟨i, .ok "number?"⟩)] .boolean

/-- A use of `number?` and a variable, as the branches of a conditional. -/
def eitherTest : Phrase :=
  .cond 0 (.literal 1 (.bool true)) (.operator 2 "number?") (.variable 3 "f")

/-- The branches have one type because the variable stands for this very use of the operator, and
    with other identities this is still so. -/
theorem typeOf_relabel_eitherTest :
    (typeOfExpression eitherTest (Env.bind [] [("f", numberTest 2)]) ⟨[], eitherTest⟩ {}
        false).verdict = .ok (numberTest 2) ∧
      (typeOfExpression (eitherTest.relabel (· + 10))
        (Env.relabel (· + 10) (Env.bind [] [("f", numberTest 2)]))
        (Body.relabel (· + 10) ⟨[], eitherTest⟩) {} false).verdict = .ok (numberTest 12) := by
  have hshift : Function.Injective (· + 10 : Nat → Nat) := fun i j h => Nat.add_right_cancel h
  have hverdict : (typeOfExpression eitherTest (Env.bind [] [("f", numberTest 2)])
      ⟨[], eitherTest⟩ {} false).verdict = .ok (numberTest 2) := rfl
  refine ⟨hverdict, ?_⟩
  rw [(typeOf_relabel hshift).1, Run.relabel, hverdict]
  rfl

end VariantScheme
