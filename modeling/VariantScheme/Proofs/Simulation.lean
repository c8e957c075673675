import VariantScheme.Proofs.Diagnosis

/-!
    Two checkers side by side. They may check in different ways, or have different catalogs. Where
    each step that the first takes is also a step of the second, the check of a whole phrase comes
    to the same with both; only after a halt of the first that is `excused` may the second go on as
    it likes. The steps need to agree on `clean` types alone, as no other types come up where none
    stand in the phrase or in scope. `Follows` says this of the steps that any form may take,
    `AlikeAt` of those that one form takes, and `Follows.check` of phrases, along the recursion of
    the check. -/

namespace VariantScheme

/-- The types that are written at a node itself, not at the phrases inside it. The names that a case
    analysis is about count as references. -/
def Phrase.typesAt : Phrase → List Ty
  | .lambda _ params result _ => result :: params.map (·.type)
  | .define _ x _ | .param _ x => [x.type]
  | .binding b => [b.param.type]
  | .defineType _ v => [.variant v]
  | .typeCase _ type _ arms => .named type :: arms.map fun a => .named a.record
  | .arm a => [.named a.record]
  | _ => []

/-! ### Outcomes -/

/-- The second outcome is the first one, which is good if it is a value; or the first is a halt
    that is excused. -/
def Matches {α : Type} (excused : Halt → Prop) (good : α → Prop) :
    Except Halt α → Except Halt α → Prop
  | .ok a, y => y = .ok a ∧ good a
  | .error e, y => y = .error e ∨ excused e

namespace Matches

variable {α β : Type} {excused : Halt → Prop} {good : α → Prop} {better : β → Prop}
  {x y : Except Halt α} {f g : α → Except Halt β}

theorem bind (hx : Matches excused good x y)
    (hf : ∀ a, good a → Matches excused better (f a) (g a)) :
    Matches excused better (x >>= f) (y >>= g) := by
  cases x with
  | error e =>
    rcases hx with rfl | hexcused
    · exact .inl rfl
    · exact .inr hexcused
  | ok a =>
    obtain ⟨rfl, ha⟩ := hx
    exact hf a ha

/-- A step that both take alike. -/
theorem same (hx : ∀ a, x = .ok a → good a) : Matches excused good x x := by
  cases x with
  | error e => exact .inl rfl
  | ok a => exact ⟨rfl, hx a rfl⟩

/-- A step that only the first takes, where it may halt as it likes. -/
theorem skip {z : Except Halt β} (hexcused : ∀ e, excused e)
    (hf : ∀ a, Matches excused better (f a) z) : Matches excused better (x >>= f) z := by
  cases x with
  | error e => exact .inr (hexcused e)
  | ok a => exact hf a

theorem eq_or_excused (h : Matches excused good x y) : y = x ∨ ∃ e, x = .error e ∧ excused e := by
  cases x with
  | error e => exact h.imp id fun hexcused => ⟨e, rfl, hexcused⟩
  | ok a => exact .inl h.1

end Matches

/-! ### Clean types -/

/-- A property that the simple types have, and that a procedure type has when all its parts have
    it. -/
structure Ty.Hereditary (clean : Ty → Prop) : Prop where
  atom : ∀ n, clean (.atom n)
  quoted : clean .quoted
  var : ∀ n s, clean (.var n s)
  proc_iff : ∀ ps r, clean (.proc ps r) ↔ (∀ p ∈ ps, clean p) ∧ clean r

/-- Every name in scope stands for a clean type. -/
def Env.Clean (clean : Ty → Prop) (env : Env) : Prop := ∀ x t, env.lookup? x = some t → clean t

section

variable {clean : Ty → Prop} {env : Env}

theorem Ty.Hereditary.literal (hclean : Ty.Hereditary clean) {d : Datum} {t : Ty}
    (h : d.type? = some t) : clean t := by
  cases d <;> cases h <;> exact hclean.atom _

theorem Ty.Hereditary.signature (hclean : Ty.Hereditary clean) {op : String} {s : Site} {t : Ty}
    (h : Operator.signature? op s = some t) : clean t := by
  obtain ⟨params, result, rfl, hparams⟩ := Operator.signature?_shape h
  refine (hclean.proc_iff _ _).mpr ⟨fun p hp => ?_, hclean.atom _⟩
  rcases hparams p hp with ⟨n, rfl⟩ | ⟨n, rfl⟩
  · exact hclean.atom n
  · exact hclean.var n s

theorem Env.Clean.bind {pairs : List (String × Ty)} (henv : env.Clean clean)
    (hpairs : ∀ e ∈ pairs, clean e.2) : (env.bind pairs).Clean clean :=
  Env.forall_lookup?_bind henv hpairs

theorem Env.Clean.bind_entries {params : List Param} (henv : env.Clean clean)
    (hparams : ∀ x ∈ params, clean x.type) : (env.bind (Param.entries params)).Clean clean :=
  henv.bind (List.forall_mem_map.mpr hparams)

theorem Env.Clean.detect_lookup (henv : env.Clean clean) {x : String} {t : Ty}
    (h : detect (env.lookup x) = .ok t) : clean t :=
  henv x t (Env.detect_lookup_iff.mp h).1

theorem Env.Clean.scope (henv : env.Clean clean) {p : Phrase} (hp : ∀ t ∈ p.typesAt, clean t) :
    (p.scope env).Clean clean := by
  cases p with
  | define i param value =>
    exact henv.bind_entries (List.forall_mem_singleton.mpr (hp _ List.mem_cons_self))
  | _ => exact henv

theorem Env.Clean.scopeAfter : ∀ {ps : List Phrase} {env : Env}, env.Clean clean →
    (∀ p ∈ ps, ∀ t ∈ p.typesAt, clean t) → (scopeAfter ps env).Clean clean
  | [], _, henv, _ => henv
  | p :: ps, env, henv, hps => by
      obtain ⟨hp, hps⟩ := List.forall_mem_cons.mp hps
      rw [Checker.scopeAfter_cons]
      exact Env.Clean.scopeAfter (henv.scope hp) hps

end

namespace Checker

variable {excused : Halt → Prop} {clean : Ty → Prop} {c c' : Checker}

theorem clean_enter {env inner : Env} {names : List String} {types : List Ty}
    (henv : env.Clean clean) (htypes : ∀ t ∈ types, clean t)
    (h : enter env names types = .ok inner) : inner.Clean clean := by
  obtain ⟨-, rfl⟩ := enter_eq_ok_iff.mp h
  exact henv.bind fun e he => htypes e.2 (List.of_mem_zip he).2

/-! ### Steps alike -/

/-- On clean types the second checker takes the steps that the first takes. -/
structure Follows (excused : Halt → Prop) (clean : Ty → Prop) (c c' : Checker) : Prop
    extends Ty.Hereditary clean where
  expect : ∀ {a d}, clean a → clean d → ∀ site, c'.expect a d site = c.expect a d site
  branches : ∀ {a b}, clean a → clean b → Matches excused clean (c.branches a b) (c'.branches a b)
  join : ∀ {ts}, (∀ t ∈ ts, clean t) → Matches excused clean (c.join ts) (c'.join ts)

/-- At this node only clean types are written, and the steps that its form takes by itself are the
    same. A case analysis may also be taken on trust by the second checker alone, where every halt
    is excused. -/
def AlikeAt (excused : Halt → Prop) (clean : Ty → Prop) (c c' : Checker) (q : Phrase) : Prop :=
  (∀ t ∈ q.typesAt, clean t) ∧
    match q with
    | .assign .. => c'.lenient = c.lenient
    | .defineType .. => c'.expectDeclarations = c.expectDeclarations
    | .typeCase _ type _ arms =>
        (c'.lenient = c.lenient ∧ c'.expectCases type arms = c.expectCases type arms) ∨
          (c'.lenient = true ∧ ∀ e, excused e)
    | .arm a => c'.armFields a = c.armFields a ∧
        ∀ fields, c.armFields a = .ok fields → ∀ t ∈ fields, clean t
    | _ => True

namespace Follows

theorem matches_expect (h : Follows excused clean c c') {a d : Ty} (ha : clean a) (hd : clean d)
    (site : Phrase) : Matches excused (fun _ => True) (c.expect a d site) (c'.expect a d site) := by
  rw [h.expect ha hd]
  exact .same fun _ _ => trivial

theorem matches_expectArg (h : Follows excused clean c c') {a param : Ty} (ha : clean a)
    (hparam : clean param) (arg : Phrase) :
    Matches excused (fun _ => True) (c.expectArg a param arg) (c'.expectArg a param arg) := by
  rw [expectArg, expectArg]
  split
  · exact ⟨rfl, trivial⟩
  · exact h.matches_expect ha hparam arg

/-- The headers of lambdas that are written with clean types are clean. -/
theorem clean_headers (hclean : Ty.Hereditary clean) : ∀ {bs : List Binding} {hs : List Ty},
    (∀ b ∈ bs, ∀ t ∈ b.value.typesAt, clean t) → headers bs = .ok hs → ∀ t ∈ hs, clean t
  | [], hs, _, h => by
      obtain rfl := Except.ok.inj h
      exact fun t ht => absurd ht List.not_mem_nil
  | b :: bs, hs, hbs, h => by
      obtain ⟨hb, hbs⟩ := List.forall_mem_cons.mp hbs
      rw [headers] at h
      split at h
      · cases h
      · rename_i header hheader
        obtain ⟨rest, hrest, hcons⟩ := bind_eq_ok_iff.mp h
        obtain rfl := Except.ok.inj hcons
        refine List.forall_mem_cons.mpr ⟨?_, clean_headers hclean hbs hrest⟩
        cases hvalue : b.value with
        | lambda i params result body =>
          rw [hvalue] at hheader hb
          obtain rfl := Option.some.inj hheader
          obtain ⟨hresult, hparams⟩ := List.forall_mem_cons.mp hb
          exact (hclean.proc_iff _ _).mpr ⟨hparams, hresult⟩
        | _ =>
          rw [hvalue] at hheader
          cases hheader

theorem matches_expectHeaders (h : Follows excused clean c c') : ∀ {bs : List Binding}
    {hs : List Ty}, (∀ b ∈ bs, clean b.param.type) → (∀ t ∈ hs, clean t) →
    Matches excused (fun _ => True) (c.expectHeaders bs hs) (c'.expectHeaders bs hs)
  | [], _, _, _ => ⟨rfl, trivial⟩
  | _ :: _, [], _, _ => ⟨rfl, trivial⟩
  | b :: bs, header :: hs, hbs, hhs => by
      obtain ⟨hb, hbs⟩ := List.forall_mem_cons.mp hbs
      obtain ⟨hheader, hhs⟩ := List.forall_mem_cons.mp hhs
      rw [expectHeaders, expectHeaders]
      exact (h.matches_expect hheader hb _).bind fun _ _ => h.matches_expectHeaders hbs hhs

/-! ### The recursion -/

mutual

/-- The check of a phrase comes to the same with both checkers, or the first halts and is
    excused. -/
theorem check (h : Follows excused clean c c') : ∀ (p : Phrase) {env : Env},
    p.Within (AlikeAt excused clean c c') → env.Clean clean →
    Matches excused clean (c.check p env) (c'.check p env)
  | .literal _ value, env, _, _ => by
      rw [Checker.check, Checker.check]
      refine .same fun t ht => ?_
      split at ht
      · rename_i u hvalue
        exact Except.ok.inj ht ▸ h.literal hvalue
      · cases ht
  | .quotation _ _, env, _, _ => by
      rw [Checker.check, Checker.check]
      exact ⟨rfl, h.quoted⟩
  | .operator _ op, env, _, _ => by
      rw [Checker.check, Checker.check]
      refine .same fun t ht => ?_
      split at ht
      · rename_i u hop
        exact Except.ok.inj ht ▸ h.signature hop
      · cases ht
  | .variable _ x, env, _, henv => by
      rw [Checker.check, Checker.check]
      exact .same fun t ht => henv.detect_lookup ht
  | .cond _ test thenPart elsePart, env, hp, henv => by
      have hparts : ∀ q ∈ [test, thenPart, elsePart], q.Within (AlikeAt excused clean c c') :=
        fun q hq => hp.part hq
      obtain ⟨htest, hthen, helse, -⟩ := by simpa only [List.forall_mem_cons] using hparts
      rw [Checker.check, Checker.check]
      refine (h.check test htest henv).bind fun t ht => ?_
      refine (h.matches_expect ht (h.atom _) test).bind fun _ _ => ?_
      refine (h.check thenPart hthen henv).bind fun a ha => ?_
      exact (h.check elsePart helse henv).bind fun b hb => h.branches ha hb
  | .lambda i params result body, env, hp, henv => by
      obtain ⟨hresult, hparams⟩ := List.forall_mem_cons.mp hp.self.1
      have hinner : (env.bind (Param.entries params)).Clean clean :=
        henv.bind_entries (List.forall_mem_map.mp hparams)
      rw [Checker.check, Checker.check]
      refine (h.checkBody body (fun q hq => hp.part hq) hinner).bind fun t ht => ?_
      refine (h.matches_expect ht hresult _).bind fun _ _ => ?_
      exact ⟨rfl, (h.proc_iff _ _).mpr ⟨hparams, hresult⟩⟩
  | .call i fn args, env, hp, henv => by
      rw [Checker.check, Checker.check]
      refine (h.check fn (hp.part List.mem_cons_self) henv).bind fun t ht => ?_
      split
      · rename_i params result
        obtain ⟨hparams, hresult⟩ := (h.proc_iff params result).mp ht
        split
        · exact .inl rfl
        · refine (h.checkArgs args params (fun q hq => hp.part (List.mem_cons_of_mem _ hq)) hparams
            henv).bind fun _ _ => ?_
          exact .same fun u hu => (inherit_eq_ok_iff.mp hu).1 ▸ hresult
      · exact .inl rfl
  | .letIn _ bindings body, env, hp, henv => by
      have hbindings : ∀ b ∈ bindings, (Phrase.binding b).Within (AlikeAt excused clean c c') :=
        fun b hb => hp.part (List.mem_append_left _ (List.mem_map_of_mem hb))
      have hparams : ∀ x ∈ bindings.map (·.param), clean x.type :=
        List.forall_mem_map.mpr fun b hb => (hbindings b hb).self.1 _ List.mem_cons_self
      rw [Checker.check, Checker.check]
      refine (h.checkBindings bindings hbindings henv).bind fun _ _ => ?_
      exact h.checkBody body (fun q hq => hp.part (List.mem_append_right _ hq))
        (henv.bind_entries hparams)
  | .letrec _ bindings body, env, hp, henv => by
      have hbindings : ∀ b ∈ bindings, (Phrase.binding b).Within (AlikeAt excused clean c c') :=
        fun b hb => hp.part (List.mem_append_left _ (List.mem_map_of_mem hb))
      rw [Checker.check, Checker.check]
      refine Matches.bind (.same fun hs hheaders =>
        clean_headers h.toHereditary (fun b hb => (hbindings b hb).value.self.1) hheaders)
        fun hs hhs => ?_
      refine (h.matches_expectHeaders (fun b hb => (hbindings b hb).self.1 _ List.mem_cons_self)
        hhs).bind fun _ _ => ?_
      refine Matches.bind (.same fun inner hinner => clean_enter henv hhs hinner)
        fun inner hinner => ?_
      refine (h.checkValues bindings hbindings hinner).bind fun _ _ => ?_
      exact h.checkBody body (fun q hq => hp.part (List.mem_append_right _ hq)) hinner
  | .define i param value, env, hp, henv => by
      have hparam : clean param.type := hp.self.1 _ List.mem_cons_self
      rw [Checker.check, Checker.check]
      refine (h.check value (hp.part List.mem_cons_self)
        (henv.bind_entries (List.forall_mem_singleton.mpr hparam))).bind fun t ht => ?_
      exact (h.matches_expect ht hparam _).bind fun _ _ => ⟨rfl, h.atom _⟩
  | .assign i x value, env, hp, henv => by
      have hmode : c'.lenient = c.lenient := hp.self.2
      rw [Checker.check, Checker.check, hmode]
      refine (h.check value (hp.part List.mem_cons_self) henv).bind fun t ht => ?_
      refine Matches.bind (.same fun u hu => henv.detect_lookup hu) fun target htarget => ?_
      split
      · exact ⟨rfl, h.var _ _⟩
      · exact (h.matches_expect ht htarget _).bind fun _ _ => ⟨rfl, h.atom _⟩
  | .defineType _ _, env, hp, _ => by
      have hdeclarations : c'.expectDeclarations = c.expectDeclarations := hp.self.2
      rw [Checker.check, Checker.check, hdeclarations]
      exact Matches.bind (.same fun _ _ => trivial) fun _ _ => ⟨rfl, h.atom _⟩
  | .typeCase _ type subject arms, env, hp, henv => by
      have htype : clean (.named type) := hp.self.1 _ List.mem_cons_self
      have hjoin : Matches excused clean (c.checkArms arms env >>= c.join)
          (c'.checkArms arms env >>= c'.join) :=
        (h.checkArms arms (fun a ha => hp.part (List.mem_cons_of_mem _ (List.mem_map_of_mem ha)))
          henv).bind fun ts hts => h.join hts
      have hstep := hp.self.2
      rw [Checker.check, Checker.check]
      rcases hstep with ⟨hmode, hcases⟩ | ⟨htrust, hexcused⟩
      · rw [hmode, hcases]
        split
        · exact hjoin
        · refine Matches.bind (.same fun _ _ => trivial) fun _ _ => ?_
          refine (h.check subject (hp.part List.mem_cons_self) henv).bind fun t ht => ?_
          exact (h.matches_expect ht htype subject).bind fun _ _ => hjoin
      · rw [if_pos htrust]
        split
        · exact hjoin
        · exact .skip hexcused fun _ => .skip hexcused fun _ => .skip hexcused fun _ => hjoin
  | .param .., _, _, _ | .binding _, _, _, _ | .arm _, _, _, _ | .program .., _, _, _
  | .formless _, _, _, _ | .formlessExpression _, _, _, _ => by
      rw [Checker.check, Checker.check]
      exact .inl rfl

theorem checkBody (h : Follows excused clean c c') : ∀ (b : Body) {env : Env},
    (∀ p ∈ b.toList, p.Within (AlikeAt excused clean c c')) → env.Clean clean →
    Matches excused clean (c.checkBody b env) (c'.checkBody b env)
  | ⟨init, last⟩, env, hb, henv => by
      obtain ⟨hinit, hlast⟩ := List.forall_mem_append.mp hb
      rw [Checker.checkBody, Checker.checkBody]
      refine (h.checkInit init hinit henv).bind fun _ _ => ?_
      exact h.check last (hlast last List.mem_cons_self)
        (henv.scopeAfter fun p hp => (hinit p hp).self.1)

theorem checkInit (h : Follows excused clean c c') : ∀ (ps : List Phrase) {env : Env},
    (∀ p ∈ ps, p.Within (AlikeAt excused clean c c')) → env.Clean clean →
    Matches excused (fun _ => True) (c.checkInit ps env) (c'.checkInit ps env)
  | [], _, _, _ => by
      rw [Checker.checkInit, Checker.checkInit]
      exact ⟨rfl, trivial⟩
  | p :: ps, env, hps, henv => by
      obtain ⟨hp, hps⟩ := List.forall_mem_cons.mp hps
      rw [Checker.checkInit, Checker.checkInit]
      refine (h.check p hp henv).bind fun _ _ => ?_
      exact h.checkInit ps hps (henv.scope hp.self.1)

theorem checkArgs (h : Follows excused clean c c') : ∀ (args : List Phrase) (params : List Ty)
    {env : Env}, (∀ a ∈ args, a.Within (AlikeAt excused clean c c')) → (∀ t ∈ params, clean t) →
    env.Clean clean →
    Matches excused (fun _ => True) (c.checkArgs args params env) (c'.checkArgs args params env)
  | [], _, _, _, _, _ => by
      rw [Checker.checkArgs, Checker.checkArgs] <;> simp [Matches]
  | _ :: _, [], _, _, _, _ => by
      rw [Checker.checkArgs, Checker.checkArgs] <;> simp [Matches]
  | arg :: args, param :: params, env, hargs, hparams, henv => by
      obtain ⟨harg, hargs⟩ := List.forall_mem_cons.mp hargs
      obtain ⟨hparam, hparams⟩ := List.forall_mem_cons.mp hparams
      rw [Checker.checkArgs, Checker.checkArgs]
      refine (h.check arg harg henv).bind fun t ht => ?_
      refine (h.matches_expectArg ht hparam arg).bind fun _ _ => ?_
      exact h.checkArgs args params hargs hparams henv

theorem checkBindings (h : Follows excused clean c c') : ∀ (bs : List Binding) {env : Env},
    (∀ b ∈ bs, (Phrase.binding b).Within (AlikeAt excused clean c c')) → env.Clean clean →
    Matches excused (fun _ => True) (c.checkBindings bs env) (c'.checkBindings bs env)
  | [], _, _, _ => by
      rw [Checker.checkBindings, Checker.checkBindings]
      exact ⟨rfl, trivial⟩
  | ⟨i, param, value⟩ :: bs, env, hbs, henv => by
      obtain ⟨hb, hbs⟩ := List.forall_mem_cons.mp hbs
      rw [Checker.checkBindings, Checker.checkBindings]
      refine (h.check value hb.value henv).bind fun t ht => ?_
      refine (h.matches_expect ht (hb.self.1 _ List.mem_cons_self) _).bind fun _ _ => ?_
      exact h.checkBindings bs hbs henv

theorem checkValues (h : Follows excused clean c c') : ∀ (bs : List Binding) {env : Env},
    (∀ b ∈ bs, (Phrase.binding b).Within (AlikeAt excused clean c c')) → env.Clean clean →
    Matches excused (fun _ => True) (c.checkValues bs env) (c'.checkValues bs env)
  | [], _, _, _ => by
      rw [Checker.checkValues, Checker.checkValues]
      exact ⟨rfl, trivial⟩
  | ⟨i, param, value⟩ :: bs, env, hbs, henv => by
      obtain ⟨hb, hbs⟩ := List.forall_mem_cons.mp hbs
      rw [Checker.checkValues, Checker.checkValues]
      refine (h.check value hb.value henv).bind fun _ _ => ?_
      exact h.checkValues bs hbs henv

theorem checkArm (h : Follows excused clean c c') : ∀ (a : Arm) {env : Env},
    (Phrase.arm a).Within (AlikeAt excused clean c c') → env.Clean clean →
    Matches excused clean (c.checkArm a env) (c'.checkArm a env)
  | ⟨i, record, pattern, body⟩, env, ha, henv => by
      obtain ⟨-, hfields, hclean⟩ := ha.self
      rw [Checker.checkArm, Checker.checkArm, hfields]
      refine Matches.bind (.same hclean) fun fields hfields => ?_
      refine Matches.bind (.same fun inner hinner => clean_enter henv hfields hinner)
        fun inner hinner => ?_
      exact h.checkBody body ha.body hinner

theorem checkArms (h : Follows excused clean c c') : ∀ (arms : List Arm) {env : Env},
    (∀ a ∈ arms, (Phrase.arm a).Within (AlikeAt excused clean c c')) → env.Clean clean →
    Matches excused (fun ts => ∀ t ∈ ts, clean t) (c.checkArms arms env) (c'.checkArms arms env)
  | [], _, _, _ => by
      rw [Checker.checkArms, Checker.checkArms]
      exact ⟨rfl, fun t ht => absurd ht List.not_mem_nil⟩
  | a :: arms, env, harms, henv => by
      obtain ⟨ha, harms⟩ := List.forall_mem_cons.mp harms
      rw [Checker.checkArms, Checker.checkArms]
      refine (h.checkArm a ha henv).bind fun t ht => ?_
      refine (h.checkArms arms harms henv).bind fun ts hts => ?_
      exact ⟨rfl, List.forall_mem_cons.mpr ⟨ht, hts⟩⟩

end

/-- The same of a program, whose expressions are announced in the log. -/
theorem narrate (h : Follows excused clean c c') (r : Report) {last : Phrase}
    (hlast : last.Within (AlikeAt excused clean c c')) : ∀ (ps : List Phrase) {env : Env},
    (∀ p ∈ ps, p.Within (AlikeAt excused clean c c')) → env.Clean clean →
    c'.narrate r ps last env = c.narrate r ps last env ∨
      ∃ e, (c.narrate r ps last env).2 = .error e ∧ excused e
  | [], env, _, henv => by
      rw [Checker.narrate, Checker.narrate]
      split
      · exact .inl rfl
      · rcases (h.check last hlast henv).eq_or_excused with hsame | hexcused
        · exact .inl (by rw [hsame])
        · exact .inr hexcused
  | p :: ps, env, hps, henv => by
      obtain ⟨hp, hps⟩ := List.forall_mem_cons.mp hps
      rw [Checker.narrate, Checker.narrate]
      split
      · exact .inl rfl
      · rcases (h.check p hp henv).eq_or_excused with hsame | ⟨e, he, hexcused⟩
        · rw [hsame]
          cases c.check p env with
          | error e => exact .inl rfl
          | ok t =>
            rcases h.narrate r hlast ps hps (henv.scope hp.self.1) with hrest | hrest
            · exact .inl (by simp only [hrest])
            · exact .inr hrest
        · exact .inr ⟨e, by rw [he], hexcused⟩

end Follows

end Checker

end VariantScheme
