import VariantScheme.Proofs.FreeNames
import VariantScheme.Proofs.Legibility
import VariantScheme.Proofs.Totality

/-!
    Diagnoses are true. `Failure.Holds` says what each kind of failure claims: which name is free
    and stands for nothing, which phrase inside the code is the place, which types do not fit, which
    declarations or arms are at fault. A check of well-formed code that ends in a failure ends in
    one that holds of this code. Each step of the checker fails only so, and what is known of names
    and places passes from a form to its parts: a name that is free in a part and unbound there is
    free in the whole and unbound outside. -/

namespace VariantScheme

/-! ### What failures say -/

/-- What a failure says of code, where `unbound` holds of its free names that stand for nothing and
    `inside` of the phrases in it. -/
def Failure.Holds (k : Catalog) (unbound : String → Prop) (inside : Phrase → Prop) : Failure → Prop
  | .unboundVariable x => unbound x
  | .unknownPrimitive op =>
      (∃ i, inside (.operator i op)) ∧ ∀ site, Operator.signature? op site = none
  | .incompatible computed expected site =>
      (∃ p, inside p ∧ p.occurrence = site) ∧
        computed ≠ expected ∧ k.isSubtype computed expected = false ∧ expected ≠ .any
  | .notAProcedure type site =>
      (∃ i fn args, inside (.call i fn args) ∧ (Phrase.call i fn args).occurrence = site) ∧
        ∀ params result, type ≠ .proc params result
  | .arityMismatch site need got =>
      need ≠ got ∧
        ((∃ i fn args, inside (.call i fn args) ∧ (Phrase.call i fn args).occurrence = site ∧
            got = args.length) ∨
          ∃ arm, inside (.arm arm) ∧ (Phrase.arm arm).occurrence = site ∧
            got = arm.pattern.length)
  | .noCommonType types => k.commonAncestors types = .ok []
  | .letrecRequiresProcedures site =>
      ∃ i bindings body b, inside (.letrec i bindings body) ∧ b ∈ bindings ∧
        (Phrase.binding b).occurrence = site ∧
        ∀ j params result inner, b.value ≠ .lambda j params result inner
  | .recordMismatch n =>
      (∃ i v, inside (.defineType i v)) ∧
        ((∃ r ∈ k.records, ∃ s ∈ k.records, r.name = n ∧ s.name = n ∧ r ≠ s) ∨
          ∃ v ∈ k.variants, ∃ w ∈ k.variants, v.name = n ∧ w.name = n ∧ v ≠ w)
  | .noBaseCase n =>
      (∃ i v, inside (.defineType i v)) ∧ k.DeclaresVariant n ∧ ¬ k.Constructible n
  | .duplicateCase n =>
      ∃ i type subject arms, inside (.typeCase i type subject arms) ∧
        2 ≤ (arms.map (·.record)).count n
  | .unknownRecord n => (∃ arm, inside (.arm arm) ∧ arm.record = n) ∧ ¬ k.DeclaresRecord n
  | .unknownType n =>
      (∃ i subject arms, inside (.typeCase i n subject arms)) ∧ ¬ k.DeclaresVariant n
  | .notACase n type =>
      ∃ i subject arms v, inside (.typeCase i type subject arms) ∧ n ∈ arms.map (·.record) ∧
        k.variant? type = some v ∧ n ∉ v.recordNames
  | .notExhaustive type names =>
      ∃ i subject arms v, inside (.typeCase i type subject arms) ∧ k.variant? type = some v ∧
        names ≠ [] ∧ ∀ n, n ∈ names ↔ n ∈ v.recordNames ∧ n ∉ arms.map (·.record)
  | .notFound _ | .unspecified => False

variable {k : Catalog} {lenient : Bool} {unbound : String → Prop} {inside : Phrase → Prop}

/-! ### Unbound names -/

/-- Each of the names is bound, or else `unbound`. -/
def Env.BoundOr (unbound : String → Prop) (names : List String) (env : Env) : Prop :=
  ∀ x ∈ names, env.lookup? x = none → unbound x

namespace Env.BoundOr

variable {names more : List String} {env : Env}

theorem append_iff :
    env.BoundOr unbound (names ++ more) ↔ env.BoundOr unbound names ∧ env.BoundOr unbound more :=
  List.forall_mem_append

/-- The names of a frame are bound inside it. -/
theorem bind {pairs : List (String × Ty)}
    (h : env.BoundOr unbound (without names (pairs.map (·.1)))) :
    (env.bind pairs).BoundOr unbound names := by
  intro x hx hnone
  obtain ⟨hpairs, hnone⟩ := Env.lookup?_bind_eq_none_iff.mp hnone
  exact h x (mem_without.mpr ⟨hx, hpairs⟩) hnone

theorem scope {p : Phrase} (h : env.BoundOr unbound (without names p.defines)) :
    (p.scope env).BoundOr unbound names := by
  obtain ⟨hnone, hscope⟩ | ⟨pairs, hpairs, hscope⟩ := p.scope_cases
  · rw [hnone, without_nil] at h
    rwa [hscope]
  · rw [hpairs] at h
    rw [hscope]
    exact BoundOr.bind h

theorem scopeAfter : ∀ {ps : List Phrase} {env : Env},
    env.BoundOr unbound (Phrase.freeNamesThen ps names) →
    (scopeAfter ps env).BoundOr unbound names
  | [], _, h => by rwa [Phrase.freeNamesThen] at h
  | p :: ps, env, h => by
      rw [Phrase.freeNamesThen, append_iff] at h
      have hrest : (VariantScheme.scopeAfter ps (p.scope env)).BoundOr unbound names :=
        scopeAfter h.2.scope
      exact hrest

end Env.BoundOr

/-! ### Faults hold -/

theorem Operator.signature?_eq_none {op : String} {site : Site}
    (h : Operator.signature? op site = none) (site' : Site) :
    Operator.signature? op site' = none := by
  unfold Operator.signature? at h ⊢
  split at h
  · cases h
  · cases h
  · rfl

namespace Catalog

theorem holds_armFault {i : Nat} {type : String} {v : Variant} {subject : Phrase}
    {arms : List Arm} {arm : Arm} {f : Failure} (hcase : inside (.typeCase i type subject arms))
    (hinside : inside (.arm arm)) (harm : arm ∈ arms) (hv : k.variant? type = some v)
    (h : k.ArmFault type v arm f) : f.Holds k unbound inside := by
  cases h with
  | unknownRecord unknown => exact ⟨⟨arm, hinside, rfl⟩, unknown⟩
  | arityMismatch _ uneven =>
    exact ⟨by exact_mod_cast Ne.symm uneven, .inr ⟨arm, hinside, rfl, rfl⟩⟩
  | notACase _ _ unlisted =>
    exact ⟨i, subject, arms, v, hcase, List.mem_map.mpr ⟨arm, harm, rfl⟩, hv, unlisted⟩

theorem holds_caseFault {i : Nat} {type : String} {subject : Phrase} {arms : List Arm}
    {f : Failure} (hcase : inside (.typeCase i type subject arms))
    (harms : ∀ arm ∈ arms, inside (.arm arm)) (h : k.caseFault? type arms = some f) :
    f.Holds k unbound inside := by
  cases caseFault_of_caseFault? h with
  | unknownType unknown => exact ⟨⟨i, subject, arms, hcase⟩, unknown⟩
  | @duplicateCase v before after arm _ split _ again =>
    refine ⟨i, type, subject, arms, hcase, ?_⟩
    have hpos : 1 ≤ (before.map (·.record)).count arm.record := List.one_le_count_iff.mpr again
    rw [split, List.map_append, List.map_cons, List.count_append, List.count_cons_self]
    omega
  | @wrongArm v before after arm _ found _ split _ wrong =>
    have harm : arm ∈ arms := by simp [split]
    exact holds_armFault hcase (harms arm harm) harm found wrong
  | @notExhaustive v n found _ _ case uncovered =>
    refine ⟨i, subject, arms, v, hcase, found, ?_, fun m => ?_⟩
    · exact List.ne_nil_of_mem (List.mem_filter.mpr ⟨case, by simpa using uncovered⟩)
    · simp

theorem holds_declarationFault {i : Nat} {v : Variant} {f : Failure}
    (hdecl : inside (.defineType i v)) (h : k.declarationFault? = some f) :
    f.Holds k unbound inside := by
  rcases Option.or_eq_some_iff.mp h with h | ⟨-, h⟩
  · obtain ⟨n, hn, rfl⟩ := Option.map_eq_some_iff.mp h
    exact ⟨⟨i, v, hdecl⟩, differ_of_redeclared? hn⟩
  · obtain ⟨n, hn, rfl⟩ := Option.map_eq_some_iff.mp h
    exact ⟨⟨i, v, hdecl⟩, stuck_of_baseless? hn⟩

end Catalog

/-! ### The steps -/

/-- The step comes out well, is refused, or fails in one of the given ways. -/
def FailsOnly {α : Type} (good : Failure → Prop) : Except Halt α → Prop
  | .error (.failed f) => good f
  | _ => True

namespace FailsOnly

variable {α β : Type} {good : Failure → Prop} {x : Except Halt α} {f : α → Except Halt β}

/-- What follows a step only has to do with what the step can come to. -/
theorem bind_settled {fine : α → Prop} (hx : FailsOnly good x) (hsettles : Settles fine x)
    (hf : ∀ a, fine a → FailsOnly good (f a)) : FailsOnly good (x >>= f) := by
  rcases x with (_ | _ | _) | a
  · exact hx
  · exact absurd hsettles id
  · exact absurd hsettles id
  · exact hf a hsettles

theorem bind (hx : FailsOnly good x) (hf : ∀ a, FailsOnly good (f a)) :
    FailsOnly good (x >>= f) := by
  rcases x with (_ | _ | _) | a
  · exact hx
  · trivial
  · trivial
  · exact hf a

end FailsOnly

namespace Checker

theorem holds_expect {a d : Ty} {site : Phrase} (hd : d.Honest) (hsite : inside site) :
    FailsOnly (Failure.Holds k unbound inside)
      ((⟨lenient, some k⟩ : Checker).expect a d site) := by
  rw [expect, catalog_bind, Catalog.compatible]
  split
  · rw [detect_honest hd]
    trivial
  · rename_i hfits
    simp only [Catalog.fits, Bool.or_eq_true, decide_eq_true_eq, not_or,
      Bool.not_eq_true] at hfits
    obtain ⟨⟨hany, hne⟩, hsub⟩ := hfits
    exact ⟨⟨site, hsite, rfl⟩, hne, hsub, hany⟩

theorem holds_expectArg {a param : Ty} {arg : Phrase} (hparam : param.Honest)
    (harg : inside arg) :
    FailsOnly (Failure.Holds k unbound inside)
      ((⟨lenient, some k⟩ : Checker).expectArg a param arg) := by
  rw [expectArg]
  split
  · trivial
  · exact holds_expect hparam harg

theorem holds_lookup {env : Env} {x : String} (henv : env.Honest)
    (hx : env.lookup? x = none → unbound x) :
    FailsOnly (Failure.Holds k unbound inside) (detect (env.lookup x)) := by
  rw [Env.lookup]
  cases hlookup : env.lookup? x with
  | none => exact hx hlookup
  | some t =>
    rw [Option.getD_some, detect_honest (henv x t hlookup)]
    trivial

theorem holds_join {ts : List Ty} (hts : ∀ t ∈ ts, t.Honest) :
    FailsOnly (Failure.Holds k unbound inside) ((⟨lenient, some k⟩ : Checker).join ts) := by
  have hancestors : ∀ t ∈ ts, ∃ as, k.ancestors t = .ok as :=
    fun t ht => (hts t ht).exists_ancestors k
  rw [join, catalog_bind]
  cases hjoin : k.join ts with
  | error e => trivial
  | ok a =>
    cases a with
    | failure f =>
      obtain ⟨rfl, hcommon⟩ := Catalog.commonAncestors_of_join_failure hancestors hjoin
      exact hcommon
    | _ => trivial

theorem holds_branches {a b : Ty} (ha : a.Honest) (hb : b.Honest) :
    FailsOnly (Failure.Holds k unbound inside)
      ((⟨lenient, some k⟩ : Checker).branches a b) := by
  rw [branches, catalog_bind]
  split
  · trivial
  · exact holds_join (List.forall_mem_cons.mpr ⟨ha, List.forall_mem_singleton.mpr hb⟩)

theorem holds_headers {good : Failure → Prop} : ∀ {bs : List Binding},
    (∀ b ∈ bs, b.value.header? = none →
      good (.letrecRequiresProcedures (Phrase.binding b).occurrence)) →
    FailsOnly good (headers bs)
  | [], _ => trivial
  | b :: bs, hbs => by
      obtain ⟨hb, hbs⟩ := List.forall_mem_cons.mp hbs
      rw [headers]
      cases hheader : b.value.header? with
      | none => exact hb hheader
      | some h => exact (holds_headers hbs).bind fun _ => trivial

theorem holds_expectHeaders : ∀ {bs : List Binding} {hs : List Ty},
    (∀ b ∈ bs, b.param.type.Honest) → (∀ b ∈ bs, inside (.binding b)) →
    FailsOnly (Failure.Holds k unbound inside)
      ((⟨lenient, some k⟩ : Checker).expectHeaders bs hs)
  | [], _, _, _ => trivial
  | _ :: _, [], _, _ => trivial
  | b :: bs, h :: hs, hparams, hinside => by
      obtain ⟨hparam, hparams⟩ := List.forall_mem_cons.mp hparams
      obtain ⟨hb, hbs⟩ := List.forall_mem_cons.mp hinside
      rw [expectHeaders]
      exact (holds_expect hparam hb).bind fun _ => holds_expectHeaders hparams hbs

theorem holds_armFields {arm : Arm} (harm : inside (.arm arm)) :
    FailsOnly (Failure.Holds k unbound inside)
      ((⟨lenient, some k⟩ : Checker).armFields arm) := by
  rw [armFields, catalog_bind]
  split
  · rename_i hnone
    exact ⟨⟨arm, harm, rfl⟩, Catalog.record?_isNone_iff.mp (by rw [hnone]; rfl)⟩
  · split
    · rename_i hlength
      exact ⟨by exact_mod_cast Ne.symm hlength, .inr ⟨arm, harm, rfl, rfl⟩⟩
    · trivial

/-- Inside a frame of its names a phrase has fewer free names left. -/
theorem holds_enter {α : Type} {good : Failure → Prop} {env : Env} {used names : List String}
    {types : List Ty} {f : Env → Except Halt α} (henv : env.Honest)
    (htypes : ∀ t ∈ types, t.Honest) (hfree : env.BoundOr unbound (without used names))
    (hf : ∀ inner : Env, inner.Honest → inner.BoundOr unbound used → FailsOnly good (f inner)) :
    FailsOnly good (enter env names types >>= f) := by
  rw [enter, Env.extend]
  split
  · rename_i hlength
    refine hf _ (henv.bind fun e he => htypes e.2 (List.of_mem_zip he).2) (Env.BoundOr.bind ?_)
    rwa [List.map_fst_zip (Nat.le_of_eq hlength)]
  · trivial

/-! ### Sequences -/

/-- Where its free names are bound or else `unbound`, and all that stands inside it is `inside`,
    the phrase fails only for reasons that hold. -/
def Diagnoses (k : Catalog) (lenient : Bool) (unbound : String → Prop) (inside : Phrase → Prop)
    (p : Phrase) : Prop :=
  ∀ env : Env, env.Honest → env.BoundOr unbound p.freeNames → p.Within inside →
    FailsOnly (Failure.Holds k unbound inside) ((⟨lenient, some k⟩ : Checker).check p env)

theorem holds_checkInit : ∀ {ps : List Phrase} {after : List String} {env : Env},
    (∀ p ∈ ps, p.WellFormed) → (∀ p ∈ ps, Diagnoses k lenient unbound inside p) →
    (∀ p ∈ ps, p.Within inside) → env.Honest →
    env.BoundOr unbound (Phrase.freeNamesThen ps after) →
    FailsOnly (Failure.Holds k unbound inside)
      ((⟨lenient, some k⟩ : Checker).checkInit ps env)
  | [], _, _, _, _, _, _, _ => trivial
  | p :: ps, after, env, hps, hdiagnoses, hwithin, henv, hfree => by
      obtain ⟨hp, hps⟩ := List.forall_mem_cons.mp hps
      obtain ⟨hdiagnosis, hdiagnoses⟩ := List.forall_mem_cons.mp hdiagnoses
      obtain ⟨hpin, hwithin⟩ := List.forall_mem_cons.mp hwithin
      rw [Phrase.freeNamesThen, Env.BoundOr.append_iff] at hfree
      rw [checkInit]
      refine (hdiagnosis env henv hfree.1 hpin).bind fun _ => ?_
      exact holds_checkInit hps hdiagnoses hwithin (hp.honest_scope henv) hfree.2.scope

theorem holds_checkBody {body : Body} {env : Env} (hbody : ∀ p ∈ body.toList, p.WellFormed)
    (hdiagnoses : ∀ p ∈ body.toList, Diagnoses k lenient unbound inside p)
    (hwithin : ∀ p ∈ body.toList, p.Within inside) (henv : env.Honest)
    (hfree : env.BoundOr unbound body.freeNames) :
    FailsOnly (Failure.Holds k unbound inside)
      ((⟨lenient, some k⟩ : Checker).checkBody body env) := by
  obtain ⟨init, last⟩ := body
  obtain ⟨hinit, -⟩ := List.forall_mem_append.mp hbody
  obtain ⟨hdinit, hdlast⟩ := List.forall_mem_append.mp hdiagnoses
  obtain ⟨hwinit, hwlast⟩ := List.forall_mem_append.mp hwithin
  rw [Body.freeNames] at hfree
  rw [checkBody]
  refine (holds_checkInit hinit hdinit hwinit henv hfree).bind fun _ => ?_
  exact hdlast last List.mem_cons_self _ (honest_scopeAfter hinit henv) hfree.scopeAfter
    (hwlast last List.mem_cons_self)

theorem holds_checkArgs : ∀ {args : List Phrase} {params : List Ty} {env : Env},
    (∀ a ∈ args, Diagnoses k lenient unbound inside a) → (∀ a ∈ args, a.Within inside) →
    (∀ t ∈ params, t.Honest) → env.Honest → env.BoundOr unbound (Phrase.freeNamesEach args) →
    FailsOnly (Failure.Holds k unbound inside)
      ((⟨lenient, some k⟩ : Checker).checkArgs args params env)
  | [], _, _, _, _, _, _, _ => trivial
  | _ :: _, [], _, _, _, _, _, _ => trivial
  | arg :: args, param :: params, env, hdiagnoses, hwithin, hparams, henv, hfree => by
      obtain ⟨hdiagnosis, hdiagnoses⟩ := List.forall_mem_cons.mp hdiagnoses
      obtain ⟨harg, hwithin⟩ := List.forall_mem_cons.mp hwithin
      obtain ⟨hparam, hparams⟩ := List.forall_mem_cons.mp hparams
      rw [Phrase.freeNamesEach, Env.BoundOr.append_iff] at hfree
      rw [checkArgs]
      refine (hdiagnosis env henv hfree.1 harg).bind fun _ => ?_
      refine (holds_expectArg hparam harg.self).bind fun _ => ?_
      exact holds_checkArgs hdiagnoses hwithin hparams henv hfree.2

theorem holds_checkBindings : ∀ {bs : List Binding} {env : Env},
    (∀ b ∈ bs, b.param.type.Honest) →
    (∀ b ∈ bs, Diagnoses k lenient unbound inside b.value) →
    (∀ b ∈ bs, (Phrase.binding b).Within inside) → env.Honest →
    env.BoundOr unbound (Binding.freeNamesEach bs) →
    FailsOnly (Failure.Holds k unbound inside)
      ((⟨lenient, some k⟩ : Checker).checkBindings bs env)
  | [], _, _, _, _, _, _ => trivial
  | ⟨i, param, value⟩ :: bs, env, hparams, hdiagnoses, hwithin, henv, hfree => by
      obtain ⟨hparam, hparams⟩ := List.forall_mem_cons.mp hparams
      obtain ⟨hdiagnosis, hdiagnoses⟩ := List.forall_mem_cons.mp hdiagnoses
      obtain ⟨hb, hwithin⟩ := List.forall_mem_cons.mp hwithin
      rw [Binding.freeNamesEach, Env.BoundOr.append_iff] at hfree
      rw [checkBindings]
      refine (hdiagnosis env henv hfree.1 hb.value).bind fun _ => ?_
      refine (holds_expect hparam hb.self).bind fun _ => ?_
      exact holds_checkBindings hparams hdiagnoses hwithin henv hfree.2

theorem holds_checkValues : ∀ {bs : List Binding} {env : Env},
    (∀ b ∈ bs, Diagnoses k lenient unbound inside b.value) →
    (∀ b ∈ bs, (Phrase.binding b).Within inside) → env.Honest →
    env.BoundOr unbound (Binding.freeNamesEach bs) →
    FailsOnly (Failure.Holds k unbound inside)
      ((⟨lenient, some k⟩ : Checker).checkValues bs env)
  | [], _, _, _, _, _ => trivial
  | ⟨i, param, value⟩ :: bs, env, hdiagnoses, hwithin, henv, hfree => by
      obtain ⟨hdiagnosis, hdiagnoses⟩ := List.forall_mem_cons.mp hdiagnoses
      obtain ⟨hb, hwithin⟩ := List.forall_mem_cons.mp hwithin
      rw [Binding.freeNamesEach, Env.BoundOr.append_iff] at hfree
      rw [checkValues]
      refine (hdiagnosis env henv hfree.1 hb.value).bind fun _ => ?_
      exact holds_checkValues hdiagnoses hwithin henv hfree.2

theorem holds_checkArm (hk : k.Honest) {arm : Arm} {env : Env}
    (hbody : ∀ p ∈ arm.body.toList, p.WellFormed)
    (hdiagnoses : ∀ p ∈ arm.body.toList, Diagnoses k lenient unbound inside p)
    (hwithin : (Phrase.arm arm).Within inside) (henv : env.Honest)
    (hfree : env.BoundOr unbound (without arm.body.freeNames arm.pattern)) :
    FailsOnly (Failure.Holds k unbound inside)
      ((⟨lenient, some k⟩ : Checker).checkArm arm env) := by
  have hmembers := hwithin.body
  obtain ⟨i, record, pattern, body⟩ := arm
  rw [checkArm]
  exact (holds_armFields hwithin.self).bind_settled (settles_armFields _ hk) fun fields hfields =>
    holds_enter henv hfields.2 hfree fun inner hinner hused =>
      holds_checkBody hbody hdiagnoses hmembers hinner hused

theorem holds_checkArms (hk : k.Honest) : ∀ {arms : List Arm} {env : Env},
    (∀ a ∈ arms, ∀ p ∈ a.body.toList, p.WellFormed) →
    (∀ a ∈ arms, ∀ p ∈ a.body.toList, Diagnoses k lenient unbound inside p) →
    (∀ a ∈ arms, (Phrase.arm a).Within inside) → env.Honest →
    env.BoundOr unbound (Arm.freeNamesEach arms) →
    FailsOnly (Failure.Holds k unbound inside)
      ((⟨lenient, some k⟩ : Checker).checkArms arms env)
  | [], _, _, _, _, _, _ => trivial
  | ⟨i, record, pattern, body⟩ :: arms, env, harms, hdiagnoses, hwithin, henv, hfree => by
      obtain ⟨harm, harms⟩ := List.forall_mem_cons.mp harms
      obtain ⟨hdiagnosis, hdiagnoses⟩ := List.forall_mem_cons.mp hdiagnoses
      obtain ⟨ha, hwithin⟩ := List.forall_mem_cons.mp hwithin
      rw [Arm.freeNamesEach, Env.BoundOr.append_iff] at hfree
      rw [checkArms]
      refine (holds_checkArm hk harm hdiagnosis ha henv hfree.1).bind fun _ => ?_
      exact (holds_checkArms hk harms hdiagnoses hwithin henv hfree.2).bind fun _ => trivial

/-! ### The whole -/

/-- Well-formed code fails only for reasons that hold of it. -/
theorem diagnoses_of_wellFormed (hk : k.Honest) {p : Phrase} (hp : p.WellFormed) :
    Diagnoses k lenient unbound inside p := by
  -- the code is taken apart; what is free and what stands inside passes from a form to its parts
  induction hp with intro env henv hfree hwithin
  | literal htype =>
    rw [check, htype]
    trivial
  | quotation =>
    rw [check]
    trivial
  | operator =>
    rw [check]
    split
    · trivial
    · rename_i hnone
      exact ⟨⟨_, hwithin.self⟩, Operator.signature?_eq_none hnone⟩
  | «variable» =>
    rw [Phrase.freeNames] at hfree
    rw [check]
    exact holds_lookup henv (hfree _ List.mem_cons_self)
  | @cond i test thenPart elsePart htest hthen helse ihtest ihthen ihelse =>
    rw [Phrase.freeNames, Env.BoundOr.append_iff, Env.BoundOr.append_iff] at hfree
    obtain ⟨⟨hftest, hfthen⟩, hfelse⟩ := hfree
    have hparts : ∀ q ∈ [test, thenPart, elsePart], q.Within inside := fun q hq => hwithin.part hq
    obtain ⟨hwtest, hwthen, hwelse, -⟩ := by simpa only [List.forall_mem_cons] using hparts
    rw [check]
    refine (ihtest env henv hftest hwtest).bind fun _ => ?_
    refine (holds_expect .atom hwtest.self).bind fun _ => ?_
    refine (ihthen env henv hfthen hwthen).bind_settled (checks_of_wellFormed hk hthen env henv)
      fun a ha => ?_
    exact (ihelse env henv hfelse hwelse).bind_settled (checks_of_wellFormed hk helse env henv)
      fun b hb => holds_branches ha hb
  | lambda hparams hresult hbody ihbody =>
    rw [Phrase.freeNames] at hfree
    rw [check]
    refine (holds_checkBody hbody ihbody (fun p hp => hwithin.part hp)
      (henv.bind (Param.honest_entries hparams)) (Env.BoundOr.bind ?_)).bind fun _ => ?_
    · rwa [Param.entries, List.map_map]
    · exact (holds_expect hresult hwithin.self).bind fun _ => trivial
  | @call i fn args hfn hargs ihfn ihargs =>
    rw [Phrase.freeNames, Env.BoundOr.append_iff] at hfree
    rw [check]
    refine (ihfn env henv hfree.1 (hwithin.part List.mem_cons_self)).bind_settled
      (checks_of_wellFormed hk hfn env henv) fun t ht => ?_
    split
    · cases ht with
      | proc hparams hresult =>
        split
        · rename_i hlength
          exact ⟨by exact_mod_cast hlength, .inl ⟨i, fn, args, hwithin.self, rfl, rfl⟩⟩
        · refine (holds_checkArgs ihargs (fun a ha => hwithin.part (List.mem_cons_of_mem _ ha))
            hparams henv hfree.2).bind fun _ => ?_
          rw [inherit_honest hresult]
          trivial
    · rename_i hproc
      exact ⟨⟨i, fn, args, hwithin.self, rfl⟩, hproc⟩
  | letIn hparams hvalues hbody ihvalues ihbody =>
    rw [Phrase.freeNames, Env.BoundOr.append_iff] at hfree
    rw [check]
    refine (holds_checkBindings hparams ihvalues (fun b hb => hwithin.part
      (List.mem_append_left _ (List.mem_map_of_mem hb))) henv hfree.1).bind fun _ => ?_
    refine holds_checkBody hbody ihbody (fun p hp => hwithin.part (List.mem_append_right _ hp))
      (henv.bind (Param.honest_entries (List.forall_mem_map.mpr hparams))) (Env.BoundOr.bind ?_)
    rw [Param.entries, List.map_map, List.map_map]
    exact hfree.2
  | @letrec i bindings body hparams hvalues hbody ihvalues ihbody =>
    have hbindings : ∀ b ∈ bindings, (Phrase.binding b).Within inside := fun b hb =>
      hwithin.part (List.mem_append_left _ (List.mem_map_of_mem hb))
    rw [Phrase.freeNames] at hfree
    rw [check]
    refine (holds_headers fun b hb hnone => ?_).bind_settled (settles_headers hvalues)
      fun hs hheaders => ?_
    · refine ⟨i, bindings, body, b, hwithin.self, hb, rfl, fun j params result inner hvalue => ?_⟩
      rw [hvalue] at hnone
      cases hnone
    refine (holds_expectHeaders hparams fun b hb => (hbindings b hb).self).bind fun _ => ?_
    refine holds_enter henv hheaders.2 hfree fun inner hinner hused => ?_
    rw [Env.BoundOr.append_iff] at hused
    refine (holds_checkValues ihvalues hbindings hinner hused.1).bind fun _ => ?_
    exact holds_checkBody hbody ihbody (fun p hp => hwithin.part (List.mem_append_right _ hp))
      hinner hused.2
  | define hparam hvalue ihvalue =>
    rw [Phrase.freeNames] at hfree
    rw [check]
    have hentries := Param.honest_entries (List.forall_mem_singleton.mpr hparam)
    refine (ihvalue _ (henv.bind hentries) (Env.BoundOr.bind hfree)
      (hwithin.part List.mem_cons_self)).bind fun _ => ?_
    exact (holds_expect hparam hwithin.self).bind fun _ => trivial
  | @assign i x value hvalue ihvalue =>
    rw [Phrase.freeNames] at hfree
    obtain ⟨hx, hfvalue⟩ := List.forall_mem_cons.mp hfree
    rw [check]
    refine (ihvalue env henv hfvalue (hwithin.part List.mem_cons_self)).bind fun _ => ?_
    refine (holds_lookup henv hx).bind_settled (settles_lookup henv x) fun target htarget => ?_
    split
    · trivial
    · exact (holds_expect htarget hwithin.self).bind fun _ => trivial
  | defineType =>
    rw [check, expectDeclarations, catalog_bind]
    split
    · rename_i f hf
      exact Catalog.holds_declarationFault hwithin.self hf
    · trivial
  | @typeCase i type subject arms hsubject harms ihsubject iharms =>
    have hwarms : ∀ a ∈ arms, (Phrase.arm a).Within inside := fun a ha =>
      hwithin.part (List.mem_cons_of_mem _ (List.mem_map_of_mem ha))
    have hwsubject : subject.Within inside := hwithin.part List.mem_cons_self
    rw [Phrase.freeNames, Env.BoundOr.append_iff] at hfree
    have hjoin : FailsOnly (Failure.Holds k unbound inside)
        ((⟨lenient, some k⟩ : Checker).checkArms arms env >>=
          (⟨lenient, some k⟩ : Checker).join) :=
      (holds_checkArms hk harms iharms hwarms henv hfree.2).bind_settled
        (settles_checkArms hk harms (fun a ha p hp => checks_of_wellFormed hk (harms a ha p hp))
          henv) fun _ hts => holds_join hts
    rw [check]
    split
    · exact hjoin
    · rw [expectCases, catalog_bind]
      refine FailsOnly.bind ?_ fun _ => ?_
      · split
        · rename_i f hf
          exact Catalog.holds_caseFault hwithin.self (fun a ha => (hwarms a ha).self) hf
        · trivial
      refine (ihsubject env henv hfree.1 hwsubject).bind fun _ => ?_
      exact (holds_expect .named hwsubject.self).bind fun _ => hjoin

end Checker

/-- A failure comes out of a report only where the check came to it. -/
theorem Report.failed_of_conclude {r : Report} {x : Except Halt Ty} {f : Failure}
    (hx : Settles Ty.Honest x) (h : (r.conclude x).1 = .ok (.failure f)) :
    x = .error (.failed f) := by
  rcases x with (g | g | e) | t
  · rw [conclude] at h
    cases hfail : (r.fail g).1 with
    | error e =>
      rw [hfail] at h
      cases h
    | ok _ =>
      rw [hfail] at h
      cases h
      rfl
  · exact absurd hx id
  · exact absurd hx id
  · cases h
    cases hx

/-- A failure that an expression is given says something true of it: the names it calls unbound are
    free and stand for nothing, the places it points to are inside, and what it finds fault with is
    at fault. -/
theorem typeOfExpression_failure_holds (program : Program) (e : Phrase) (env : Env) (r : Report)
    (lenient : Bool) (f : Failure) (hprogram : program.WellFormed) (he : e.WellFormed)
    (henv : env.Honest)
    (hf : (typeOfExpression e env program r lenient).verdict = .ok (.failure f)) :
    f.Holds program.catalog (fun x => x ∈ e.freeNames ∧ env.lookup? x = none) e.Contains := by
  have hk : program.catalog.Honest := hprogram.honest_catalog
  have hcheck : (⟨lenient, some program.catalog⟩ : Checker).check e env = .error (.failed f) :=
    Report.failed_of_conclude (Checker.checks_of_wellFormed hk he env henv)
      (typeOfExpression_eq .. ▸ hf)
  have honly : FailsOnly
      (Failure.Holds program.catalog (fun x => x ∈ e.freeNames ∧ env.lookup? x = none) e.Contains)
      ((⟨lenient, some program.catalog⟩ : Checker).check e env) :=
    Checker.diagnoses_of_wellFormed hk he env henv (fun x hx hnone => ⟨hx, hnone⟩) fun q hq => hq
  rw [hcheck] at honly
  exact honly

/-- A sum with an `x` that is a string there, whatever it is outside. -/
def misfit : Phrase :=
  .letIn 0 [⟨1, ⟨"x", .string⟩, .literal 2 (.text "a")⟩]
    ⟨[], .call 3 (.operator 4 "+") [.literal 5 (.int 1), .variable 6 "x"]⟩

/-- What is wrong with it: the string, at the place where it is added. -/
def misfitFailure : Failure := .incompatible .string .number (Phrase.variable 6 "x").occurrence

theorem typeOfExpression_failure_holds_misfit :
    (typeOfExpression misfit (Env.bind [] [("x", .number)]) ⟨[], misfit⟩ {} false).verdict =
        .ok (.failure misfitFailure) ∧
      misfitFailure.Holds (Body.catalog ⟨[], misfit⟩)
        (fun x => x ∈ misfit.freeNames ∧ (Env.bind [] [("x", .number)]).lookup? x = none)
        misfit.Contains := by
  have hargs : ∀ a ∈ [Phrase.literal 5 (.int 1), .variable 6 "x"], a.WellFormed :=
    List.forall_mem_cons.mpr ⟨.literal rfl, List.forall_mem_singleton.mpr .variable⟩
  have hmisfit : misfit.WellFormed :=
    .letIn (List.forall_mem_singleton.mpr .atom) (List.forall_mem_singleton.mpr (.literal rfl))
      (List.forall_mem_singleton.mpr (.call .operator hargs))
  have henv : Env.Honest (Env.bind [] [("x", .number)]) :=
    Env.Honest.bind (fun _ _ h => nomatch h) (List.forall_mem_singleton.mpr .atom)
  exact ⟨rfl, typeOfExpression_failure_holds ⟨[], misfit⟩ misfit _ {} false misfitFailure
    (List.forall_mem_singleton.mpr hmisfit) hmisfit henv rfl⟩

end VariantScheme
