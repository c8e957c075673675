import VariantScheme.Proofs.CaseFaults
import VariantScheme.Proofs.WellFormed

/-!
    Checking well-formed code always comes to an end of its own, strictly or leniently: an honest
    type, or a failure that can be explained wherever its place can be shown. Nothing is refused on
    the way. A step that does so `Settles`; each step of the checker does when it is given honest
    types, and so does the whole, by induction over the code. -/

namespace VariantScheme

/-- The kinds of failure that a check can come to. That a name is not found is said by lookups in
    a catalog alone, and the general notion is nobody's verdict. -/
def Failure.isDiagnosis : Failure → Bool
  | .notFound _ | .unspecified => false
  | _ => true

/-- The place that a failure points to, if there is one. -/
def Failure.site? : Failure → Option Occurrence
  | .incompatible _ _ site | .notAProcedure _ site | .arityMismatch site _ _
  | .letrecRequiresProcedures site => some site
  | _ => none

/-- A diagnosis that can be told to the reader, if only its place can be shown. -/
structure Failure.Explicable (f : Failure) : Prop where
  kind : f.isDiagnosis = true
  explained : (∀ site, f.site? = some site → ∃ text, site.text = .ok text) →
    ∃ issue, f.explain = .ok issue

/-- A verdict on some code: what it is, or what is wrong with it. -/
def Ty.IsVerdict (t : Ty) : Prop := t.Honest ∨ ∃ f, t = .failure f ∧ f.isDiagnosis = true

/-- The step comes out well, or ends in a diagnosis. -/
def Settles {α : Type} (good : α → Prop) : Except Halt α → Prop
  | .ok a => good a
  | .error (.failed f) => f.Explicable
  | .error _ => False

theorem Settles.bind {α β : Type} {good : α → Prop} {better : β → Prop} {x : Except Halt α}
    {f : α → Except Halt β} (hx : Settles good x) (hf : ∀ a, good a → Settles better (f a)) :
    Settles better (x >>= f) := by
  rcases x with (_ | _ | _) | a
  · exact hx
  · exact hx
  · exact hx
  · exact hf a hx

/-! ### Explanations -/

theorem Ty.Honest.exists_told {t : Ty} (h : t.Honest) : ∃ text, t.told = .ok text := by
  obtain ⟨text, htext⟩ := h.exists_render
  exact ⟨text, by rw [Ty.told, htext]; rfl⟩

theorem Occurrence.exists_exhibit {site : Occurrence} (h : ∃ text, site.text = .ok text)
    (caption : String) : ∃ x, site.exhibit caption = .ok x := by
  obtain ⟨text, htext⟩ := h
  exact ⟨⟨text, caption⟩, by rw [Occurrence.exhibit, htext]; rfl⟩

namespace Failure

variable {t u : Ty} (site : Occurrence)

/-- A failure that quotes nothing but names can always be explained. -/
theorem Explicable.of_ok {f : Failure} {issue : Issue} (hkind : f.isDiagnosis = true)
    (h : f.explain = .ok issue) : f.Explicable :=
  ⟨hkind, fun _ => ⟨issue, h⟩⟩

theorem explicable_incompatible (ht : t.Honest) (hu : u.Honest) :
    (Failure.incompatible t u site).Explicable := by
  refine ⟨rfl, fun hplace => ?_⟩
  obtain ⟨c, hc⟩ := ht.exists_told
  obtain ⟨e, he⟩ := hu.exists_told
  obtain ⟨x, hx⟩ := Occurrence.exists_exhibit (hplace site rfl) "in here"
  exact ⟨_, by rw [Failure.explain, hc, he, hx]; rfl⟩

theorem explicable_notAProcedure (ht : t.Honest) : (Failure.notAProcedure t site).Explicable := by
  refine ⟨rfl, fun hplace => ?_⟩
  obtain ⟨c, hc⟩ := ht.exists_told
  obtain ⟨x, hx⟩ := Occurrence.exists_exhibit (hplace site rfl) ""
  exact ⟨_, by rw [Failure.explain, hc, hx]; rfl⟩

theorem explicable_arityMismatch (need got : Int) :
    (Failure.arityMismatch site need got).Explicable := by
  refine ⟨rfl, fun hplace => ?_⟩
  obtain ⟨x, hx⟩ := Occurrence.exists_exhibit (hplace site rfl) (arityCaption need got)
  exact ⟨_, by rw [Failure.explain, hx]; rfl⟩

theorem explicable_letrecRequiresProcedures :
    (Failure.letrecRequiresProcedures site).Explicable := by
  refine ⟨rfl, fun hplace => ?_⟩
  obtain ⟨x, hx⟩ := Occurrence.exists_exhibit (hplace site rfl) ""
  exact ⟨_, by rw [Failure.explain, hx]; rfl⟩

theorem explicable_noCommonType {ts : List Ty} (hts : ∀ t ∈ ts, t.Honest) :
    (Failure.noCommonType ts).Explicable := by
  obtain ⟨names, hnames⟩ := exists_mapM fun t ht => (hts t ht).exists_told
  exact .of_ok rfl (by rw [Failure.explain, hnames]; rfl)

end Failure

/-! ### Honest types stay honest -/

theorem detect_honest {t : Ty} (h : t.Honest) : detect t = .ok t := by
  cases h <;> rfl

theorem inherit_honest {t : Ty} (h : t.Honest) : inherit t = .ok t := by
  cases h <;> rfl

theorem Datum.honest_of_type? {d : Datum} {t : Ty} (h : d.type? = some t) : t.Honest := by
  cases d <;> cases h <;> exact .atom

theorem Operator.honest_of_signature? {op : String} {s : Site} {t : Ty}
    (h : Operator.signature? op s = some t) : t.Honest := by
  obtain ⟨params, result, rfl, hparams⟩ := Operator.signature?_shape h
  refine .proc (fun p hp => ?_) .atom
  rcases hparams p hp with ⟨n, rfl⟩ | ⟨n, rfl⟩
  · exact .atom
  · exact .var

theorem Catalog.Above.honest {k : Catalog} {t a : Ty} (h : k.Above t a) (ht : t.Honest) :
    a.Honest := by
  cases h with
  | atom | quoted | var | proc => exact ht
  | variant | declared | listed => exact .named

theorem Ty.Honest.exists_ancestors {t : Ty} (h : t.Honest) (k : Catalog) :
    ∃ as, k.ancestors t = .ok as := by
  cases h <;> exact ⟨_, rfl⟩

theorem Phrase.WellFormed.honest_header {p : Phrase} {h : Ty} (hp : p.WellFormed)
    (hh : p.header? = some h) : h.Honest := by
  cases hp with
  | lambda hparams hresult _ =>
    obtain rfl := Option.some.inj hh
    refine .proc (fun t ht => ?_) hresult
    obtain ⟨x, hx, rfl⟩ := List.mem_map.mp ht
    exact hparams x hx
  | _ => cases hh

theorem Phrase.WellFormed.honest_scope {p : Phrase} {env : Env} (hp : p.WellFormed)
    (henv : env.Honest) : (p.scope env).Honest := by
  cases hp with
  | define hparam =>
    exact henv.bind (Param.honest_entries (List.forall_mem_singleton.mpr hparam))
  | _ => exact henv

theorem honest_scopeAfter : ∀ {ps : List Phrase} {env : Env}, (∀ p ∈ ps, p.WellFormed) →
    env.Honest → (scopeAfter ps env).Honest
  | [], _, _, henv => henv
  | p :: ps, env, hps, henv => by
      obtain ⟨hp, hps⟩ := List.forall_mem_cons.mp hps
      rw [Checker.scopeAfter_cons]
      exact honest_scopeAfter hps (hp.honest_scope henv)

namespace Checker

variable {k : Catalog} {lenient : Bool}

/-! ### The steps -/

theorem settles_expect {a d : Ty} (site : Phrase) (ha : a.Honest) (hd : d.Honest) :
    Settles (fun _ => True) ((⟨lenient, some k⟩ : Checker).expect a d site) := by
  have hcomp : Settles Ty.Honest (detect (k.compatible a d site)) := by
    rw [Catalog.compatible]
    split
    · rw [detect_honest hd]
      exact hd
    · exact Failure.explicable_incompatible _ ha hd
  exact hcomp.bind fun _ _ => trivial

/-- A name stands for an honest type, or for the diagnosis that it is unbound. -/
theorem settles_lookup {env : Env} (henv : env.Honest) (x : String) :
    Settles Ty.Honest (detect (env.lookup x)) := by
  rw [Env.lookup]
  cases hx : env.lookup? x with
  | none => exact .of_ok rfl rfl
  | some t =>
    rw [Option.getD_some, detect_honest (henv x t hx)]
    exact henv x t hx

theorem settles_expectArg {a param : Ty} (arg : Phrase) (ha : a.Honest) (hparam : param.Honest) :
    Settles (fun _ => True) ((⟨lenient, some k⟩ : Checker).expectArg a param arg) := by
  rw [expectArg]
  split
  · trivial
  · exact settles_expect arg ha hparam

theorem settles_join {ts : List Ty} (hts : ∀ t ∈ ts, t.Honest) :
    Settles Ty.Honest ((⟨lenient, some k⟩ : Checker).join ts) := by
  rw [join, catalog_bind]
  rcases Catalog.join_of_ancestors fun t ht => (hts t ht).exists_ancestors k with
    hnone | ⟨a, ha, hjoins⟩
  · rw [hnone]
    exact Failure.explicable_noCommonType hts
  · have hhonest : a.Honest := by
      cases ts with
      | nil => cases hjoins
      | cons t ts => exact (hjoins.aboveAll t List.mem_cons_self).honest (hts t List.mem_cons_self)
    have hdetect : Settles Ty.Honest (detect a) := by
      rw [detect_honest hhonest]
      exact hhonest
    rw [ha]
    exact hdetect

theorem settles_branches {a b : Ty} (ha : a.Honest) (hb : b.Honest) :
    Settles Ty.Honest ((⟨lenient, some k⟩ : Checker).branches a b) := by
  rw [branches, catalog_bind]
  split
  · exact hb
  · exact settles_join (List.forall_mem_cons.mpr ⟨ha, List.forall_mem_singleton.mpr hb⟩)

/-- Names are bound to types only where the two are equally many. -/
theorem settles_enter {env : Env} {names : List String} {types : List Ty}
    (hlength : names.length = types.length) (henv : env.Honest) (htypes : ∀ t ∈ types, t.Honest) :
    Settles Env.Honest (enter env names types) := by
  rw [enter, Env.extend, if_pos hlength]
  exact henv.bind fun e he => htypes e.2 (List.of_mem_zip he).2

/-- Headers come out one for each binding. -/
theorem settles_headers : ∀ {bs : List Binding}, (∀ b ∈ bs, b.value.WellFormed) →
    Settles (fun hs => bs.length = hs.length ∧ ∀ h ∈ hs, h.Honest) (headers bs)
  | [], _ => ⟨rfl, fun _ hh => absurd hh List.not_mem_nil⟩
  | b :: bs, hvalues => by
      obtain ⟨hvalue, hvalues⟩ := List.forall_mem_cons.mp hvalues
      rw [headers]
      cases hb : b.value.header? with
      | none => exact Failure.explicable_letrecRequiresProcedures _
      | some h =>
        refine (settles_headers hvalues).bind fun hs hhs => ?_
        exact ⟨congrArg (· + 1) hhs.1,
          List.forall_mem_cons.mpr ⟨hvalue.honest_header hb, hhs.2⟩⟩

theorem settles_expectHeaders : ∀ {bs : List Binding} {hs : List Ty},
    (∀ b ∈ bs, b.param.type.Honest) → (∀ h ∈ hs, h.Honest) →
    Settles (fun _ => True) ((⟨lenient, some k⟩ : Checker).expectHeaders bs hs)
  | [], _, _, _ => trivial
  | _ :: _, [], _, _ => trivial
  | b :: bs, h :: hs, hparams, hheaders => by
      obtain ⟨hparam, hparams⟩ := List.forall_mem_cons.mp hparams
      obtain ⟨hheader, hheaders⟩ := List.forall_mem_cons.mp hheaders
      rw [expectHeaders]
      refine (settles_expect (.binding b) hheader hparam).bind fun _ _ => ?_
      exact settles_expectHeaders hparams hheaders

theorem settles_armFields (arm : Arm) (hk : k.Honest) :
    Settles (fun ts => arm.pattern.length = ts.length ∧ ∀ t ∈ ts, t.Honest)
      ((⟨lenient, some k⟩ : Checker).armFields arm) := by
  rw [armFields, catalog_bind]
  split
  · exact .of_ok rfl rfl
  · rename_i r hr
    split
    · exact Failure.explicable_arityMismatch _ _ _
    · rename_i hlength
      refine ⟨?_, hk.fields r (Catalog.record?_mem hr).1⟩
      rw [Record.fieldTypes, List.length_map]
      exact not_not.mp hlength

/-! ### Faults are diagnoses -/

theorem explicable_armFault {type : String} {v : Variant} {arm : Arm} {f : Failure}
    (h : k.ArmFault type v arm f) : f.Explicable := by
  cases h with
  | unknownRecord | notACase => exact .of_ok rfl rfl
  | arityMismatch => exact Failure.explicable_arityMismatch _ _ _

theorem explicable_caseFault {type : String} {arms : List Arm} {f : Failure}
    (h : k.caseFault? type arms = some f) : f.Explicable := by
  cases Catalog.caseFault_of_caseFault? h with
  | unknownType | duplicateCase | notExhaustive => exact .of_ok rfl rfl
  | wrongArm _ _ _ _ wrong => exact explicable_armFault wrong

theorem explicable_declarationFault {f : Failure} (h : k.declarationFault? = some f) :
    f.Explicable := by
  rcases Option.or_eq_some_iff.mp h with h | ⟨-, h⟩
  · obtain ⟨n, -, rfl⟩ := Option.map_eq_some_iff.mp h
    exact .of_ok rfl rfl
  · obtain ⟨n, -, rfl⟩ := Option.map_eq_some_iff.mp h
    exact .of_ok rfl rfl

theorem settles_expectCases (type : String) (arms : List Arm) :
    Settles (fun _ => True) ((⟨lenient, some k⟩ : Checker).expectCases type arms) := by
  rw [expectCases, catalog_bind]
  split
  · rename_i f hf
    exact explicable_caseFault hf
  · trivial

theorem settles_expectDeclarations :
    Settles (fun _ => True) ((⟨lenient, some k⟩ : Checker).expectDeclarations) := by
  rw [expectDeclarations, catalog_bind]
  split
  · rename_i f hf
    exact explicable_declarationFault hf
  · trivial

/-! ### Sequences -/

/-- The phrase can be checked wherever names stand for honest types. -/
def Checks (c : Checker) (p : Phrase) : Prop :=
  ∀ env : Env, env.Honest → Settles Ty.Honest (c.check p env)

theorem settles_checkInit {c : Checker} : ∀ {ps : List Phrase} {env : Env},
    (∀ p ∈ ps, p.WellFormed) → (∀ p ∈ ps, c.Checks p) → env.Honest →
    Settles (fun _ => True) (c.checkInit ps env)
  | [], _, _, _, _ => trivial
  | p :: ps, env, hps, hchecks, henv => by
      obtain ⟨hp, hps⟩ := List.forall_mem_cons.mp hps
      obtain ⟨hcheck, hchecks⟩ := List.forall_mem_cons.mp hchecks
      rw [checkInit]
      refine (hcheck env henv).bind fun _ _ => ?_
      exact settles_checkInit hps hchecks (hp.honest_scope henv)

theorem settles_checkBody {c : Checker} {body : Body} {env : Env}
    (hbody : ∀ p ∈ body.toList, p.WellFormed) (hchecks : ∀ p ∈ body.toList, c.Checks p)
    (henv : env.Honest) : Settles Ty.Honest (c.checkBody body env) := by
  obtain ⟨init, last⟩ := body
  obtain ⟨hinit, -⟩ := List.forall_mem_append.mp hbody
  obtain ⟨hchecks, hlast⟩ := List.forall_mem_append.mp hchecks
  rw [checkBody]
  refine (settles_checkInit hinit hchecks henv).bind fun _ _ => ?_
  exact hlast last List.mem_cons_self _ (honest_scopeAfter hinit henv)

theorem settles_checkArgs : ∀ {args : List Phrase} {params : List Ty} {env : Env},
    (∀ a ∈ args, (⟨lenient, some k⟩ : Checker).Checks a) → (∀ t ∈ params, t.Honest) →
    env.Honest → Settles (fun _ => True) ((⟨lenient, some k⟩ : Checker).checkArgs args params env)
  | [], _, _, _, _, _ => trivial
  | _ :: _, [], _, _, _, _ => trivial
  | arg :: args, param :: params, env, hchecks, hparams, henv => by
      obtain ⟨hcheck, hchecks⟩ := List.forall_mem_cons.mp hchecks
      obtain ⟨hparam, hparams⟩ := List.forall_mem_cons.mp hparams
      rw [checkArgs]
      refine (hcheck env henv).bind fun t ht => ?_
      refine (settles_expectArg arg ht hparam).bind fun _ _ => ?_
      exact settles_checkArgs hchecks hparams henv

theorem settles_checkBindings : ∀ {bs : List Binding} {env : Env},
    (∀ b ∈ bs, b.param.type.Honest) →
    (∀ b ∈ bs, (⟨lenient, some k⟩ : Checker).Checks b.value) → env.Honest →
    Settles (fun _ => True) ((⟨lenient, some k⟩ : Checker).checkBindings bs env)
  | [], _, _, _, _ => trivial
  | ⟨i, param, value⟩ :: bs, env, hparams, hchecks, henv => by
      obtain ⟨hparam, hparams⟩ := List.forall_mem_cons.mp hparams
      obtain ⟨hcheck, hchecks⟩ := List.forall_mem_cons.mp hchecks
      rw [checkBindings]
      refine (hcheck env henv).bind fun t ht => ?_
      refine (settles_expect _ ht hparam).bind fun _ _ => ?_
      exact settles_checkBindings hparams hchecks henv

theorem settles_checkValues {c : Checker} : ∀ {bs : List Binding} {env : Env},
    (∀ b ∈ bs, c.Checks b.value) → env.Honest → Settles (fun _ => True) (c.checkValues bs env)
  | [], _, _, _ => trivial
  | ⟨i, param, value⟩ :: bs, env, hchecks, henv => by
      obtain ⟨hcheck, hchecks⟩ := List.forall_mem_cons.mp hchecks
      rw [checkValues]
      exact (hcheck env henv).bind fun _ _ => settles_checkValues hchecks henv

theorem settles_checkArm (hk : k.Honest) {arm : Arm} {env : Env}
    (hbody : ∀ p ∈ arm.body.toList, p.WellFormed)
    (hchecks : ∀ p ∈ arm.body.toList, (⟨lenient, some k⟩ : Checker).Checks p) (henv : env.Honest) :
    Settles Ty.Honest ((⟨lenient, some k⟩ : Checker).checkArm arm env) := by
  obtain ⟨i, record, pattern, body⟩ := arm
  rw [checkArm]
  refine (settles_armFields _ hk).bind fun fields ⟨hlength, hfields⟩ => ?_
  refine (settles_enter hlength henv hfields).bind fun inner hinner => ?_
  exact settles_checkBody hbody hchecks hinner

theorem settles_checkArms (hk : k.Honest) : ∀ {arms : List Arm} {env : Env},
    (∀ a ∈ arms, ∀ p ∈ a.body.toList, p.WellFormed) →
    (∀ a ∈ arms, ∀ p ∈ a.body.toList, (⟨lenient, some k⟩ : Checker).Checks p) → env.Honest →
    Settles (fun ts => ∀ t ∈ ts, t.Honest)
      ((⟨lenient, some k⟩ : Checker).checkArms arms env)
  | [], _, _, _, _ => fun _ ht => absurd ht List.not_mem_nil
  | arm :: arms, env, harms, hchecks, henv => by
      obtain ⟨harm, harms⟩ := List.forall_mem_cons.mp harms
      obtain ⟨hcheck, hchecks⟩ := List.forall_mem_cons.mp hchecks
      rw [checkArms]
      refine (settles_checkArm hk harm hcheck henv).bind fun t ht => ?_
      refine (settles_checkArms hk harms hchecks henv).bind fun ts hts => ?_
      exact List.forall_mem_cons.mpr ⟨ht, hts⟩

/-! ### The whole -/

/-- Well-formed code can be checked. -/
theorem checks_of_wellFormed (hk : k.Honest) {p : Phrase} (hp : p.WellFormed) :
    (⟨lenient, some k⟩ : Checker).Checks p := by
  -- the code is taken apart; the environment varies, as each form extends it in its own way
  induction hp with intro env henv
  | literal htype =>
    rw [check, htype]
    exact Datum.honest_of_type? htype
  | quotation =>
    rw [check]
    exact .quoted
  | operator =>
    rw [check]
    split
    · rename_i t ht
      exact Operator.honest_of_signature? ht
    · exact .of_ok rfl rfl
  | «variable» =>
    rw [check]
    exact settles_lookup henv _
  | cond _ _ _ ihtest ihthen ihelse =>
    rw [check]
    refine (ihtest env henv).bind fun t ht => ?_
    refine (settles_expect _ ht .atom).bind fun _ _ => ?_
    refine (ihthen env henv).bind fun a ha => ?_
    exact (ihelse env henv).bind fun b hb => settles_branches ha hb
  | @lambda i params result body hparams hresult hbody ihbody =>
    have hlambda := Phrase.WellFormed.lambda (i := i) hparams hresult hbody
    rw [check]
    refine (settles_checkBody hbody ihbody (henv.bind (Param.honest_entries hparams))).bind
      fun t ht => ?_
    refine (settles_expect _ ht hresult).bind fun _ _ => ?_
    exact hlambda.honest_header rfl
  | call _ _ ihfn ihargs =>
    rw [check]
    refine (ihfn env henv).bind fun t ht => ?_
    split
    · cases ht with
      | proc hparams hresult =>
        split
        · exact Failure.explicable_arityMismatch _ _ _
        · refine (settles_checkArgs ihargs hparams henv).bind fun _ _ => ?_
          rw [inherit_honest hresult]
          exact hresult
    · exact Failure.explicable_notAProcedure _ ht
  | letIn hparams _ hbody ihvalues ihbody =>
    rw [check]
    refine (settles_checkBindings hparams ihvalues henv).bind fun _ _ => ?_
    refine settles_checkBody hbody ihbody (henv.bind (Param.honest_entries ?_))
    exact List.forall_mem_map.mpr hparams
  | letrec hparams hvalues hbody ihvalues ihbody =>
    rw [check]
    refine (settles_headers hvalues).bind fun hs hhs => ?_
    obtain ⟨hlength, hheaders⟩ := hhs
    refine (settles_expectHeaders hparams hheaders).bind fun _ _ => ?_
    refine (settles_enter ((List.length_map _).trans hlength) henv hheaders).bind
      fun inner hinner => ?_
    exact (settles_checkValues ihvalues hinner).bind fun _ _ =>
      settles_checkBody hbody ihbody hinner
  | define hparam _ ihvalue =>
    rw [check]
    have hentries := Param.honest_entries (List.forall_mem_singleton.mpr hparam)
    refine (ihvalue _ (henv.bind hentries)).bind fun t ht => ?_
    exact (settles_expect _ ht hparam).bind fun _ _ => .atom
  | assign _ ihvalue =>
    rw [check]
    refine (ihvalue env henv).bind fun t ht => ?_
    refine (settles_lookup henv _).bind fun target htarget => ?_
    split
    · exact .var
    · exact (settles_expect _ ht htarget).bind fun _ _ => .atom
  | defineType =>
    rw [check]
    exact settles_expectDeclarations.bind fun _ _ => .atom
  | @typeCase _ _ _ arms _ harms ihsubject iharms =>
    have hjoin : Settles Ty.Honest ((⟨lenient, some k⟩ : Checker).checkArms arms env >>=
        (⟨lenient, some k⟩ : Checker).join) :=
      (settles_checkArms hk harms iharms henv).bind fun _ hts => settles_join hts
    rw [check]
    split
    · exact hjoin
    · refine (settles_expectCases _ arms).bind fun _ _ => ?_
      refine (ihsubject env henv).bind fun t ht => ?_
      exact (settles_expect _ ht .named).bind fun _ _ => hjoin

end Checker

end VariantScheme
