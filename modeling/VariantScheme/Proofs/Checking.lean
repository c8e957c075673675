import VariantScheme.Proofs.Visiting

/-!
    The strict checker decides the typing rules: it comes out with a type exactly when that type can
    be derived. Each step of the checker has a lemma that says when it goes through; `check_iff`
    joins them, form by form, along the recursion over the phrase. -/

namespace VariantScheme

/-- A computation of two steps comes out when both do. -/
theorem bind_eq_ok_iff {ε α β : Type} {x : Except ε α} {f : α → Except ε β} {b : β} :
    (x >>= f) = .ok b ↔ ∃ a, x = .ok a ∧ f a = .ok b := by
  cases x with
  | error e => simp [bind, Except.bind]
  | ok a => simp [bind, Except.bind]

theorem pure_eq_ok_iff {ε α : Type} {a b : α} : (pure a : Except ε α) = .ok b ↔ a = b := by
  simp [pure, Except.pure]

theorem mapError_eq_ok_iff {ε ε' α : Type} {x : Except ε α} {f : ε → ε'} {a : α} :
    x.mapError f = .ok a ↔ x = .ok a := by
  cases x <;> simp [Except.mapError]

theorem detect_eq_ok_iff {t u : Ty} : detect t = .ok u ↔ t = u ∧ t.isFailure = false := by
  cases t <;> simp [detect, Ty.isFailure]

theorem inherit_eq_ok_iff {t u : Ty} : inherit t = .ok u ↔ t = u ∧ t.isFailure = false := by
  cases t <;> simp [inherit, Ty.isFailure]

theorem Env.detect_lookup_iff {env : Env} {x : String} {t : Ty} :
    detect (env.lookup x) = .ok t ↔ env.lookup? x = some t ∧ t.isFailure = false := by
  rw [detect_eq_ok_iff, Env.lookup]
  cases env.lookup? x with
  | none => simp [Ty.isFailure]
  | some u =>
    simp only [Option.getD_some, Option.some.injEq]
    exact and_congr_right fun h => by rw [h]

theorem Phrase.isFailure_of_header? {p : Phrase} {t : Ty} (h : p.header? = some t) :
    t.isFailure = false := by
  cases p <;> cases h
  rfl

theorem Param.entries_params (bs : List Binding) :
    Param.entries (bs.map (·.param)) = bs.map fun b => (b.param.name, b.param.type) :=
  List.map_map

theorem Phrase.eq_define {p : Phrase} {new : Param} (h : p.definition? = some new) :
    ∃ i value, p = .define i new value := by
  cases p <;> cases h
  exact ⟨_, _, rfl⟩

namespace Checker

variable {k : Catalog} {lenient : Bool}

/-! ### The steps -/

theorem catalog_bind {α : Type} (f : Catalog → Except Halt α) :
    ((⟨lenient, some k⟩ : Checker).catalog >>= f) = f k := rfl

theorem expect_eq_ok_iff {a d : Ty} {site : Phrase} (ha : a.isFailure = false) {u : Unit} :
    (⟨lenient, some k⟩ : Checker).expect a d site = .ok u ↔ k.Fits a d := by
  simp only [expect, catalog_bind, bind_eq_ok_iff, detect_eq_ok_iff, Catalog.compatible,
    ← Catalog.fits_iff]
  split
  · rename_i hfits
    have hd : d.isFailure = false := (Catalog.fits_iff.mp hfits).isFailure_eq ha
    simp [hfits, hd, pure_eq_ok_iff]
  · rename_i hfits
    simp [hfits, Ty.isFailure]

theorem expectArg_eq_ok_iff {a param : Ty} {arg : Phrase} (ha : a.isFailure = false) {u : Unit} :
    (⟨lenient, some k⟩ : Checker).expectArg a param arg = .ok u ↔ k.Accepts param a := by
  rw [expectArg]
  split
  · rename_i hvar
    cases param <;> cases hvar
    simp only [true_iff]
    exact .slot
  · rename_i hvar
    rw [expect_eq_ok_iff ha]
    constructor
    · exact .fits
    · rintro (_ | below)
      · exact absurd rfl hvar
      · exact below

theorem join_eq_ok_iff {ts : List Ty} {t : Ty} :
    (⟨lenient, some k⟩ : Checker).join ts = .ok t ↔ k.Joins ts t := by
  simp only [join, catalog_bind, bind_eq_ok_iff, detect_eq_ok_iff, mapError_eq_ok_iff,
    ← Catalog.join_iff]
  constructor
  · rintro ⟨u, hjoin, rfl, hu⟩
    exact ⟨hjoin, hu⟩
  · rintro ⟨hjoin, ht⟩
    exact ⟨t, hjoin, rfl, ht⟩

theorem branches_eq_ok_iff {a b t : Ty} :
    (⟨lenient, some k⟩ : Checker).branches a b = .ok t ↔ k.Branches a b t := by
  rw [branches, catalog_bind]
  split
  · rename_i hfits
    rw [Catalog.fits_iff] at hfits
    rw [pure_eq_ok_iff]
    constructor
    · rintro rfl
      exact .fits hfits
    · intro h
      cases h with
      | fits => rfl
      | joins apart => exact absurd hfits apart
  · rename_i hfits
    rw [Catalog.fits_iff] at hfits
    rw [join_eq_ok_iff]
    constructor
    · exact .joins hfits
    · intro h
      cases h with
      | fits below => exact absurd below hfits
      | joins _ join => exact join

theorem headersFit_iff : ∀ {bs : List Binding} {hs : List Ty},
    k.HeadersFit bs hs ↔
      headers bs = .ok hs ∧ (⟨lenient, some k⟩ : Checker).expectHeaders bs hs = .ok ()
  | [], hs => by
      constructor
      · rintro ⟨⟩
        exact ⟨rfl, rfl⟩
      · rintro ⟨h, -⟩
        obtain rfl := Except.ok.inj h
        exact .nil
  | b :: bs, hs => by
      rw [Catalog.headersFit_cons_iff]
      cases hb : b.value.header? with
      | none => simp [headers, hb]
      | some h =>
        have hh : h.isFailure = false := Phrase.isFailure_of_header? hb
        simp only [headers, hb, bind_eq_ok_iff, pure_eq_ok_iff, Option.some.injEq]
        constructor
        · rintro ⟨_, hs, rfl, rfl, fits, rest⟩
          obtain ⟨hheaders, hexpect⟩ := headersFit_iff.mp rest
          refine ⟨⟨_, hheaders, rfl⟩, ?_⟩
          rw [expectHeaders, bind_eq_ok_iff]
          exact ⟨(), (expect_eq_ok_iff hh).mpr fits, hexpect⟩
        · rintro ⟨⟨hs, hheaders, rfl⟩, hexpect⟩
          rw [expectHeaders, bind_eq_ok_iff] at hexpect
          obtain ⟨_, hfits, hrest⟩ := hexpect
          exact ⟨h, hs, rfl, rfl, (expect_eq_ok_iff hh).mp hfits,
            headersFit_iff.mpr ⟨hheaders, hrest⟩⟩

theorem armFields_eq_ok_iff {arm : Arm} {ts : List Ty} :
    (⟨lenient, some k⟩ : Checker).armFields arm = .ok ts ↔
      ∃ r, k.record? arm.record = some r ∧ arm.pattern.length = r.fields.length ∧
        r.fieldTypes = ts := by
  rw [armFields, catalog_bind]
  cases k.record? arm.record with
  | none => simp
  | some r =>
    by_cases hlen : arm.pattern.length = r.fields.length <;> simp [hlen, pure_eq_ok_iff]

theorem enter_eq_ok_iff {env inner : Env} {names : List String} {types : List Ty} :
    enter env names types = .ok inner ↔
      names.length = types.length ∧ env.bind (names.zip types) = inner := by
  rw [enter, Env.extend]
  split <;> simp_all [Except.mapError]

theorem expectCases_eq_ok_iff {type : String} {arms : List Arm} {u : Unit} :
    (⟨lenient, some k⟩ : Checker).expectCases type arms = .ok u ↔
      ∃ v, k.variant? type = some v ∧ k.Covers v arms := by
  rw [← Catalog.caseFault?_eq_none_iff, expectCases, catalog_bind]
  cases k.caseFault? type arms <;> simp [pure_eq_ok_iff]

theorem expectDeclarations_eq_ok_iff {u : Unit} :
    (⟨lenient, some k⟩ : Checker).expectDeclarations = .ok u ↔ k.WellDeclared := by
  rw [← Catalog.declarationFault?_eq_none_iff, expectDeclarations, catalog_bind]
  cases k.declarationFault? <;> simp [pure_eq_ok_iff]

/-! ### The recursion -/

/-- What follows a phrase is in the scope of its definition, if it is one. -/
theorem lookup?_scope (p : Phrase) (env : Env) : (p.scope env).lookup? =
    match p.definition? with
    | some new => Scope.bind env.lookup? (Param.entries [new])
    | none => env.lookup? := by
  rw [Phrase.scope]
  cases p.definition? with
  | none => rfl
  | some new => exact Env.lookup?_bind env _

theorem scopeAfter_cons (p : Phrase) (ps : List Phrase) (env : Env) :
    scopeAfter (p :: ps) env = scopeAfter ps (p.scope env) := rfl

/-- The first member of a body, and then the others where it is defined. -/
theorem checkBody_cons (c : Checker) (p : Phrase) (ps : List Phrase) (last : Phrase) (env : Env) :
    c.checkBody ⟨p :: ps, last⟩ env =
      c.check p env >>= fun _ => c.checkBody ⟨ps, last⟩ (p.scope env) := by
  rw [checkBody, checkInit, bind_assoc]
  rfl

mutual

/-- The strict checker gives a phrase a type exactly when the rules do. -/
theorem check_iff : ∀ (p : Phrase) {env : Env} {t : Ty},
    (⟨false, some k⟩ : Checker).check p env = .ok t ↔ HasType k env.lookup? p t
  | .literal i value, env, t => by
      rw [check]
      constructor
      · intro h
        cases hvalue : value.type? with
        | none => simp [hvalue] at h
        | some u =>
          obtain rfl : u = t := by simpa [hvalue] using h
          exact .literal (Datum.type?_eq_some_iff.mp hvalue)
      · intro h
        cases h with
        | literal hvalue => rw [Datum.type?_eq_some_iff.mpr hvalue]
  | .quotation i datum, env, t => by
      rw [check]
      constructor
      · rintro ⟨⟩
        exact .quotation
      · rintro ⟨⟩
        rfl
  | .operator i op, env, t => by
      rw [check]
      constructor
      · intro h
        split at h
        · rename_i u hop
          obtain rfl := Except.ok.inj h
          obtain ⟨params, result, rfl, hprimitive⟩ := Operator.signature?_eq_some_iff.mp hop
          exact .operator hprimitive
        · cases h
      · intro h
        cases h with
        | operator hprimitive =>
          have hop := hprimitive.signature?_eq
          rw [Phrase.occurrence, Phrase.id, Phrase.unparse, hop]
  | .variable i x, env, t => by
      rw [check, Env.detect_lookup_iff]
      constructor
      · rintro ⟨hx, ht⟩
        exact .variable hx ht
      · intro h
        cases h with
        | «variable» hx ht => exact ⟨hx, ht⟩
  | .cond i test thenPart elsePart, env, t => by
      simp only [check, bind_eq_ok_iff, check_iff test, check_iff thenPart, check_iff elsePart,
        branches_eq_ok_iff]
      constructor
      · rintro ⟨c, hc, _, hbool, a, ha, b, hb, hresult⟩
        exact .cond hc ((expect_eq_ok_iff hc.isFailure_eq).mp hbool) ha hb hresult
      · intro h
        cases h with
        | cond hc hbool ha hb hresult =>
          exact ⟨_, hc, (), (expect_eq_ok_iff hc.isFailure_eq).mpr hbool, _, ha, _, hb, hresult⟩
  | .lambda i params result body, env, t => by
      simp only [check, bind_eq_ok_iff, pure_eq_ok_iff, checkBody_iff body, Env.lookup?_bind]
      constructor
      · rintro ⟨u, hbody, _, hfits, rfl⟩
        exact .lambda hbody ((expect_eq_ok_iff hbody.isFailure_eq).mp hfits)
      · intro h
        cases h with
        | lambda hbody hfits =>
          exact ⟨_, hbody, (), (expect_eq_ok_iff hbody.isFailure_eq).mpr hfits, rfl⟩
  | .call i fn args, env, t => by
      simp only [check, bind_eq_ok_iff, check_iff fn]
      constructor
      · rintro ⟨f, hfn, h⟩
        cases f with
        | proc params result =>
          by_cases hlen : params.length = args.length
          · simp only [hlen, ne_eq, not_true_eq_false, if_false, bind_eq_ok_iff,
              inherit_eq_ok_iff] at h
            obtain ⟨_, hargs, rfl, hresult⟩ := h
            exact .call hfn ((checkArgs_iff args hlen).mp hargs) hresult
          · simp [hlen] at h
        | _ => cases h
      · intro h
        cases h with
        | @call _ _ _ _ params _ hfn hargs hresult =>
          refine ⟨_, hfn, ?_⟩
          have hlen : params.length = args.length := hargs.length_eq
          simp only [hlen, ne_eq, not_true_eq_false, if_false, bind_eq_ok_iff, inherit_eq_ok_iff]
          exact ⟨(), (checkArgs_iff args hlen).mpr hargs, trivial, hresult⟩
  | .letIn i bindings body, env, t => by
      simp only [check, bind_eq_ok_iff, checkBindings_iff bindings, checkBody_iff body,
        Env.lookup?_bind, Param.entries_params]
      constructor
      · rintro ⟨_, hbindings, hbody⟩
        exact .letIn hbindings hbody
      · intro h
        cases h with
        | letIn hbindings hbody => exact ⟨(), hbindings, hbody⟩
  | .letrec i bindings body, env, t => by
      simp only [check, bind_eq_ok_iff, enter_eq_ok_iff, checkBody_iff body]
      constructor
      · rintro ⟨hs, hheaders, _, hexpect, inner, ⟨hlen, rfl⟩, _, hvalues, hbody⟩
        have hfit : k.HeadersFit bindings hs := headersFit_iff.mpr ⟨hheaders, hexpect⟩
        rw [checkValues_iff bindings hfit] at hvalues
        rw [Env.lookup?_bind] at hvalues hbody
        exact .letrec hfit hvalues hbody
      · intro h
        cases h with
        | letrec hfit hvalues hbody =>
          obtain ⟨hheaders, hexpect⟩ := headersFit_iff.mp hfit
          rw [← Env.lookup?_bind] at hvalues hbody
          refine ⟨_, hheaders, (), hexpect, _, ⟨?_, rfl⟩, (), ?_, hbody⟩
          · rw [List.length_map, hfit.length_eq]
          · exact (checkValues_iff bindings hfit).mpr hvalues
  | .define i param value, env, t => by
      simp only [check, bind_eq_ok_iff, pure_eq_ok_iff, check_iff value, Env.lookup?_bind]
      constructor
      · rintro ⟨u, hvalue, _, hfits, rfl⟩
        exact .define hvalue ((expect_eq_ok_iff hvalue.isFailure_eq).mp hfits)
      · intro h
        cases h with
        | define hvalue hfits =>
          exact ⟨_, hvalue, (), (expect_eq_ok_iff hvalue.isFailure_eq).mpr hfits, rfl⟩
  | .assign i x value, env, t => by
      simp only [check, bind_eq_ok_iff, check_iff value, Env.detect_lookup_iff, Bool.false_eq_true,
        if_false, pure_eq_ok_iff]
      constructor
      · rintro ⟨u, hvalue, declared, ⟨hx, -⟩, _, hfits, rfl⟩
        exact .assign hvalue hx ((expect_eq_ok_iff hvalue.isFailure_eq).mp hfits)
      · intro h
        cases h with
        | assign hvalue hx hfits =>
          exact ⟨_, hvalue, _, ⟨hx, hfits.isFailure_eq hvalue.isFailure_eq⟩, (),
            (expect_eq_ok_iff hvalue.isFailure_eq).mpr hfits, rfl⟩
  | .defineType i v, env, t => by
      simp only [check, bind_eq_ok_iff, pure_eq_ok_iff, expectDeclarations_eq_ok_iff]
      constructor
      · rintro ⟨_, hk, rfl⟩
        exact .defineType hk
      · intro h
        cases h with
        | defineType hk => exact ⟨(), hk, rfl⟩
  | .typeCase i type subject arms, env, t => by
      simp only [check, Bool.false_eq_true, if_false, bind_eq_ok_iff, expectCases_eq_ok_iff,
        Catalog.variant?_eq_some_iff, check_iff subject, checkArms_iff arms, join_eq_ok_iff]
      constructor
      · rintro ⟨_, ⟨v, hv, hcovers⟩, s, hs, _, hfits, ts, harms, hjoin⟩
        exact .typeCase hv hcovers hs ((expect_eq_ok_iff hs.isFailure_eq).mp hfits) harms hjoin
      · intro h
        cases h with
        | typeCase hv hcovers hs hfits harms hjoin =>
          exact ⟨(), ⟨_, hv, hcovers⟩, _, hs, (), (expect_eq_ok_iff hs.isFailure_eq).mpr hfits, _,
            harms, hjoin⟩
  | .param .., env, t | .binding _, env, t | .arm _, env, t | .program .., env, t
  | .formless _, env, t | .formlessExpression _, env, t => by
      rw [check]
      constructor
      · intro h
        cases h
      · intro h
        cases h

theorem checkBody_iff : ∀ (b : Body) {env : Env} {t : Ty},
    (⟨false, some k⟩ : Checker).checkBody b env = .ok t ↔ BodyHasType k env.lookup? b t
  | ⟨init, last⟩, env, t => by
      rw [checkBody, bind_eq_ok_iff]
      exact checkInit_iff init (check_iff last)

/-- The first members of a body and its last, where the last is dealt with already. -/
theorem checkInit_iff : ∀ (ps : List Phrase) {last : Phrase}
    (_ : ∀ {env : Env} {t : Ty}, (⟨false, some k⟩ : Checker).check last env = .ok t ↔
      HasType k env.lookup? last t) {env : Env} {t : Ty},
    (∃ u, (⟨false, some k⟩ : Checker).checkInit ps env = .ok u ∧
      (⟨false, some k⟩ : Checker).check last (scopeAfter ps env) = .ok t) ↔
      BodyHasType k env.lookup? ⟨ps, last⟩ t
  | [], last, hlast, env, t => by
      simp only [checkInit, scopeAfter, List.foldl_nil, hlast]
      constructor
      · rintro ⟨_, -, h⟩
        exact .last h
      · intro h
        cases h with
        | last h => exact ⟨(), trivial, h⟩
  | p :: ps, last, hlast, env, t => by
      have hps := @checkInit_iff ps last hlast (p.scope env) t
      rw [lookup?_scope] at hps
      simp only [checkInit, scopeAfter_cons, bind_eq_ok_iff, check_iff p]
      constructor
      · rintro ⟨_, ⟨u, hp, hinit⟩, hl⟩
        have hrest := hps.mp ⟨_, hinit, hl⟩
        cases hdef : p.definition? with
        | none =>
          rw [hdef] at hrest
          exact .step (Phrase.definition?_eq_none_iff.mp hdef) hp hrest
        | some new =>
          rw [hdef] at hrest
          obtain ⟨i, value, rfl⟩ := Phrase.eq_define hdef
          exact .define hp hrest
      · intro h
        cases h with
        | define hp hrest =>
          obtain ⟨_, hinit, hl⟩ := hps.mpr hrest
          exact ⟨_, ⟨_, hp, hinit⟩, hl⟩
        | step hdef hp hrest =>
          rw [Phrase.definition?_eq_none_iff.mpr hdef] at hps
          obtain ⟨_, hinit, hl⟩ := hps.mpr hrest
          exact ⟨_, ⟨_, hp, hinit⟩, hl⟩

theorem checkArgs_iff : ∀ (args : List Phrase) {params : List Ty} {env : Env} {u : Unit},
    params.length = args.length →
    ((⟨false, some k⟩ : Checker).checkArgs args params env = .ok u ↔
      ArgsFit k env.lookup? args params)
  | [], [], env, u, _ => ⟨fun _ => .nil, fun _ => rfl⟩
  | arg :: args, param :: params, env, u, hlen => by
      simp only [checkArgs, bind_eq_ok_iff, check_iff arg,
        checkArgs_iff args (Nat.succ.inj hlen)]
      constructor
      · rintro ⟨t, ht, _, haccepts, hrest⟩
        exact .cons ht ((expectArg_eq_ok_iff ht.isFailure_eq).mp haccepts) hrest
      · intro h
        cases h with
        | cons ht haccepts hrest =>
          exact ⟨_, ht, (), (expectArg_eq_ok_iff ht.isFailure_eq).mpr haccepts, hrest⟩

theorem checkBindings_iff : ∀ (bs : List Binding) {env : Env} {u : Unit},
    (⟨false, some k⟩ : Checker).checkBindings bs env = .ok u ↔ BindingsFit k env.lookup? bs
  | [], env, u => by
      rw [checkBindings]
      exact ⟨fun _ => .nil, fun _ => rfl⟩
  | ⟨i, param, value⟩ :: bs, env, u => by
      simp only [checkBindings, bind_eq_ok_iff, check_iff value, checkBindings_iff bs]
      constructor
      · rintro ⟨t, ht, _, hfits, hrest⟩
        exact .cons ht ((expect_eq_ok_iff ht.isFailure_eq).mp hfits) hrest
      · intro h
        cases h with
        | cons ht hfits hrest =>
          exact ⟨_, ht, (), (expect_eq_ok_iff ht.isFailure_eq).mpr hfits, hrest⟩

theorem checkValues_iff : ∀ (bs : List Binding) {hs : List Ty} {env : Env} {u : Unit},
    k.HeadersFit bs hs →
    ((⟨false, some k⟩ : Checker).checkValues bs env = .ok u ↔
      ValuesHaveTypes k env.lookup? bs hs)
  | [], hs, env, u, hfit => by
      cases hfit
      rw [checkValues]
      exact ⟨fun _ => .nil, fun _ => rfl⟩
  | ⟨i, param, value⟩ :: bs, hs, env, u, hfit => by
      obtain ⟨h, hs, rfl, header, -, hfit⟩ := Catalog.headersFit_cons_iff.mp hfit
      simp only [checkValues, bind_eq_ok_iff, check_iff value, checkValues_iff bs hfit]
      constructor
      · rintro ⟨t, ht, hrest⟩
        exact .cons (ht.eq_header header ▸ ht) hrest
      · intro h
        cases h with
        | cons ht hrest => exact ⟨_, ht, hrest⟩

theorem checkArms_iff : ∀ (arms : List Arm) {env : Env} {ts : List Ty},
    (⟨false, some k⟩ : Checker).checkArms arms env = .ok ts ↔ ArmsHaveTypes k env.lookup? arms ts
  | [], env, ts => by
      rw [checkArms]
      constructor
      · rintro ⟨⟩
        exact .nil
      · rintro ⟨⟩
        rfl
  | ⟨i, record, pattern, body⟩ :: arms, env, ts => by
      simp only [checkArms, checkArm, bind_eq_ok_iff, armFields_eq_ok_iff,
        Catalog.record?_eq_some_iff, enter_eq_ok_iff, pure_eq_ok_iff, checkBody_iff body,
        checkArms_iff arms]
      constructor
      · rintro ⟨t, ⟨types, ⟨r, hr, hshape, rfl⟩, inner, ⟨-, rfl⟩, ht⟩, ts, hts, rfl⟩
        rw [Env.lookup?_bind] at ht
        exact .cons hr hshape ht hts
      · intro h
        cases h with
        | @cons _ _ _ _ _ _ r _ _ hr hshape ht hts =>
          rw [← Env.lookup?_bind] at ht
          refine ⟨_, ⟨_, ⟨r, hr, hshape, rfl⟩, _, ⟨?_, rfl⟩, ht⟩, _, hts, rfl⟩
          rw [hshape, Record.fieldTypes, List.length_map]

end

end Checker

/-! ### The verdict -/

/-- A report passes an honest type on, and makes one of nothing else. -/
theorem Report.conclude_eq_ok_iff {r : Report} {x : Except Halt Ty} {t : Ty}
    (ht : t.isFailure = false) : (r.conclude x).1 = .ok t ↔ x = .ok t := by
  rcases x with (f | f | e) | u
  · simp only [Report.conclude, reduceCtorEq, iff_false]
    cases (r.fail f).1 with
    | error e => simp [Except.map]
    | ok _ =>
      rintro ⟨⟩
      cases ht
  · simp only [Report.conclude, Except.ok.injEq, reduceCtorEq, iff_false]
    rintro rfl
    cases ht
  · simp [Report.conclude]
  · simp [Report.conclude]

/-- A type other than a failure is the verdict exactly when the check comes out with it. -/
theorem verdict_eq_ok_iff {e : Phrase} {env : Env} {program : Program} {r : Report} {lenient : Bool}
    {t : Ty} (ht : t.isFailure = false) :
    (typeOfExpression e env program r lenient).verdict = .ok t ↔
      (⟨lenient, some program.catalog⟩ : Checker).check e env = .ok t := by
  rw [typeOfExpression_eq]
  exact Report.conclude_eq_ok_iff ht

/-- The strict check of an expression gives an honest type exactly when the typing rules derive
    that type in the scope that the environment makes, from what the program declares at its top
    level. -/
theorem typeOfExpression_iff_hasType (program : Program) (env : Env) (e : Phrase) (r : Report)
    (t : Ty) :
    (typeOfExpression e env program r false).verdict = .ok t ∧ t.isFailure = false ↔
      ∃ k : Catalog, k.Lists (program.init ++ [program.last]) ∧ HasType k env.lookup? e t := by
  obtain ⟨init, last⟩ := program
  have hcatalog : (∃ k : Catalog, k.Lists (init ++ [last]) ∧ HasType k env.lookup? e t) ↔
      HasType (Body.catalog ⟨init, last⟩) env.lookup? e t := by
    simp only [Catalog.lists_iff, exists_eq_left]
    rfl
  rw [hcatalog, ← Checker.check_iff]
  constructor
  · rintro ⟨h, ht⟩
    exact (verdict_eq_ok_iff ht).mp h
  · intro h
    have ht : t.isFailure = false := Checker.isFailure_of_check h
    exact ⟨(verdict_eq_ok_iff ht).mpr h, ht⟩

end VariantScheme
