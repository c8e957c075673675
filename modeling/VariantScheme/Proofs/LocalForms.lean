import VariantScheme.Proofs.ArmOrder
import VariantScheme.Proofs.FreeNames
import VariantScheme.Proofs.Order

/-!
    Forms with local names that come to the same. A `let` is typed as the lambda that has its names
    for parameters and is applied to its values at once, although one rule begins with the values
    and the other with the body. A `letrec` of one name is typed as a body that begins with a
    definition of that name, although one binds the name to the header of the lambda and the other
    to the declared type: a procedure type fits only itself and `any`, so that the two are the same
    type.

    For each form there is first a lemma that says when it has a type, by its parts and without an
    order among them. These hold of strict and of lenient checks alike. -/

namespace VariantScheme

namespace Checker

variable {k : Catalog} {lenient : Bool} {env : Env} {i : Nat} {bs : List Binding} {body : Body}
  {t : Ty}

/-! ### Values and declared types -/

/-- A type that is found and then held against a declared one: the two steps go through when there
    is a type and it fits. -/
theorem bind_expect_eq_ok_iff {α : Type} {x : Except Halt Ty} {d : Ty} {site : Phrase}
    {rest : Except Halt α} {a : α} (honest : ∀ {t}, x = .ok t → t.isFailure = false) :
    (x >>= fun t => (⟨lenient, some k⟩ : Checker).expect t d site >>= fun _ => rest) = .ok a ↔
      (∃ t, x = .ok t ∧ k.Fits t d) ∧ rest = .ok a := by
  simp only [bind_eq_ok_iff]
  constructor
  · rintro ⟨t, ht, _, hfits, hrest⟩
    exact ⟨⟨t, ht, (expect_eq_ok_iff (honest ht)).mp hfits⟩, hrest⟩
  · rintro ⟨⟨t, ht, hfits⟩, hrest⟩
    exact ⟨t, ht, (), (expect_eq_ok_iff (honest ht)).mpr hfits, hrest⟩

/-- The value of a binding has a type that fits the declared one. -/
def ValueFits (lenient : Bool) (k : Catalog) (env : Env) (b : Binding) : Prop :=
  ∃ t, (⟨lenient, some k⟩ : Checker).check b.value env = .ok t ∧ k.Fits t b.param.type

theorem checkBindings_eq_ok_iff {a : Unit} :
    (⟨lenient, some k⟩ : Checker).checkBindings bs env = .ok a ↔
      ∀ b ∈ bs, ValueFits lenient k env b := by
  induction bs with
  | nil => simp [checkBindings]
  | cons b bs ih =>
    obtain ⟨i, param, value⟩ := b
    rw [checkBindings, bind_expect_eq_ok_iff isFailure_of_check, ih, List.forall_mem_cons]
    rfl

/-- Values are checked alike as the arguments for parameters of the declared types, if none of these
    takes anything at all. -/
theorem checkArgs_values_eq_ok_iff {a : Unit} (hslots : ∀ b ∈ bs, b.param.type.isVar = false) :
    (⟨lenient, some k⟩ : Checker).checkArgs (bs.map (·.value)) (bs.map (·.param.type)) env = .ok a ↔
      ∀ b ∈ bs, ValueFits lenient k env b := by
  induction bs with
  | nil => simp [checkArgs]
  | cons b bs ih =>
    obtain ⟨hb, hbs⟩ := List.forall_mem_cons.mp hslots
    have harg : ∀ t, (⟨lenient, some k⟩ : Checker).expectArg t b.param.type b.value =
        (⟨lenient, some k⟩ : Checker).expect t b.param.type b.value := fun t => by
      rw [expectArg, hb, if_neg Bool.false_ne_true]
    rw [List.map_cons, List.map_cons, checkArgs]
    simp only [harg]
    rw [bind_expect_eq_ok_iff isFailure_of_check, ih hbs, List.forall_mem_cons]
    rfl

theorem check_letIn_eq_ok_iff :
    (⟨lenient, some k⟩ : Checker).check (.letIn i bs body) env = .ok t ↔
      (∀ b ∈ bs, ValueFits lenient k env b) ∧
        (⟨lenient, some k⟩ : Checker).checkBody body
          (env.bind (Param.entries (bs.map (·.param)))) = .ok t := by
  rw [check, bind_eq_ok_iff]
  simp only [checkBindings_eq_ok_iff, exists_const]

/-- A `let` without bindings is its body. -/
theorem check_letIn_nil (c : Checker) : c.check (.letIn i [] body) env = c.checkBody body env := by
  rw [check, checkBindings]
  refine checkBody_congr c body fun x _ => ?_
  rw [Env.lookup_bind]
  rfl

theorem check_lambda_eq_ok_iff {params : List Param} {result : Ty} :
    (⟨lenient, some k⟩ : Checker).check (.lambda i params result body) env = .ok t ↔
      (∃ u, (⟨lenient, some k⟩ : Checker).checkBody body (env.bind (Param.entries params)) = .ok u ∧
        k.Fits u result) ∧ .proc (params.map (·.type)) result = t := by
  rw [check, bind_expect_eq_ok_iff isFailure_of_checkBody, pure_eq_ok_iff]

end Checker

/-! ### A lambda that is applied at once -/

/-- A lambda that has the names of the bindings for parameters, applied to their values. -/
def appliedLambda (i j : Nat) (bs : List Binding) (result : Ty) (body : Body) : Phrase :=
  .call i (.lambda j (bs.map (·.param)) result body) (bs.map (·.value))

namespace Checker

variable {k : Catalog} {lenient : Bool} {env : Env} {i j m : Nat} {bs : List Binding} {body : Body}
  {t : Ty}

/-- A lambda that is applied at once has its declared result for a type, exactly when the `let` has
    a type that fits it. -/
theorem check_appliedLambda_eq_ok_iff {result : Ty}
    (hslots : ∀ b ∈ bs, b.param.type.isVar = false) :
    (⟨lenient, some k⟩ : Checker).check (appliedLambda i j bs result body) env = .ok t ↔
      result = t ∧ ∃ u, (⟨lenient, some k⟩ : Checker).check (.letIn m bs body) env = .ok u ∧
        k.Fits u result := by
  have htypes : (bs.map (·.param)).map (·.type) = bs.map (·.param.type) := List.map_map
  have harity : ¬ (bs.map (·.param.type)).length ≠ (bs.map (·.value)).length := by simp
  rw [appliedLambda, check, bind_eq_ok_iff]
  constructor
  · rintro ⟨f, hf, h⟩
    obtain ⟨⟨u, hu, hfits⟩, rfl⟩ := check_lambda_eq_ok_iff.mp hf
    simp only [htypes, if_neg harity, bind_eq_ok_iff] at h
    obtain ⟨_, hargs, hresult⟩ := h
    have hvalues := (checkArgs_values_eq_ok_iff hslots).mp hargs
    exact ⟨(inherit_eq_ok_iff.mp hresult).1, u, check_letIn_eq_ok_iff.mpr ⟨hvalues, hu⟩, hfits⟩
  · rintro ⟨rfl, u, hlet, hfits⟩
    obtain ⟨hvalues, hu⟩ := check_letIn_eq_ok_iff.mp hlet
    have hresult : result.isFailure = false := hfits.isFailure_eq (isFailure_of_check hlet)
    refine ⟨_, check_lambda_eq_ok_iff.mpr ⟨⟨u, hu, hfits⟩, rfl⟩, ?_⟩
    simp only [htypes, if_neg harity, bind_eq_ok_iff]
    exact ⟨(), (checkArgs_values_eq_ok_iff hslots).mpr hvalues,
      inherit_eq_ok_iff.mpr ⟨rfl, hresult⟩⟩

end Checker

/-- A `let` and the lambda that is applied at once accept the same code, where no name is declared
    with a type variable. If the `let` has a type, then so has the lambda with that type for its
    result; and if the lambda has a type, whatever its result is declared to be, then the `let` has
    one that passes for this result. -/
theorem letIn_agrees_appliedLambda (program : Program) (env : Env) (r : Report) (lenient : Bool)
    (i j m : Nat) (bs : List Binding) (body : Body)
    (hslots : ∀ b ∈ bs, b.param.type.isVar = false) :
    (∀ t, (typeOfExpression (.letIn m bs body) env program r lenient).Gives t →
      (typeOfExpression (appliedLambda i j bs t body) env program r lenient).Gives t) ∧
    ∀ result t,
      (typeOfExpression (appliedLambda i j bs result body) env program r lenient).Gives t →
      ∃ u, (typeOfExpression (.letIn m bs body) env program r lenient).Gives u ∧
        ∀ site, program.catalog.Passes site u result := by
  constructor
  · intro t h
    obtain ⟨hlet, ht⟩ := gives_iff.mp h
    exact gives_iff.mpr ⟨(Checker.check_appliedLambda_eq_ok_iff hslots).mpr
      ⟨rfl, t, hlet, .same⟩, ht⟩
  · intro result t h
    obtain ⟨-, u, hlet, hfits⟩ :=
      (Checker.check_appliedLambda_eq_ok_iff (m := m) hslots).mp (gives_iff.mp h).1
    have hu : u.isFailure = false := Checker.isFailure_of_check hlet
    exact ⟨u, gives_iff.mpr ⟨hlet, hu⟩, fun site => (Catalog.isFailure_compatible_iff hu).mpr hfits⟩

/-- Two bindings of `x`, of which the first counts, and one that is declared more widely than its
    value. -/
def parkingBindings : List Binding :=
  [⟨1, ⟨"x", .named "Car"⟩, .variable 2 "car"⟩, ⟨3, ⟨"x", .string⟩, .literal 4 (.text "a")⟩,
    ⟨5, ⟨"it", .named "Wheeled"⟩, .variable 6 "bike"⟩]

/-- A body that defines a name of its own. -/
def parkingBody : Body :=
  ⟨[.define 7 ⟨"y", .named "Wheeled"⟩ (.variable 8 "it")], .variable 9 "x"⟩

theorem letIn_agrees_appliedLambda_parking :
    (∀ b ∈ parkingBindings, b.param.type.isVar = false) ∧
      (typeOfExpression (.letIn 0 parkingBindings parkingBody) parked garage {} false).Gives
        (.named "Car") ∧
      (typeOfExpression (appliedLambda 10 11 parkingBindings (.named "Car") parkingBody) parked
        garage {} false).Gives (.named "Car") ∧
      (typeOfExpression (appliedLambda 10 11 parkingBindings (.named "Wheeled") parkingBody) parked
        garage {} false).Gives (.named "Wheeled") ∧
      ∃ u,
        (typeOfExpression (.letIn 0 parkingBindings parkingBody) parked garage {} false).Gives u ∧
        ∀ site, garage.catalog.Passes site u (.named "Wheeled") := by
  have hslots : ∀ b ∈ parkingBindings, b.param.type.isVar = false := by
    simp [parkingBindings, Ty.isVar, Ty.string]
  have hlet : (typeOfExpression (.letIn 0 parkingBindings parkingBody) parked garage {} false).Gives
      (.named "Car") := ⟨rfl, rfl⟩
  have happlied : (typeOfExpression (appliedLambda 10 11 parkingBindings (.named "Wheeled")
      parkingBody) parked garage {} false).Gives (.named "Wheeled") := ⟨rfl, rfl⟩
  obtain ⟨hto, hback⟩ := letIn_agrees_appliedLambda garage parked {} false 10 11 0 parkingBindings
    parkingBody hslots
  exact ⟨hslots, hlet, hto _ hlet, happlied, hback _ _ happlied⟩

/-! ### The names of a `letrec` -/

/-- What the names of a `letrec` stand for: the headers of their lambdas. -/
def Binding.announced (bs : List Binding) : List (String × Ty) :=
  bs.filterMap fun b => b.value.header?.map fun h => (b.param.name, h)

namespace Catalog

variable {k : Catalog} {bs : List Binding} {hs : List Ty}

/-- The value of a binding is a lambda, and its header fits the declared type. -/
def HeaderFits (k : Catalog) (b : Binding) : Prop :=
  ∃ h, b.value.header? = some h ∧ k.Fits h b.param.type

theorem HeadersFit.zip_eq (h : k.HeadersFit bs hs) :
    (bs.map (·.param.name)).zip hs = Binding.announced bs := by
  induction h with
  | nil => rfl
  | cons _ _ ih =>
    rw [List.map_cons, List.zip_cons_cons, ih]
    rfl

theorem exists_headersFit_iff : (∃ hs, k.HeadersFit bs hs) ↔ ∀ b ∈ bs, k.HeaderFits b := by
  induction bs with
  | nil => exact ⟨fun _ b hb => absurd hb List.not_mem_nil, fun _ => ⟨[], .nil⟩⟩
  | cons b bs ih =>
    simp only [List.forall_mem_cons, ← ih, headersFit_cons_iff]
    constructor
    · rintro ⟨_, h, hs, rfl, header, fits, rest⟩
      exact ⟨⟨h, header, fits⟩, hs, rest⟩
    · rintro ⟨⟨h, header, fits⟩, hs, rest⟩
      exact ⟨h :: hs, h, hs, rfl, header, fits, rest⟩

/-- A lambda's header fits itself alone, and `any`. -/
theorem fits_header_iff {p : Phrase} {h d : Ty} (hp : p.header? = some h) (hd : d ≠ .any) :
    k.Fits h d ↔ h = d := by
  constructor
  · intro hfits
    cases p <;> cases hp
    cases hfits with
    | top => exact absurd rfl hd
    | same => rfl
    | sameName left => cases left
    | case ref => cases ref
  · rintro rfl
    exact .same

end Catalog

/-- The body with a phrase more at its beginning. -/
def Body.precededBy (body : Body) (p : Phrase) : Body := ⟨p :: body.init, body.last⟩

namespace Checker

variable {k : Catalog} {lenient : Bool} {env : Env} {i j : Nat} {bs : List Binding} {body : Body}
  {t : Ty}

theorem checkValues_eq_ok_iff {c : Checker} {a : Unit} :
    c.checkValues bs env = .ok a ↔ ∀ b ∈ bs, ∃ u, c.check b.value env = .ok u := by
  induction bs with
  | nil => simp [checkValues]
  | cons b bs ih =>
    obtain ⟨i, param, value⟩ := b
    rw [checkValues, bind_eq_ok_iff, List.forall_mem_cons, ← ih]
    exact exists_and_right

theorem check_letrec_eq_ok_iff :
    (⟨lenient, some k⟩ : Checker).check (.letrec i bs body) env = .ok t ↔
      (∀ b ∈ bs, k.HeaderFits b) ∧
        (∀ b ∈ bs, ∃ u, (⟨lenient, some k⟩ : Checker).check b.value
          (env.bind (Binding.announced bs)) = .ok u) ∧
        (⟨lenient, some k⟩ : Checker).checkBody body (env.bind (Binding.announced bs)) = .ok t := by
  simp only [check, bind_eq_ok_iff, enter_eq_ok_iff]
  constructor
  · rintro ⟨hs, hheaders, _, hexpect, inner, ⟨-, rfl⟩, _, hvalues, hbody⟩
    have hfit : k.HeadersFit bs hs := headersFit_iff.mpr ⟨hheaders, hexpect⟩
    rw [hfit.zip_eq] at hvalues hbody
    exact ⟨Catalog.exists_headersFit_iff.mp ⟨hs, hfit⟩, checkValues_eq_ok_iff.mp hvalues, hbody⟩
  · rintro ⟨hfits, hvalues, hbody⟩
    obtain ⟨hs, hfit⟩ := Catalog.exists_headersFit_iff.mpr hfits
    obtain ⟨hheaders, hexpect⟩ := headersFit_iff.mp hfit
    have hlength : (bs.map (·.param.name)).length = hs.length := by
      rw [List.length_map, hfit.length_eq]
    refine ⟨hs, hheaders, (), hexpect, _, ⟨hlength, rfl⟩, (), ?_, ?_⟩
    · rw [hfit.zip_eq]
      exact checkValues_eq_ok_iff.mpr hvalues
    · rw [hfit.zip_eq]
      exact hbody

/-- A lambda has the type that its header announces, in a lenient check too. -/
theorem eq_header_of_check {p : Phrase} {h u : Ty} (hp : p.header? = some h)
    (hu : (⟨lenient, some k⟩ : Checker).check p env = .ok u) : u = h := by
  cases p <;> cases hp
  exact (check_lambda_eq_ok_iff.mp hu).2.symm

/-! ### A recursive definition -/

theorem check_define_eq_ok_iff {x : Param} {value : Phrase} :
    (⟨lenient, some k⟩ : Checker).check (.define i x value) env = .ok t ↔
      (∃ u, (⟨lenient, some k⟩ : Checker).check value (env.bind (Param.entries [x])) = .ok u ∧
        k.Fits u x.type) ∧ Ty.void = t := by
  rw [check, bind_expect_eq_ok_iff isFailure_of_check, pure_eq_ok_iff]

/-- The parts of a recursive definition and of what follows it: the lambda announces the type that
    is declared for the name, and both the lambda and the body have types where the name stands for
    it. -/
def Recursive (lenient : Bool) (k : Catalog) (env : Env) (x : Param) (lam : Phrase) (body : Body)
    (t : Ty) : Prop :=
  lam.header? = some x.type ∧
    (∃ u, (⟨lenient, some k⟩ : Checker).check lam (env.bind (Param.entries [x])) = .ok u) ∧
    (⟨lenient, some k⟩ : Checker).checkBody body (env.bind (Param.entries [x])) = .ok t

variable {x : Param} {lam : Phrase} {h : Ty}

theorem check_letrec_singleton_iff (hlam : lam.header? = some h) (hx : x.type ≠ .any) :
    (⟨lenient, some k⟩ : Checker).check (.letrec i [⟨j, x, lam⟩] body) env = .ok t ↔
      Recursive lenient k env x lam body t := by
  rw [check_letrec_eq_ok_iff, Recursive]
  simp only [List.forall_mem_singleton, Catalog.HeaderFits, hlam, Option.some.injEq,
    exists_eq_left', Catalog.fits_header_iff hlam hx]
  refine and_congr_right fun heq => ?_
  -- the header is the declared type, so that the two bind the name alike
  have hpairs : Binding.announced [⟨j, x, lam⟩] = Param.entries [x] := by
    simp [Binding.announced, hlam, heq, Param.entries]
  rw [hpairs]

theorem checkBody_precededBy (c : Checker) (body : Body) (p : Phrase) (env : Env) :
    c.checkBody (body.precededBy p) env =
      c.check p env >>= fun _ => c.checkBody body (p.scope env) := by
  obtain ⟨init, last⟩ := body
  exact checkBody_cons c p init last env

theorem checkBody_define_iff (hlam : lam.header? = some h) (hx : x.type ≠ .any) :
    (⟨lenient, some k⟩ : Checker).checkBody (body.precededBy (.define i x lam)) env = .ok t ↔
      Recursive lenient k env x lam body t := by
  rw [checkBody_precededBy, bind_eq_ok_iff, Recursive]
  constructor
  · rintro ⟨v, hdefine, hbody⟩
    obtain ⟨⟨u, hu, hfits⟩, -⟩ := check_define_eq_ok_iff.mp hdefine
    obtain rfl := eq_header_of_check hlam hu
    exact ⟨(Catalog.fits_header_iff hlam hx).mp hfits ▸ hlam, ⟨_, hu⟩, hbody⟩
  · rintro ⟨hdeclared, ⟨u, hu⟩, hbody⟩
    obtain rfl := eq_header_of_check hdeclared hu
    exact ⟨.void, check_define_eq_ok_iff.mpr ⟨⟨_, hu, .same⟩, rfl⟩, hbody⟩

end Checker

/-- A `letrec` of one name has a type exactly when a body has it that begins with the definition of
    that name, where the name is not declared as `any`. -/
theorem letrec_singleton_iff_define (program : Program) (env : Env) (r : Report) (lenient : Bool)
    (i j m n l : Nat) (f : String) (declared : Ty) (params : List Param) (result : Ty)
    (inner body : Body) (t : Ty) (hdeclared : declared ≠ .any) :
    (typeOfExpression (.letrec i [⟨j, ⟨f, declared⟩, .lambda l params result inner⟩] body) env
        program r lenient).Gives t ↔
      (typeOfExpression (.letIn m []
        (body.precededBy (.define n ⟨f, declared⟩ (.lambda l params result inner)))) env
        program r lenient).Gives t := by
  rw [gives_iff, gives_iff, Checker.check_letIn_nil, Checker.checkBody_define_iff rfl hdeclared,
    Checker.check_letrec_singleton_iff rfl hdeclared]

/-- The factorial, by recursion through the name `fact`. -/
def factorial : Phrase :=
  .lambda 0 [⟨"n", .number⟩] .number
    ⟨[], .cond 1 (.call 2 (.operator 3 "=") [.variable 4 "n", .literal 5 (.int 0)])
      (.literal 6 (.int 1))
      (.call 7 (.operator 8 "*") [.variable 9 "n",
        .call 10 (.variable 11 "fact")
          [.call 12 (.operator 13 "-") [.variable 14 "n", .literal 15 (.int 1)]]])⟩

theorem letrec_singleton_iff_define_factorial :
    Ty.proc [.number] .number ≠ .any ∧
      (typeOfExpression (.letrec 16 [⟨17, ⟨"fact", .proc [.number] .number⟩, factorial⟩]
        ⟨[], .call 18 (.variable 19 "fact") [.literal 20 (.int 5)]⟩) [] garage {} true).Gives
          .number ∧
      (typeOfExpression (.letIn 21 [] ⟨[.define 22 ⟨"fact", .proc [.number] .number⟩ factorial],
        .call 18 (.variable 19 "fact") [.literal 20 (.int 5)]⟩) [] garage {} true).Gives
          .number := by
  have hdeclared : Ty.proc [.number] .number ≠ .any := by simp [Ty.any]
  have hletrec : (typeOfExpression (.letrec 16 [⟨17, ⟨"fact", .proc [.number] .number⟩, factorial⟩]
      ⟨[], .call 18 (.variable 19 "fact") [.literal 20 (.int 5)]⟩) [] garage {} true).Gives
        .number := ⟨rfl, rfl⟩
  exact ⟨hdeclared, hletrec, (letrec_singleton_iff_define garage [] {} true 16 17 21 22 0 "fact"
    (.proc [.number] .number) _ _ _ _ _ hdeclared).mp hletrec⟩

end VariantScheme
