import VariantScheme.Proofs.LocalForms

/-!
    The bindings of a `let` or of a `letrec` may come in any order, where no name is bound twice.
    What a binding has to meet is said of each binding by itself. The names stand for the same in
    any order (`Env.AgreeOn.bind_perm`), and so the body comes to the same, with every lambda and
    sequence inside it, and so do the lambdas of a `letrec`, which see all the names. -/

namespace VariantScheme

/-- Names that come once may be bound in any order. -/
theorem Env.AgreeOn.bind_perm {names : List String} {env : Env} {pairs pairs' : List (String × Ty)}
    (hnodup : (pairs.map (·.1)).Nodup) (hperm : pairs.Perm pairs') :
    AgreeOn names (env.bind pairs) (env.bind pairs') := by
  intro x _
  rw [Env.lookup_bind, Env.lookup_bind, lookup_perm hnodup hperm]

/-- A `letrec` binds the names of its bindings, as far as these are lambdas, and in their order. -/
theorem Binding.announced_names (bs : List Binding) :
    ((Binding.announced bs).map (·.1)).Sublist (bs.map (·.param.name)) := by
  induction bs with
  | nil => exact List.Sublist.refl _
  | cons b bs ih =>
    rw [Binding.announced] at ih ⊢
    cases hheader : b.value.header? with
    | none =>
      rw [List.filterMap_cons_none (by rw [hheader]; rfl), List.map_cons]
      exact ih.cons _
    | some h =>
      rw [List.filterMap_cons_some (by rw [hheader]; rfl), List.map_cons, List.map_cons]
      exact ih.cons_cons _

namespace Checker

variable {k : Catalog} {lenient : Bool} {env : Env} {i j : Nat} {bs bs' : List Binding}
  {body : Body} {t : Ty}

theorem check_letIn_perm_iff (hnodup : (bs.map (·.param.name)).Nodup) (hperm : bs.Perm bs') :
    (⟨lenient, some k⟩ : Checker).check (.letIn i bs body) env = .ok t ↔
      (⟨lenient, some k⟩ : Checker).check (.letIn j bs' body) env = .ok t := by
  have hpairs : (Param.entries (bs.map (·.param))).Perm (Param.entries (bs'.map (·.param))) :=
    (hperm.map _).map _
  have hnames : ((Param.entries (bs.map (·.param))).map (·.1)).Nodup := by
    rwa [Param.entries, List.map_map, List.map_map]
  have hagree : Env.AgreeOn body.freeNames (env.bind (Param.entries (bs.map (·.param))))
      (env.bind (Param.entries (bs'.map (·.param)))) := Env.AgreeOn.bind_perm hnames hpairs
  have hbody := checkBody_congr ⟨lenient, some k⟩ body hagree
  rw [check_letIn_eq_ok_iff, check_letIn_eq_ok_iff, hbody]
  simp only [hperm.mem_iff]

theorem check_letrec_perm_iff (hnodup : (bs.map (·.param.name)).Nodup) (hperm : bs.Perm bs') :
    (⟨lenient, some k⟩ : Checker).check (.letrec i bs body) env = .ok t ↔
      (⟨lenient, some k⟩ : Checker).check (.letrec j bs' body) env = .ok t := by
  have hpairs : (Binding.announced bs).Perm (Binding.announced bs') := hperm.filterMap _
  have hnames : ((Binding.announced bs).map (·.1)).Nodup :=
    hnodup.sublist (Binding.announced_names bs)
  have hagree : ∀ names, Env.AgreeOn names (env.bind (Binding.announced bs))
      (env.bind (Binding.announced bs')) := fun _ => Env.AgreeOn.bind_perm hnames hpairs
  have hvalue := fun p => check_congr ⟨lenient, some k⟩ p (hagree p.freeNames)
  have hbody := checkBody_congr ⟨lenient, some k⟩ body (hagree body.freeNames)
  rw [check_letrec_eq_ok_iff, check_letrec_eq_ok_iff, hbody]
  simp only [hvalue, hperm.mem_iff]

end Checker

/-- The type of a `let` and that of a `letrec` do not depend on the order of the bindings, where no
    name is bound twice. -/
theorem typeOfExpression_bindings_perm (program : Program) (env : Env) (r : Report) (lenient : Bool)
    {i j : Nat} {bs bs' : List Binding} {body : Body} {t : Ty}
    (hnodup : (bs.map (·.param.name)).Nodup) (hperm : bs.Perm bs') :
    ((typeOfExpression (.letIn i bs body) env program r lenient).Gives t ↔
      (typeOfExpression (.letIn j bs' body) env program r lenient).Gives t) ∧
    ((typeOfExpression (.letrec i bs body) env program r lenient).Gives t ↔
      (typeOfExpression (.letrec j bs' body) env program r lenient).Gives t) := by
  simp only [gives_iff]
  exact ⟨and_congr_left' (Checker.check_letIn_perm_iff hnodup hperm),
    and_congr_left' (Checker.check_letrec_perm_iff hnodup hperm)⟩

/-- Is a number of this parity? Each of the two tests asks the other one about the number before. -/
def parity (i : Nat) (name other : String) (atZero : Bool) : Binding :=
  ⟨i, ⟨name, .proc [.number] .boolean⟩, .lambda (i + 1) [⟨"n", .number⟩] .boolean
    ⟨[], .cond (i + 2) (.call (i + 3) (.operator (i + 4) "=") [.variable (i + 5) "n",
        .literal (i + 6) (.int 0)])
      (.literal (i + 7) (.bool atZero))
      (.call (i + 8) (.variable (i + 9) other)
        [.call (i + 10) (.operator (i + 11) "-") [.variable (i + 12) "n",
          .literal (i + 13) (.int 1)]])⟩⟩

/-- A scope that has two such tests already, for the `let`. -/
def parities : Env :=
  Env.bind [] [("even", .proc [.number] .boolean), ("odd", .proc [.number] .boolean)]

theorem typeOfExpression_bindings_perm_parities :
    let even := parity 0 "even" "odd" true
    let odd := parity 20 "odd" "even" false
    let body : Body := ⟨[], .call 40 (.variable 41 "even") [.literal 42 (.int 6)]⟩
    ([even, odd].map (·.param.name)).Nodup ∧
      (typeOfExpression (.letIn 43 [odd, even] body) parities garage {} false).Gives .boolean ∧
      (typeOfExpression (.letrec 44 [odd, even] body) [] garage {} false).Gives .boolean := by
  intro even odd body
  have hnodup : ([even, odd].map (·.param.name)).Nodup := by decide
  have hswap : [even, odd].Perm [odd, even] := List.Perm.swap _ _ _
  refine ⟨hnodup, ?_, ?_⟩
  · exact (typeOfExpression_bindings_perm garage parities {} false (i := 45) hnodup hswap).1.mp
      ⟨rfl, rfl⟩
  · exact (typeOfExpression_bindings_perm garage [] {} false (i := 46) hnodup hswap).2.mp
      ⟨rfl, rfl⟩

end VariantScheme
