import VariantScheme.Proofs.Visiting

/-!
    The free names of a phrase, and what an environment is to the checker. A name is free where the
    phrase itself does not bind it: parameters, the names of a `let` or a `letrec` and the names of
    a pattern are bound in their bodies, and a definition is visible in its own value and in what
    follows it in a sequence, nowhere else. Two environments that say the same about the free names
    of a phrase are the same to its check, however their frames are made up. -/

namespace VariantScheme

/-! ### Free names -/

/-- The names that are not among the hidden ones. -/
def without (names hidden : List String) : List String := names.filter (· ∉ hidden)

/-- The name that a phrase makes visible to what follows it in a sequence, if it defines one. -/
def Phrase.defines (p : Phrase) : List String := (p.definition?.map (·.name)).toList

mutual

/-- The names that a phrase takes from where it stands. -/
def Phrase.freeNames : Phrase → List String
  | .variable _ x => [x]
  | .cond _ test thenPart elsePart => test.freeNames ++ thenPart.freeNames ++ elsePart.freeNames
  | .lambda _ params _ body => without body.freeNames (params.map (·.name))
  | .call _ fn args => fn.freeNames ++ Phrase.freeNamesEach args
  | .letIn _ bindings body =>
      Binding.freeNamesEach bindings ++ without body.freeNames (bindings.map (·.param.name))
  | .letrec _ bindings body =>
      without (Binding.freeNamesEach bindings ++ body.freeNames) (bindings.map (·.param.name))
  | .define _ param value => without value.freeNames [param.name]
  | .assign _ x value => x :: value.freeNames
  | .typeCase _ _ subject arms => subject.freeNames ++ Arm.freeNamesEach arms
  | .binding ⟨_, _, value⟩ => value.freeNames
  | .arm ⟨_, _, pattern, body⟩ => without body.freeNames pattern
  | .program _ body => body.freeNames
  | .literal .. | .quotation .. | .operator .. | .defineType .. | .param .. | .formless _
  | .formlessExpression _ => []

/-- The free names of a body. -/
def Body.freeNames : Body → List String
  | ⟨init, last⟩ => Phrase.freeNamesThen init last.freeNames

/-- The free names of a sequence, where those of what follows it are given. -/
def Phrase.freeNamesThen : List Phrase → List String → List String
  | [], after => after
  | p :: ps, after => p.freeNames ++ without (Phrase.freeNamesThen ps after) p.defines

def Phrase.freeNamesEach : List Phrase → List String
  | [] => []
  | p :: ps => p.freeNames ++ Phrase.freeNamesEach ps

/-- The free names of the values that some bindings have. -/
def Binding.freeNamesEach : List Binding → List String
  | [] => []
  | ⟨_, _, value⟩ :: bs => value.freeNames ++ Binding.freeNamesEach bs

/-- The free names of arms, each of which binds the names of its pattern. -/
def Arm.freeNamesEach : List Arm → List String
  | [] => []
  | ⟨_, _, pattern, body⟩ :: arms => without body.freeNames pattern ++ Arm.freeNamesEach arms

end

theorem mem_without {x : String} {names hidden : List String} :
    x ∈ without names hidden ↔ x ∈ names ∧ x ∉ hidden := by
  simp [without]

theorem without_nil (names : List String) : without names [] = names := by
  simp [without]

/-- What follows a phrase sees what the phrase saw, or that and a frame of what it defines. -/
theorem Phrase.scope_cases (p : Phrase) :
    (p.defines = [] ∧ ∀ env, p.scope env = env) ∨
      ∃ pairs, p.defines = pairs.map (·.1) ∧ ∀ env, p.scope env = env.bind pairs := by
  simp only [Phrase.defines, Phrase.scope]
  cases p.definition? with
  | none => exact .inl ⟨rfl, fun _ => rfl⟩
  | some new => exact .inr ⟨Param.entries [new], rfl, fun _ => rfl⟩

/-! ### Agreement of environments -/

/-- The two environments say the same about each of the names. -/
def Env.AgreeOn (names : List String) (env env' : Env) : Prop :=
  ∀ x ∈ names, env.lookup x = env'.lookup x

namespace Env.AgreeOn

variable {names more : List String} {env env' : Env}

theorem append_iff :
    AgreeOn (names ++ more) env env' ↔ AgreeOn names env env' ∧ AgreeOn more env env' :=
  List.forall_mem_append

/-- Entering the same frame makes the names it binds agree. -/
theorem bind {pairs : List (String × Ty)} (h : AgreeOn (without names (pairs.map (·.1))) env env') :
    AgreeOn names (env.bind pairs) (env'.bind pairs) := by
  intro x hx
  rw [Env.lookup_bind, Env.lookup_bind]
  cases hpair : pairs.lookup x with
  | some t => rfl
  | none => exact h x (mem_without.mpr ⟨hx, lookup_eq_none_iff.mp hpair⟩)

theorem scope {p : Phrase} (h : AgreeOn (without names p.defines) env env') :
    AgreeOn names (p.scope env) (p.scope env') := by
  obtain ⟨hnone, hscope⟩ | ⟨pairs, hpairs, hscope⟩ := p.scope_cases
  · rw [hnone, without_nil] at h
    rwa [hscope, hscope]
  · rw [hpairs] at h
    rw [hscope, hscope]
    exact AgreeOn.bind h

theorem scopeAfter : ∀ {ps : List Phrase} {env env' : Env},
    AgreeOn (Phrase.freeNamesThen ps names) env env' →
    AgreeOn names (scopeAfter ps env) (scopeAfter ps env')
  | [], _, _, h => by rwa [Phrase.freeNamesThen] at h
  | p :: ps, env, env', h => by
      rw [Phrase.freeNamesThen, append_iff] at h
      have hrest : AgreeOn names (VariantScheme.scopeAfter ps (p.scope env))
          (VariantScheme.scopeAfter ps (p.scope env')) := scopeAfter h.2.scope
      exact hrest

end Env.AgreeOn

namespace Checker

/-- Names that stand for given types are entered alike, so that what is done there only has to come
    out alike where the environments agree on what is left. -/
theorem enter_bind_congr {α : Type} {env env' : Env} {used names : List String} {types : List Ty}
    {f : Env → Except Halt α} (h : Env.AgreeOn (without used names) env env')
    (hf : ∀ inner inner', Env.AgreeOn used inner inner' → f inner = f inner') :
    (enter env names types >>= f) = (enter env' names types >>= f) := by
  rw [enter, enter, Env.extend, Env.extend]
  split
  · rename_i hlength
    refine hf _ _ (Env.AgreeOn.bind ?_)
    rwa [List.map_fst_zip (Nat.le_of_eq hlength)]
  · rfl

variable (c : Checker)

mutual

/-- Where the free names of a phrase stand for the same, its check comes to the same. -/
theorem check_congr : ∀ (p : Phrase) {env env' : Env}, Env.AgreeOn p.freeNames env env' →
    c.check p env = c.check p env'
  | .variable _ x, env, env', h => by
      rw [Phrase.freeNames] at h
      rw [check, check, h x List.mem_cons_self]
  | .cond _ test thenPart elsePart, env, env', h => by
      rw [Phrase.freeNames, Env.AgreeOn.append_iff, Env.AgreeOn.append_iff] at h
      obtain ⟨⟨htest, hthen⟩, helse⟩ := h
      rw [check, check, check_congr test htest, check_congr thenPart hthen,
        check_congr elsePart helse]
  | .lambda _ params _ body, env, env', h => by
      rw [Phrase.freeNames] at h
      have hbody : Env.AgreeOn body.freeNames (env.bind (Param.entries params))
          (env'.bind (Param.entries params)) := by
        refine Env.AgreeOn.bind ?_
        rwa [Param.entries, List.map_map]
      rw [check, check, checkBody_congr body hbody]
  | .call _ fn args, env, env', h => by
      rw [Phrase.freeNames, Env.AgreeOn.append_iff] at h
      rw [check, check, check_congr fn h.1]
      refine bind_congr fun t => ?_
      cases t with
      | proc params result => simp only [checkArgs_congr args params h.2]
      | _ => rfl
  | .letIn _ bindings body, env, env', h => by
      rw [Phrase.freeNames, Env.AgreeOn.append_iff] at h
      obtain ⟨hbindings, hbody⟩ := h
      have hinner : Env.AgreeOn body.freeNames
          (env.bind (Param.entries (bindings.map (·.param))))
          (env'.bind (Param.entries (bindings.map (·.param)))) := by
        refine Env.AgreeOn.bind ?_
        rwa [Param.entries, List.map_map, List.map_map]
      rw [check, check, checkBindings_congr bindings hbindings, checkBody_congr body hinner]
  | .letrec _ bindings body, env, env', h => by
      rw [Phrase.freeNames] at h
      rw [check, check]
      refine bind_congr fun hs => bind_congr fun _ => ?_
      refine enter_bind_congr h fun inner inner' hinner => ?_
      rw [Env.AgreeOn.append_iff] at hinner
      rw [checkValues_congr bindings hinner.1, checkBody_congr body hinner.2]
  | .define _ param value, env, env', h => by
      rw [Phrase.freeNames] at h
      have hvalue : Env.AgreeOn value.freeNames (env.bind (Param.entries [param]))
          (env'.bind (Param.entries [param])) := Env.AgreeOn.bind h
      rw [check, check, check_congr value hvalue]
  | .assign _ x value, env, env', h => by
      rw [Phrase.freeNames] at h
      obtain ⟨hx, hvalue⟩ := List.forall_mem_cons.mp h
      rw [check, check, check_congr value hvalue, hx]
  | .typeCase _ type subject arms, env, env', h => by
      rw [Phrase.freeNames, Env.AgreeOn.append_iff] at h
      rw [check, check, check_congr subject h.1, checkArms_congr arms h.2]
  | .literal .., _, _, _ | .quotation .., _, _, _ | .operator .., _, _, _ | .defineType .., _, _, _
  | .param .., _, _, _ | .binding _, _, _, _ | .arm _, _, _, _ | .program .., _, _, _
  | .formless _, _, _, _ | .formlessExpression _, _, _, _ => by rw [check, check]

theorem checkBody_congr : ∀ (b : Body) {env env' : Env}, Env.AgreeOn b.freeNames env env' →
    c.checkBody b env = c.checkBody b env'
  | ⟨init, last⟩, env, env', h => by
      rw [Body.freeNames] at h
      rw [checkBody, checkBody, checkInit_congr init h, check_congr last h.scopeAfter]

theorem checkInit_congr : ∀ (ps : List Phrase) {after : List String} {env env' : Env},
    Env.AgreeOn (Phrase.freeNamesThen ps after) env env' → c.checkInit ps env = c.checkInit ps env'
  | [], _, _, _, _ => by rw [checkInit, checkInit]
  | p :: ps, after, env, env', h => by
      rw [Phrase.freeNamesThen, Env.AgreeOn.append_iff] at h
      rw [checkInit, checkInit, check_congr p h.1, checkInit_congr ps h.2.scope]

theorem checkArgs_congr : ∀ (args : List Phrase) (params : List Ty) {env env' : Env},
    Env.AgreeOn (Phrase.freeNamesEach args) env env' →
    c.checkArgs args params env = c.checkArgs args params env'
  | [], _, _, _, _ => by rw [checkArgs, checkArgs] <;> simp
  | _ :: _, [], _, _, _ => by rw [checkArgs, checkArgs] <;> simp
  | arg :: args, param :: params, env, env', h => by
      rw [Phrase.freeNamesEach, Env.AgreeOn.append_iff] at h
      rw [checkArgs, checkArgs, check_congr arg h.1, checkArgs_congr args params h.2]

theorem checkBindings_congr : ∀ (bs : List Binding) {env env' : Env},
    Env.AgreeOn (Binding.freeNamesEach bs) env env' →
    c.checkBindings bs env = c.checkBindings bs env'
  | [], _, _, _ => by rw [checkBindings, checkBindings]
  | ⟨i, param, value⟩ :: bs, env, env', h => by
      rw [Binding.freeNamesEach, Env.AgreeOn.append_iff] at h
      rw [checkBindings, checkBindings, check_congr value h.1, checkBindings_congr bs h.2]

theorem checkValues_congr : ∀ (bs : List Binding) {env env' : Env},
    Env.AgreeOn (Binding.freeNamesEach bs) env env' →
    c.checkValues bs env = c.checkValues bs env'
  | [], _, _, _ => by rw [checkValues, checkValues]
  | ⟨i, param, value⟩ :: bs, env, env', h => by
      rw [Binding.freeNamesEach, Env.AgreeOn.append_iff] at h
      rw [checkValues, checkValues, check_congr value h.1, checkValues_congr bs h.2]

theorem checkArms_congr : ∀ (arms : List Arm) {env env' : Env},
    Env.AgreeOn (Arm.freeNamesEach arms) env env' → c.checkArms arms env = c.checkArms arms env'
  | [], _, _, _ => by rw [checkArms, checkArms]
  | ⟨i, record, pattern, body⟩ :: arms, env, env', h => by
      rw [Arm.freeNamesEach, Env.AgreeOn.append_iff] at h
      have harm : c.checkArm ⟨i, record, pattern, body⟩ env =
          c.checkArm ⟨i, record, pattern, body⟩ env' := by
        rw [checkArm, checkArm]
        exact bind_congr fun fields => enter_bind_congr h.1 fun _ _ => checkBody_congr body
      rw [checkArms, checkArms, harm, checkArms_congr arms h.2]

end

/-! ### Frames do not show -/

/-- A frame that binds no free name of a phrase may be left out. -/
theorem check_bind_of_unused {p : Phrase} {env : Env} {pairs : List (String × Ty)}
    (h : ∀ x ∈ p.freeNames, x ∉ pairs.map (·.1)) : c.check p (env.bind pairs) = c.check p env := by
  refine check_congr c p fun x hx => ?_
  rw [Env.lookup_bind, lookup_eq_none_iff.mpr (h x hx), Option.getD_none]

/-- One frame may be split in two; what came first in it is then the inner one. -/
theorem check_bind_append (p : Phrase) (env : Env) (inner outer : List (String × Ty)) :
    c.check p (env.bind (inner ++ outer)) = c.check p ((env.bind outer).bind inner) := by
  refine check_congr c p fun x _ => ?_
  rw [Env.lookup_bind, Env.lookup_bind, Env.lookup_bind, List.lookup_append]
  cases inner.lookup x <;> rfl

/-- A frame all of whose names are bound again may be left out. -/
theorem check_bind_hidden {p : Phrase} {env : Env} {inner outer : List (String × Ty)}
    (h : outer.map (·.1) ⊆ inner.map (·.1)) :
    c.check p ((env.bind outer).bind inner) = c.check p (env.bind inner) := by
  refine check_congr c p fun x _ => ?_
  rw [Env.lookup_bind, Env.lookup_bind, Env.lookup_bind]
  cases hinner : inner.lookup x with
  | some t => rfl
  | none =>
    have houter : outer.lookup x = none :=
      lookup_eq_none_iff.mpr fun hx => lookup_eq_none_iff.mp hinner (h hx)
    rw [houter, Option.getD_none]

end Checker

/-- The check of an expression depends on the environment through its free names alone: where these
    stand for the same, the log, the verdict and the report are the same. -/
theorem typeOfExpression_congr (program : Program) (e : Phrase) (env env' : Env) (r : Report)
    (lenient : Bool) (h : ∀ x ∈ e.freeNames, env.lookup x = env'.lookup x) :
    typeOfExpression e env program r lenient = typeOfExpression e env' program r lenient := by
  rw [typeOfExpression_eq, typeOfExpression_eq, Checker.check_congr _ e h]

/-- A body that uses `y` twice and binds `x` and `z` itself. -/
def doubling : Phrase :=
  .letIn 0 [⟨1, ⟨"x", .number⟩, .variable 2 "y"⟩]
    ⟨[.define 3 ⟨"z", .number⟩ (.variable 4 "x")],
      .call 5 (.operator 6 "+") [.variable 7 "z", .variable 8 "y"]⟩

/-- A frame for `y` only. -/
def sparse : Env := Env.bind [] [("y", .number)]

/-- Two frames that also bind `x` and `z`, to other types than the body does. -/
def crowded : Env := Env.bind (Env.bind [] [("x", .string), ("y", .number)]) [("z", .boolean)]

theorem typeOfExpression_congr_doubling :
    (∀ x ∈ doubling.freeNames, sparse.lookup x = crowded.lookup x) ∧
      sparse.lookup "x" ≠ crowded.lookup "x" ∧
      typeOfExpression doubling sparse ⟨[], doubling⟩ {} false =
        typeOfExpression doubling crowded ⟨[], doubling⟩ {} false := by
  have hagree : ∀ x ∈ doubling.freeNames, sparse.lookup x = crowded.lookup x := by decide
  exact ⟨hagree, by decide, typeOfExpression_congr _ doubling sparse crowded {} false hagree⟩

end VariantScheme
