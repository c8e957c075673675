import VariantScheme.Proofs.Checking
import VariantScheme.Proofs.FreeNames

/-!
    A program and one more expression. To check the expression as the last of the program is to
    check it where the program's definitions have been entered one after the other, so that the
    last one of a name counts; its global frame has them all at once, and there the first one
    counts. The two come to the same where the first and the last definition of each free name
    declare the same type. -/

namespace VariantScheme

/-- The program with an expression more at its end. -/
def Body.followedBy (program : Program) (e : Phrase) : Program := ⟨program.toList, e⟩

theorem Body.catalog_followedBy (program : Program) {e : Phrase} (hdef : e.definition? = none)
    (hdecl : e.declaration? = none) : (program.followedBy e).catalog = program.catalog := by
  have htoList : (program.followedBy e).toList = program.toList ++ [e] := rfl
  simp [Body.catalog, Catalog.ofPhrases, htoList, hdef, hdecl]

/-! ### The check of a program as that of a body -/

namespace Checker

variable (c : Checker)

/-- Without a log, a program is checked as a body is. -/
theorem narrate_eq_checkBody {r : Report} (hquiet : r.verbose = false) (last : Phrase)
    (ps : List Phrase) (env : Env) :
    c.narrate r ps last env = ("", c.checkBody ⟨ps, last⟩ env) := by
  induction ps generalizing env with
  | nil =>
    simp only [narrate, Report.note, hquiet]
    rfl
  | cons p ps ih =>
    simp only [narrate, Report.note, hquiet, ih, checkBody_cons]
    cases c.check p env <;> rfl

/-- The members of a body can be gone through exactly when the body has a type. -/
theorem checkInit_toList (b : Body) (env : Env) :
    c.checkInit b.toList env = c.checkBody b env >>= fun _ => .ok () := by
  obtain ⟨init, last⟩ := b
  rw [Body.toList]
  induction init generalizing env with
  | nil => rfl
  | cons p ps ih => rw [List.cons_append, checkInit, checkBody_cons, bind_assoc, ih]

end Checker

/-! ### The last definition counts -/

/-- After a sequence, a name stands for what the last definition of it declares. -/
theorem lookup_scopeAfter (x : String) (ps : List Phrase) (env : Env) :
    (scopeAfter ps env).lookup x =
      ((Param.entries (ps.filterMap Phrase.definition?)).reverse.lookup x).getD
        (env.lookup x) := by
  induction ps generalizing env with
  | nil => rfl
  | cons p ps ih =>
    rw [Checker.scopeAfter_cons, ih, Phrase.scope]
    cases hdef : p.definition? with
    | none => rw [List.filterMap_cons_none hdef]
    | some new =>
      have hentries : (Param.entries (new :: ps.filterMap Phrase.definition?)).reverse =
          (Param.entries (ps.filterMap Phrase.definition?)).reverse ++ Param.entries [new] := by
        simp [Param.entries]
      rw [List.filterMap_cons_some hdef, hentries, List.lookup_append, Env.lookup_bind,
        Option.getD_or]

/-- The definitions of a program, as pairs. -/
def Body.definedPairs (program : Program) : List (String × Ty) :=
  Param.entries program.catalog.definitions

/-- Among the globals, a name stands for what the first definition of it declares. -/
theorem lookup_globals_of_defined {program : Program} {x : String} {t : Ty}
    (h : program.definedPairs.lookup x = some t) : program.catalog.globals.lookup x = t := by
  rw [Catalog.globals, Env.lookup_bind, List.append_assoc, List.lookup_append]
  rw [Body.definedPairs] at h
  rw [h]
  rfl

/-- After the whole program a name stands for the same as among the globals, if its first and its
    last definition declare the same. -/
theorem lookup_scopeAfter_globals {program : Program} {x : String}
    (h : program.definedPairs.lookup x = program.definedPairs.reverse.lookup x) :
    (scopeAfter program.toList program.catalog.globals).lookup x =
      program.catalog.globals.lookup x := by
  have hlast : (scopeAfter program.toList program.catalog.globals).lookup x =
      (program.definedPairs.reverse.lookup x).getD (program.catalog.globals.lookup x) :=
    lookup_scopeAfter x program.toList program.catalog.globals
  rw [hlast, ← h]
  cases hdef : program.definedPairs.lookup x with
  | none => rfl
  | some t => exact (lookup_globals_of_defined hdef).symm

/-! ### One more expression -/

/-- Without a log, the check of a program is that of its body among the globals. -/
theorem typeOfProgram_eq_conclude {program : Program} {r : Report} {lenient : Bool}
    (hquiet : r.verbose = false) :
    typeOfProgram program r lenient =
      let outcome := r.conclude
        (Checker.checkBody ⟨lenient, some program.catalog⟩ program program.catalog.globals)
      ⟨"", outcome.1, outcome.2⟩ := by
  obtain ⟨init, last⟩ := program
  rw [typeOfProgram_eq, Checker.narrate_eq_checkBody _ hquiet]

/-- When a program has been found to have a type, an expression more at its end is checked in the
    scope that the program leaves. -/
theorem typeOfProgram_followedBy {program : Program} {e : Phrase} {r : Report} {lenient : Bool}
    {t : Ty} (hquiet : r.verbose = false) (hdef : e.definition? = none)
    (hdecl : e.declaration? = none)
    (hchecked : (typeOfProgram program r lenient).verdict = .ok t) (ht : t.isFailure = false) :
    typeOfProgram (program.followedBy e) r lenient =
      typeOfExpression e (scopeAfter program.toList program.catalog.globals) program r lenient := by
  rw [typeOfProgram_eq_conclude hquiet] at hchecked
  have hbody := (Report.conclude_eq_ok_iff ht).mp hchecked
  have hinit : Checker.checkInit ⟨lenient, some program.catalog⟩ program.toList
      program.catalog.globals = .ok () := by
    rw [Checker.checkInit_toList]
    exact bind_eq_ok_iff.mpr ⟨t, hbody, rfl⟩
  rw [typeOfProgram_eq_conclude hquiet, program.catalog_followedBy hdef hdecl, Body.followedBy,
    Checker.checkBody, hinit, typeOfExpression_eq]
  rfl

/-- To check an expression against the globals of a checked program is to check it as the last of
    that program, if the first and the last definition of each of its free names declare the same
    type. -/
theorem typeOfExpression_globals_eq (program : Program) (e : Phrase) (r : Report) {t : Ty}
    (hquiet : r.verbose = false) (hdef : e.definition? = none) (hdecl : e.declaration? = none)
    (hchecked : (typeOfProgram program r false).verdict = .ok t) (ht : t.isFailure = false)
    (hsame : ∀ x ∈ e.freeNames,
      program.definedPairs.lookup x = program.definedPairs.reverse.lookup x) :
    typeOfExpression e program.catalog.globals program r false =
      typeOfProgram (program.followedBy e) r false := by
  have hagree : Env.AgreeOn e.freeNames program.catalog.globals
      (scopeAfter program.toList program.catalog.globals) :=
    fun x hx => (lookup_scopeAfter_globals (hsame x hx)).symm
  rw [typeOfProgram_followedBy hquiet hdef hdecl hchecked ht, typeOfExpression_eq,
    typeOfExpression_eq, Checker.check_congr _ e hagree]

/-- A program that defines `x` as a number, and `y` first as a number and then as a string. -/
def retyped : Program :=
  ⟨[.define 0 ⟨"x", .number⟩ (.literal 1 (.int 1)), .define 2 ⟨"y", .number⟩ (.literal 3 (.int 2)),
    .define 4 ⟨"x", .number⟩ (.variable 5 "y")], .define 6 ⟨"y", .string⟩ (.literal 7 (.text "a"))⟩

/-- The successor of a variable. -/
def successor (x : String) : Phrase :=
  .call 8 (.operator 9 "+") [.variable 10 x, .literal 11 (.int 1)]

theorem typeOfExpression_globals_eq_retyped :
    (typeOfProgram retyped {} false).verdict = .ok .void ∧
      (typeOfProgram (retyped.followedBy (successor "x")) {} false).verdict = .ok .number ∧
      typeOfExpression (successor "x") retyped.catalog.globals retyped {} false =
        typeOfProgram (retyped.followedBy (successor "x")) {} false := by
  have hsame : ∀ x ∈ (successor "x").freeNames,
      retyped.definedPairs.lookup x = retyped.definedPairs.reverse.lookup x := by decide
  exact ⟨rfl, rfl, typeOfExpression_globals_eq retyped (successor "x") {} rfl rfl rfl
    (t := .void) rfl rfl hsame⟩

/-- A name that was defined again with another type: the globals still have the first type, so that
    a use is accepted which the program itself would not accept at its end. -/
theorem retyped_successor_differs :
    (typeOfProgram retyped {} false).verdict = .ok .void ∧
      (typeOfExpression (successor "y") retyped.catalog.globals retyped {} false).verdict =
        .ok .number ∧
      (typeOfProgram (retyped.followedBy (successor "y")) {} false).verdict =
        .ok (.failure (.incompatible .string .number (Phrase.variable 10 "y").occurrence)) :=
  ⟨rfl, rfl, rfl⟩

end VariantScheme
