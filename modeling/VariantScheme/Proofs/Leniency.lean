import VariantScheme.Proofs.Simulation
import VariantScheme.Proofs.Verdicts

/-!
    Leniency only relaxes. A lenient check is a strict one but for two forms: an assignment gets
    another type, and a case analysis is taken on trust. So code without assignments that has a type
    when it is checked strictly has the same type when it is checked leniently; without case
    analyses too, the two checks come to the same whatever they come to. -/

namespace VariantScheme

/-- There is no assignment in the phrase, at any depth. -/
def Phrase.NeverAssigns (p : Phrase) : Prop := ∀ i x value, ¬ p.Contains (.assign i x value)

/-- There is no case analysis in the phrase, at any depth. -/
def Phrase.NeverAnalyses (p : Phrase) : Prop :=
  ∀ i type subject arms, ¬ p.Contains (.typeCase i type subject arms)

namespace Checker

variable {k : Catalog} {excused : Halt → Prop}

/-- The steps that any form may take do not depend on leniency. -/
theorem follows_lenient (k : Catalog) (excused : Halt → Prop) :
    Follows excused (fun _ => True) ⟨false, some k⟩ ⟨true, some k⟩ where
  atom _ := trivial
  quoted := trivial
  var _ _ := trivial
  proc_iff _ _ := ⟨fun _ => ⟨fun _ _ => trivial, trivial⟩, fun _ => trivial⟩
  expect _ _ _ := rfl
  branches _ _ := .same fun _ _ => trivial
  join _ := .same fun _ _ => trivial

theorem within_lenient {p : Phrase} (hassign : p.NeverAssigns)
    (hcase : (∀ e, excused e) ∨ p.NeverAnalyses) :
    p.Within (AlikeAt excused (fun _ => True) ⟨false, some k⟩ ⟨true, some k⟩) := by
  intro q hq
  refine ⟨fun _ _ => trivial, ?_⟩
  cases q with
  | assign i x value => exact absurd hq (hassign i x value)
  | typeCase i type subject arms =>
    exact .inr ⟨rfl, hcase.resolve_right fun hnever => hnever i type subject arms hq⟩
  | defineType => rfl
  | arm a => exact ⟨rfl, fun _ _ _ _ => trivial⟩
  | _ => trivial

end Checker

/-! ### Runs -/

/-- Leniently an expression comes to the same, unless the strict check halts and is excused. -/
theorem typeOfExpression_lenient {e : Phrase} {env : Env} {program : Program} {r : Report}
    (excused : Halt → Prop) (hassign : e.NeverAssigns)
    (hcase : (∀ halt, excused halt) ∨ e.NeverAnalyses)
    (hhalt : ∀ halt, (⟨false, some program.catalog⟩ : Checker).check e env = .error halt →
      ¬ excused halt) :
    typeOfExpression e env program r true = typeOfExpression e env program r false := by
  have henv : env.Clean fun _ => True := fun _ _ _ => trivial
  have hcheck := ((Checker.follows_lenient program.catalog excused).check e
    (Checker.within_lenient hassign hcase) henv).eq_or_excused
  rcases hcheck with hsame | ⟨halt, hstrict, hexcused⟩
  · rw [typeOfExpression_eq, typeOfExpression_eq, hsame]
  · exact absurd hexcused (hhalt halt hstrict)

/-- The same of a program. -/
theorem typeOfProgram_lenient {program : Program} {r : Report} (excused : Halt → Prop)
    (hassign : ∀ p ∈ program.toList, p.NeverAssigns)
    (hcase : (∀ halt, excused halt) ∨ ∀ p ∈ program.toList, p.NeverAnalyses)
    (hhalt : ∀ halt, ((⟨false, some program.catalog⟩ : Checker).narrate r program.init program.last
      program.catalog.globals).2 = .error halt → ¬ excused halt) :
    typeOfProgram program r true = typeOfProgram program r false := by
  have hall : ∀ p ∈ program.toList, p.Within (Checker.AlikeAt excused (fun _ => True)
      ⟨false, some program.catalog⟩ ⟨true, some program.catalog⟩) :=
    fun p hp => Checker.within_lenient (hassign p hp) (hcase.imp id fun hnever => hnever p hp)
  obtain ⟨hinit, hlast⟩ := List.forall_mem_append.mp hall
  have henv : program.catalog.globals.Clean fun _ => True := fun _ _ _ => trivial
  have hnarrate := (Checker.follows_lenient program.catalog excused).narrate r
    (hlast _ List.mem_cons_self) program.init hinit henv
  rcases hnarrate with hsame | ⟨halt, hstrict, hexcused⟩
  · rw [typeOfProgram_eq, typeOfProgram_eq, hsame]
  · exact absurd hexcused (hhalt halt hstrict)

/-- A lenient check only relaxes. Where nothing is assigned to, an expression or a program that has
    a type when it is checked strictly has the same one leniently; where no case is analysed either,
    the lenient check comes to whatever the strict one comes to. The log and the report are the same
    too. -/
theorem lenient_relaxes (program : Program) (e : Phrase) (env : Env) (r : Report) :
    (e.NeverAssigns →
      (∀ t, (typeOfExpression e env program r false).verdict = .ok t → t.isFailure = false →
        typeOfExpression e env program r true = typeOfExpression e env program r false) ∧
      (e.NeverAnalyses →
        typeOfExpression e env program r true = typeOfExpression e env program r false)) ∧
    ((∀ p ∈ program.toList, p.NeverAssigns) →
      (∀ t, (typeOfProgram program r false).verdict = .ok t → t.isFailure = false →
        typeOfProgram program r true = typeOfProgram program r false) ∧
      ((∀ p ∈ program.toList, p.NeverAnalyses) →
        typeOfProgram program r true = typeOfProgram program r false)) := by
  refine ⟨fun hassign => ⟨fun t hverdict ht => ?_, fun hcase => ?_⟩,
    fun hassign => ⟨fun t hverdict ht => ?_, fun hcase => ?_⟩⟩
  · have hstrict := (verdict_eq_ok_iff ht).mp hverdict
    refine typeOfExpression_lenient (fun _ => True) hassign (.inl fun _ => trivial) ?_
    intro halt hhalt
    cases hstrict.symm.trans hhalt
  · exact typeOfExpression_lenient (fun _ => False) hassign (.inr hcase) fun _ _ => id
  · rw [typeOfProgram_eq] at hverdict
    have hstrict := (Report.conclude_eq_ok_iff ht).mp hverdict
    refine typeOfProgram_lenient (fun _ => True) hassign (.inl fun _ => trivial) ?_
    intro halt hhalt
    cases hstrict.symm.trans hhalt
  · exact typeOfProgram_lenient (fun _ => False) hassign (.inr hcase) fun _ _ => id

/-- The level of a switch. -/
def switchLevel : Phrase :=
  .typeCase 2 "Switch" (.variable 3 "x") [⟨4, "On", ["n"], ⟨[], .variable 5 "n"⟩⟩]

/-- The level of a switch, as one branch of two. -/
def levelOrZero : Phrase := .cond 0 (.literal 1 (.bool true)) switchLevel (.literal 6 (.int 0))

theorem lenient_relaxes_levelOrZero :
    levelOrZero.NeverAssigns ∧
      (typeOfExpression levelOrZero (Env.bind [] [("x", .named "Switch")]) switches {}
        false).verdict = .ok .number ∧
      typeOfExpression levelOrZero (Env.bind [] [("x", .named "Switch")]) switches {} true =
        typeOfExpression levelOrZero (Env.bind [] [("x", .named "Switch")]) switches {} false := by
  have harm : (Phrase.arm ⟨4, "On", ["n"], ⟨[], .variable 5 "n"⟩⟩).Within
      fun q => ∀ i x value, q ≠ .assign i x value :=
    .of_parts nofun (List.forall_mem_singleton.mpr (.leaf nofun rfl))
  have hlevel : switchLevel.Within fun q => ∀ i x value, q ≠ .assign i x value :=
    .of_parts nofun (List.forall_mem_cons.mpr ⟨.leaf nofun rfl, List.forall_mem_singleton.mpr harm⟩)
  have hwithin : levelOrZero.Within fun q => ∀ i x value, q ≠ .assign i x value :=
    .of_parts nofun (List.forall_mem_cons.mpr ⟨.leaf nofun rfl,
      List.forall_mem_cons.mpr ⟨hlevel, List.forall_mem_singleton.mpr (.leaf nofun rfl)⟩⟩)
  have hassign : levelOrZero.NeverAssigns := fun i x value h => hwithin _ h i x value rfl
  have hverdict : (typeOfExpression levelOrZero (Env.bind [] [("x", .named "Switch")]) switches {}
      false).verdict = .ok .number := rfl
  exact ⟨hassign, hverdict, ((lenient_relaxes switches levelOrZero _ {}).1 hassign).1 .number
    hverdict rfl⟩

end VariantScheme
