import VariantScheme.Proofs.Diagnosis

/-!
    Well-formed code comes to a verdict, strictly or leniently, with any report that has no limit:
    an honest type, or a failure of a particular kind. A check can only be broken off by what the
    report has to write down. A failure points to a place inside the code, and where all data in the
    code can be written down, so can every place in it; hence every failure can be explained, and
    every top-level expression announced. -/

namespace VariantScheme

/-- The outcome is an honest type, or a diagnosis that can be told to the reader. -/
inductive Conclusive : Except Halt Ty → Prop
  | honest {t : Ty} (ht : t.Honest) : Conclusive (.ok t)
  | told {f : Failure} {issue : Issue} (kind : f.isDiagnosis = true)
      (explained : f.explain = .ok issue) : Conclusive (.error (.failed f))

/-! ### Outcomes -/

section

variable {k : Catalog} {lenient : Bool} {unbound : String → Prop}

/-- The place of a failure that holds of legible code can be shown. -/
theorem Failure.Holds.exists_text {f : Failure}
    (h : f.Holds k unbound fun q => q.Within Phrase.Legible) {site : Occurrence}
    (hsite : f.site? = some site) : ∃ text, site.text = .ok text := by
  cases f with
  | incompatible =>
    obtain rfl := Option.some.inj hsite
    obtain ⟨⟨p, hp, rfl⟩, -⟩ := h
    exact hp.self
  | notAProcedure =>
    obtain rfl := Option.some.inj hsite
    obtain ⟨⟨i, fn, args, hcall, rfl⟩, -⟩ := h
    exact hcall.self
  | arityMismatch =>
    obtain rfl := Option.some.inj hsite
    obtain ⟨-, ⟨i, fn, args, hcall, rfl, -⟩ | ⟨arm, harm, rfl, -⟩⟩ := h
    · exact hcall.self
    · exact harm.self
  | letrecRequiresProcedures =>
    obtain rfl := Option.some.inj hsite
    obtain ⟨i, bindings, body, b, hletrec, hb, rfl, -⟩ := h
    exact (hletrec.part (List.mem_append_left _ (List.mem_map_of_mem hb))).self
  | _ => cases hsite

/-- What settles, and fails only for reasons that hold of legible code, is conclusive. -/
theorem Conclusive.of_settles {x : Except Halt Ty} (hsettles : Settles Ty.Honest x)
    (hfails : FailsOnly (Failure.Holds k unbound fun q => q.Within Phrase.Legible) x) :
    Conclusive x := by
  rcases x with (f | f | e) | t
  · obtain ⟨issue, hissue⟩ := hsettles.explained fun _ => Failure.Holds.exists_text hfails
    exact .told hsettles.kind hissue
  · exact absurd hsettles id
  · exact absurd hsettles id
  · exact .honest hsettles

theorem Phrase.WellFormed.conclusive {p : Phrase} (hp : p.WellFormed) (hprints : p.Prints)
    (hk : k.Honest) {env : Env} (henv : env.Honest) :
    Conclusive ((⟨lenient, some k⟩ : Checker).check p env) := by
  -- which names are unbound does not matter here
  have hfails : FailsOnly (Failure.Holds k (fun _ => True) fun q => q.Within Phrase.Legible)
      ((⟨lenient, some k⟩ : Checker).check p env) :=
    Checker.diagnoses_of_wellFormed hk hp env henv (fun _ _ _ => trivial)
      (hp.within_legible hprints).within
  exact .of_settles (Checker.checks_of_wellFormed hk hp env henv) hfails

theorem Body.WellFormed.conclusive {program : Program} (hprogram : program.WellFormed)
    (hprints : program.Prints) :
    Conclusive (Checker.checkBody ⟨lenient, some program.catalog⟩ program
      program.catalog.globals) := by
  have hk : program.catalog.Honest := hprogram.honest_catalog
  have hfails : FailsOnly
      (Failure.Holds program.catalog (fun _ => True) fun q => q.Within Phrase.Legible)
      (Checker.checkBody ⟨lenient, some program.catalog⟩ program program.catalog.globals) :=
    Checker.holds_checkBody hprogram
      (fun p hp => Checker.diagnoses_of_wellFormed hk (hprogram p hp))
      (fun p hp => ((hprogram p hp).within_legible (hprints p hp)).within) hk.globals
      fun _ _ _ => trivial
  exact .of_settles (Checker.settles_checkBody hprogram
    (fun p hp => Checker.checks_of_wellFormed hk (hprogram p hp)) hk.globals) hfails

end

/-! ### Announcements -/

/-- What a report has to say about legible code can be said. -/
theorem Report.exists_note (r : Report) {p : Phrase} (hp : p.Legible) :
    ∃ line, r.note [.ok "Type-Check", p.unparse] = (line, .ok ()) := by
  obtain ⟨text, htext⟩ := hp
  rw [Report.note, htext]
  split
  · exact ⟨_, rfl⟩
  · exact ⟨_, rfl⟩

/-- Where the code can be written down, whether a log is kept makes no difference to the outcome. -/
theorem Checker.narrate_snd (c : Checker) (r : Report) {last : Phrase} (hlast : last.Legible) :
    ∀ {ps : List Phrase} {env : Env}, (∀ p ∈ ps, p.Legible) →
      (c.narrate r ps last env).2 = c.checkBody ⟨ps, last⟩ env
  | [], env, _ => by
      obtain ⟨line, hline⟩ := r.exists_note hlast
      rw [narrate, hline]
      rfl
  | p :: ps, env, hps => by
      obtain ⟨hp, hps⟩ := List.forall_mem_cons.mp hps
      obtain ⟨line, hline⟩ := r.exists_note hp
      have hrest : (c.narrate r ps last (p.scope env)).2 = c.checkBody ⟨ps, last⟩ (p.scope env) :=
        narrate_snd c r hlast hps
      rw [narrate, hline, checkBody_cons, ← hrest]
      cases c.check p env <;> rfl

/-- What a program that can be written down comes to is concluded from the check of its body. -/
theorem typeOfProgram_eq_of_legible {program : Program} (h : ∀ p ∈ program.toList, p.Legible)
    (r : Report) (lenient : Bool) :
    typeOfProgram program r lenient =
      let outcome := r.conclude
        (Checker.checkBody ⟨lenient, some program.catalog⟩ program program.catalog.globals)
      ⟨(typeOfProgram program r lenient).log, outcome.1, outcome.2⟩ := by
  obtain ⟨init, last⟩ := program
  obtain ⟨hinit, hlast⟩ := List.forall_mem_append.mp h
  rw [← Checker.narrate_snd _ r (hlast last List.mem_cons_self) hinit, typeOfProgram_eq]

/-- A well-formed program all of whose data can be written down is legible. -/
theorem Body.WellFormed.legible {program : Program} (hprogram : program.WellFormed)
    (hprints : program.Prints) : ∀ p ∈ program.toList, p.Legible :=
  fun p hp => ((hprogram p hp).within_legible (hprints p hp)).self

/-! ### The verdict -/

/-- Without a limit, a failure that can be explained is the verdict. -/
theorem Report.conclude_failed {r : Report} {f : Failure} {issue : Issue} (hlimit : r.limit = none)
    (explained : f.explain = .ok issue) :
    (r.conclude (.error (.failed f))).1 = .ok (.failure f) := by
  have hfail : (r.fail f).1 = .ok () := by
    simp [Report.fail, explained, Report.add, Report.isFull, hlimit]
  rw [Report.conclude, hfail]
  rfl

/-- Without a limit, a conclusive outcome is the verdict. -/
theorem Conclusive.exists_verdict {x : Except Halt Ty} (h : Conclusive x) {r : Report}
    (hlimit : r.limit = none) : ∃ t, (r.conclude x).1 = .ok t ∧ t.IsVerdict := by
  cases h with
  | @honest t ht => exact ⟨t, rfl, .inl ht⟩
  | @told f _ kind explained =>
    exact ⟨.failure f, Report.conclude_failed hlimit explained, .inr ⟨f, rfl, kind⟩⟩

/-- The check of well-formed code comes to a verdict, for a program and for an expression in its
    context, strictly or leniently, when all integers in what is checked can be written down. -/
theorem exists_verdict_of_wellFormed (program : Program) (e : Phrase) (env : Env) (r : Report)
    (lenient : Bool) (hprogram : program.WellFormed) (he : e.WellFormed) (henv : env.Honest)
    (hlimit : r.limit = none) :
    (program.Prints → ∃ t, (typeOfProgram program r lenient).verdict = .ok t ∧ t.IsVerdict) ∧
      (e.Prints → ∃ t, (typeOfExpression e env program r lenient).verdict = .ok t ∧
        t.IsVerdict) := by
  constructor
  · intro hprints
    rw [typeOfProgram_eq_of_legible (hprogram.legible hprints)]
    exact (hprogram.conclusive hprints).exists_verdict hlimit
  · intro hprints
    rw [typeOfExpression_eq]
    exact (he.conclusive hprints hprogram.honest_catalog henv).exists_verdict hlimit

/-- A variant with one case. -/
def switches : Program := ⟨[], .defineType 0 ⟨"Switch", [⟨"On", [⟨"level", .number⟩]⟩]⟩⟩

/-- An analysis of a switch whose only arm has no name for the field. -/
def switchCase : Phrase :=
  .typeCase 1 "Switch" (.variable 2 "x") [⟨3, "On", [], ⟨[], .literal 4 (.int 7)⟩⟩]

theorem exists_verdict_of_wellFormed_switches :
    switches.WellFormed ∧ switchCase.WellFormed ∧ switches.Prints ∧ switchCase.Prints ∧
      Env.Honest (Env.bind [] [("x", .named "Switch")]) ∧
      (∃ t, (typeOfProgram switches {} true).verdict = .ok t ∧ t.IsVerdict) ∧
      ∃ t, (typeOfExpression switchCase (Env.bind [] [("x", .named "Switch")]) switches {}
        true).verdict = .ok t ∧ t.IsVerdict := by
  have hfields : ∀ t ∈ [Ty.number], t.Honest := List.forall_mem_singleton.mpr .atom
  have hprogram : switches.WellFormed :=
    List.forall_mem_singleton.mpr (.defineType (.variant (List.forall_mem_singleton.mpr hfields)))
  have hcase : switchCase.WellFormed :=
    .typeCase .variable
      (List.forall_mem_singleton.mpr (List.forall_mem_singleton.mpr (.literal rfl)))
  have hswitches : switches.Prints := List.forall_mem_singleton.mpr (.leaf rfl rfl)
  have harm : (Phrase.arm ⟨3, "On", [], ⟨[], .literal 4 (.int 7)⟩⟩).Prints :=
    .of_parts rfl (List.forall_mem_singleton.mpr (.literal (.digit (by decide))))
  have hprints : switchCase.Prints :=
    .of_parts rfl (List.forall_mem_cons.mpr ⟨.leaf rfl rfl, List.forall_mem_singleton.mpr harm⟩)
  have henv : Env.Honest (Env.bind [] [("x", .named "Switch")]) :=
    Env.Honest.bind (fun _ _ h => nomatch h) (List.forall_mem_singleton.mpr .named)
  obtain ⟨htypes, hverdict⟩ :=
    exists_verdict_of_wellFormed switches switchCase _ {} true hprogram hcase henv rfl
  exact ⟨hprogram, hcase, hswitches, hprints, henv, htypes hswitches, hverdict hprints⟩

/-- That integers can be written down is not too much to ask. Where one that cannot be is to blame
    for a failure, the check is broken off, and nothing is entered in the report. -/
theorem typeOfExpression_cond_of_not_prints {n : Int} (hn : ¬ (Datum.int n).Prints) (i j : Nat)
    (thenPart elsePart : Phrase) (env : Env) (program : Program) (r : Report) (lenient : Bool) :
    typeOfExpression (.cond i (.literal j (.int n)) thenPart elsePart) env program r lenient =
      ⟨"", .error (.unprintable .numeral), r⟩ := by
  have htext : (Phrase.literal j (.int n)).occurrence.text = .error .numeral :=
    Datum.numeral_eq_error hn
  have hcheck : Checker.check ⟨lenient, some program.catalog⟩
      (.cond i (.literal j (.int n)) thenPart elsePart) env =
        .error (.failed (.incompatible .number .boolean
          (Phrase.literal j (.int n)).occurrence)) := by
    rw [Checker.check, Checker.check]
    rfl
  have hfail : r.fail (.incompatible .number .boolean (Phrase.literal j (.int n)).occurrence) =
      (.error (.unprintable .numeral), r) := by
    rw [Report.fail, Failure.explain, Occurrence.exhibit, htext]
    rfl
  rw [typeOfExpression_eq, hcheck, Report.conclude, hfail]
  rfl

end VariantScheme
