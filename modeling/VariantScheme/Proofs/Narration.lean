import VariantScheme.Proofs.Reporting

/-!
    The log of a verbose report. Each top-level expression is announced before it is checked, and
    the first one that fails is the last to be announced; what is nested inside an expression is
    never announced. Keeping the log changes neither the verdict nor the issues. `exists_stop` says
    of any sequence how far its checks go and what they write. -/

namespace VariantScheme

/-- The line of the log for an expression that reads like this. -/
def announcement (text : String) : String := "Type-Check " ++ text ++ "\n"

/-- The verdict on an expression that stands in a program after the given ones. -/
def Body.verdictOn (program : Program) (lenient : Bool) (before : List Phrase) (p : Phrase) :
    Except Refusal Ty :=
  (typeOfExpression p (scopeAfter before program.catalog.globals) program {} lenient).verdict

/-- The checks of a program stop at `p`. Every expression before it has a type, where it stands; `p`
    itself fails, or has a type and is the last one. -/
structure Body.StopsAt (program : Program) (lenient : Bool) (before : List Phrase) (p : Phrase)
    (after : List Phrase) : Prop where
  whole : program.toList = before ++ p :: after
  passed : ∀ earlier q later, before = earlier ++ q :: later →
    ∃ t : Ty, program.verdictOn lenient earlier q = .ok t ∧ t.Honest
  stopped : (∃ f, program.verdictOn lenient before p = .ok (.failure f)) ∨
    after = [] ∧ ∃ t : Ty, program.verdictOn lenient before p = .ok t ∧ t.Honest

/-! ### What is written -/

/-- A verbose report writes the announcement of an expression that can be written down. -/
theorem Report.note_announcement {r : Report} (hloud : r.verbose = true) {p : Phrase}
    {text : String} (htext : p.unparse = .ok text) :
    r.note [.ok "Type-Check", p.unparse] = (announcement text, .ok ()) := by
  have hwords : "Type-Check" ++ " " ++ (text ++ "\n") = announcement text := by
    rw [announcement, ← String.append_assoc]
    rfl
  rw [note, if_pos hloud, htext, writeLine, writeLine, hwords]
  simp

namespace Checker

variable (c : Checker)

/-- The checks of a sequence go up to the first phrase that has no type, or else to the last one.
    What they write is an announcement for each phrase that they get to, in order. -/
theorem exists_stop {r : Report} (hloud : r.verbose = true) {last : Phrase}
    (hlast : last.Legible) : ∀ (ps : List Phrase) (env : Env), (∀ p ∈ ps, p.Legible) →
      ∃ before p after, ∃ texts : List String, ps ++ [last] = before ++ p :: after ∧
        (before ++ [p]).map Phrase.unparse = texts.map .ok ∧
        (c.narrate r ps last env).1 = String.join (texts.map announcement) ∧
        (∀ earlier q later, before = earlier ++ q :: later →
          ∃ t, c.check q (scopeAfter earlier env) = .ok t) ∧
        ((∃ halt, c.check p (scopeAfter before env) = .error halt) ∨ after = [])
  | [], env, _ => by
      obtain ⟨text, htext⟩ := hlast
      refine ⟨[], last, [], [text], rfl, by simp [htext], ?_, by simp, .inr rfl⟩
      rw [narrate, Report.note_announcement hloud htext]
      simp
  | p :: ps, env, hps => by
      obtain ⟨⟨text, htext⟩, hps⟩ := List.forall_mem_cons.mp hps
      cases hcheck : c.check p env with
      | error halt =>
        refine ⟨[], p, ps ++ [last], [text], rfl, by simp [htext], ?_, by simp,
          .inl ⟨halt, hcheck⟩⟩
        rw [narrate, Report.note_announcement hloud htext]
        simp [hcheck]
      | ok t =>
        obtain ⟨before, q, after, texts, hsplit, htexts, hlog, hpassed, hstopped⟩ :=
          exists_stop hloud hlast ps (p.scope env) hps
        refine ⟨p :: before, q, after, text :: texts, by rw [List.cons_append, hsplit]; rfl,
          by simpa [htext] using htexts, ?_, ?_, by rwa [scopeAfter_cons]⟩
        · rw [narrate, Report.note_announcement hloud htext]
          simp [hcheck, hlog]
        · -- what stands before the stop is `p` itself, or passed in the scope that `p` leaves
          rintro (_ | ⟨_, earlier⟩) x later hbefore
          · obtain ⟨rfl, -⟩ := List.cons.inj hbefore
            exact ⟨t, hcheck⟩
          · obtain ⟨rfl, hrest⟩ := List.cons.inj hbefore
            rw [scopeAfter_cons]
            exact hpassed earlier x later hrest

end Checker

/-! ### The verdicts along the way -/

section

variable {program : Program} {lenient : Bool} {before : List Phrase} {p : Phrase}

/-- Wherever it stands in a well-formed program, a well-formed expression comes to a verdict. -/
theorem Body.WellFormed.conclusive_check (hprogram : program.WellFormed) (lenient : Bool)
    (hbefore : ∀ q ∈ before, q.WellFormed) (hp : p.WellFormed) (hprints : p.Prints) :
    Conclusive (Checker.check ⟨lenient, some program.catalog⟩ p
      (scopeAfter before program.catalog.globals)) := by
  have hk : program.catalog.Honest := hprogram.honest_catalog
  exact hp.conclusive hprints hk (honest_scopeAfter hbefore hk.globals)

/-- The verdict is the type that the check finds. -/
theorem Body.verdictOn_honest {t : Ty}
    (hcheck : Conclusive (Checker.check ⟨lenient, some program.catalog⟩ p
      (scopeAfter before program.catalog.globals)))
    (ht : Checker.check ⟨lenient, some program.catalog⟩ p
      (scopeAfter before program.catalog.globals) = .ok t) :
    program.verdictOn lenient before p = .ok t ∧ t.Honest := by
  rw [ht] at hcheck
  cases hcheck with
  | honest hhonest =>
    rw [verdictOn, typeOfExpression_eq, ht]
    exact ⟨rfl, hhonest⟩

/-- The verdict is a failure when the check finds no type. -/
theorem Body.verdictOn_failure {halt : Halt}
    (hcheck : Conclusive (Checker.check ⟨lenient, some program.catalog⟩ p
      (scopeAfter before program.catalog.globals)))
    (hhalt : Checker.check ⟨lenient, some program.catalog⟩ p
      (scopeAfter before program.catalog.globals) = .error halt) :
    ∃ f, program.verdictOn lenient before p = .ok (.failure f) := by
  rw [hhalt] at hcheck
  cases hcheck with
  | @told f _ _ explained =>
    rw [verdictOn, typeOfExpression_eq, hhalt]
    exact ⟨f, Report.conclude_failed rfl explained⟩

end

/-! ### Whole programs -/

/-- A report enters the same, whether it keeps a log or not. -/
theorem Report.conclude_verbose (r : Report) (verbose : Bool) (x : Except Halt Ty) :
    ({ r with verbose := verbose } : Report).conclude x =
      ((r.conclude x).1, { (r.conclude x).2 with verbose := verbose }) := by
  rcases x with (f | f | e) | t
  · cases hf : f.explain <;> simp [conclude, fail, hf, add, isFull]
  · rfl
  · rfl
  · rfl

/-- Keeping a log changes neither the verdict of a legible program nor the issues. -/
theorem typeOfProgram_verbose {program : Program} (h : ∀ p ∈ program.toList, p.Legible)
    (r : Report) (lenient : Bool) :
    (typeOfProgram program { r with verbose := true } lenient).verdict =
        (typeOfProgram program { r with verbose := false } lenient).verdict ∧
      (typeOfProgram program { r with verbose := true } lenient).report.issues =
        (typeOfProgram program { r with verbose := false } lenient).report.issues := by
  rw [typeOfProgram_eq_of_legible h { r with verbose := true },
    typeOfProgram_eq_of_legible h { r with verbose := false }]
  simp only [Report.conclude_verbose, and_self]

/-- The checks of a well-formed program stop somewhere, and up to there everything is announced. -/
theorem Body.WellFormed.exists_stopsAt {program : Program} (hprogram : program.WellFormed)
    (hprints : program.Prints) {r : Report} (hloud : r.verbose = true) (lenient : Bool) :
    ∃ before p after, ∃ texts : List String, program.StopsAt lenient before p after ∧
      (before ++ [p]).map Phrase.unparse = texts.map .ok ∧
      (typeOfProgram program r lenient).log = String.join (texts.map announcement) := by
  obtain ⟨hinit, hlast⟩ := List.forall_mem_append.mp (hprogram.legible hprints)
  obtain ⟨before, p, after, texts, hwhole, htexts, hlog, hpassed, hstopped⟩ :=
    Checker.exists_stop ⟨lenient, some program.catalog⟩ hloud (hlast _ List.mem_cons_self)
      program.init program.catalog.globals hinit
  have hmembers : ∀ q ∈ before ++ p :: after, q.WellFormed := hwhole ▸ hprogram
  have hdata : ∀ q ∈ before ++ p :: after, q.Prints := hwhole ▸ hprints
  obtain ⟨hbefore, hrest⟩ := List.forall_mem_append.mp hmembers
  have hp := hprogram.conclusive_check lenient hbefore (hrest p List.mem_cons_self)
    (hdata p (by simp))
  refine ⟨before, p, after, texts, ⟨hwhole, ?_, ?_⟩, htexts, ?_⟩
  · rintro earlier q later rfl
    obtain ⟨t, ht⟩ := hpassed earlier q later rfl
    obtain ⟨hearlier, hq⟩ := List.forall_mem_append.mp hbefore
    have hcheck := hprogram.conclusive_check lenient hearlier (hq q List.mem_cons_self)
      (hdata q (by simp))
    exact ⟨t, verdictOn_honest hcheck ht⟩
  · cases hcheck : Checker.check ⟨lenient, some program.catalog⟩ p
      (scopeAfter before program.catalog.globals) with
    | error halt => exact .inl (verdictOn_failure hp hcheck)
    | ok t =>
      have hend : after = [] := hstopped.resolve_left (by simp [hcheck])
      exact .inr ⟨hend, t, verdictOn_honest hp hcheck⟩
  · rw [typeOfProgram_eq]
    exact hlog

/-- The log of a well-formed program whose data can be written down announces exactly the
    expressions that are checked: those up to the first one that fails, or all of them, in order.
    Keeping it changes neither the verdict nor the issues. -/
theorem log_eq_announcements (program : Program) (r : Report) (lenient : Bool)
    (hprogram : program.WellFormed) (hprints : program.Prints) :
    (∃ before p after, ∃ texts : List String, program.StopsAt lenient before p after ∧
        (before ++ [p]).map Phrase.unparse = texts.map .ok ∧
        (typeOfProgram program { r with verbose := true } lenient).log =
          String.join (texts.map announcement)) ∧
      (typeOfProgram program { r with verbose := true } lenient).verdict =
        (typeOfProgram program { r with verbose := false } lenient).verdict ∧
      (typeOfProgram program { r with verbose := true } lenient).report.issues =
        (typeOfProgram program { r with verbose := false } lenient).report.issues :=
  ⟨hprogram.exists_stopsAt hprints rfl lenient,
    typeOfProgram_verbose (hprogram.legible hprints) r lenient⟩

/-- The second of three expressions fails, inside a body that has a definition of its own. -/
def faltering : Program :=
  ⟨[.define 0 ⟨"x", .number⟩ (.literal 1 (.int 1)),
    .letIn 2 [] ⟨[.define 3 ⟨"y", .number⟩ (.variable 4 "x")], .variable 5 "z"⟩],
    .variable 6 "x"⟩

theorem log_eq_announcements_faltering :
    faltering.WellFormed ∧ faltering.Prints ∧
      (typeOfProgram faltering { verbose := true } false).log =
        "Type-Check (define (x : number) 1)\nType-Check (let () (define (y : number) x) z)\n" ∧
      (∃ before p after, ∃ texts : List String, faltering.StopsAt false before p after ∧
        (before ++ [p]).map Phrase.unparse = texts.map .ok ∧
        (typeOfProgram faltering { verbose := true } false).log =
          String.join (texts.map announcement)) ∧
      (typeOfProgram faltering { verbose := true } false).verdict =
        (typeOfProgram faltering { verbose := false } false).verdict ∧
      (typeOfProgram faltering { verbose := true } false).report.issues =
        (typeOfProgram faltering { verbose := false } false).report.issues := by
  have hlet : (Phrase.letIn 2 [] ⟨[.define 3 ⟨"y", .number⟩ (.variable 4 "x")],
      .variable 5 "z"⟩).WellFormed :=
    .letIn (by simp) (by simp) (List.forall_mem_cons.mpr
      ⟨.define .atom .variable, List.forall_mem_singleton.mpr .variable⟩)
  have hprogram : faltering.WellFormed :=
    List.forall_mem_cons.mpr ⟨.define .atom (.literal rfl),
      List.forall_mem_cons.mpr ⟨hlet, List.forall_mem_singleton.mpr .variable⟩⟩
  have hblock : (Phrase.letIn 2 [] ⟨[.define 3 ⟨"y", .number⟩ (.variable 4 "x")],
      .variable 5 "z"⟩).Prints :=
    .of_parts rfl (List.forall_mem_cons.mpr
      ⟨.of_parts rfl (List.forall_mem_singleton.mpr (.leaf rfl rfl)),
        List.forall_mem_singleton.mpr (.leaf rfl rfl)⟩)
  have hprints : faltering.Prints :=
    List.forall_mem_cons.mpr
      ⟨.of_parts rfl (List.forall_mem_singleton.mpr (.literal (.digit (by decide)))),
        List.forall_mem_cons.mpr ⟨hblock, List.forall_mem_singleton.mpr (.leaf rfl rfl)⟩⟩
  exact ⟨hprogram, hprints, by decide, log_eq_announcements faltering {} false hprogram hprints⟩

end VariantScheme
