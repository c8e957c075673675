import VariantScheme.Visit

/-!
    A session: a program, a report, a checker that enters its failures there, and an environment to
    look names up in, all of which commands may replace. The checker keeps the catalog of the
    program that it was last used with. -/

namespace VariantScheme

/-- The state that commands work on. -/
structure Session where
  program : Program
  checker : Checker
  report : Report
  env : Env
  picks : Picks

/-- What can be asked of a session. `check` works with the current program, and `checkAsIs` with
    whatever catalog the checker has; `forget` empties the environment and `useGlobals` replaces it
    by the program's own; `insistClean` refuses when there are issues. -/
inductive Command where
  | checkProgram (replacement? : Option Program)
  | check (e : Phrase)
  | checkAsIs (e : Phrase)
  | forget
  | useGlobals
  | extend (names : List String) (types : List Ty)
  | lookup (name : String)
  | frames
  | isOk
  | isSick
  | issues
  | reset
  | note (items : List Printed)
  | failure (t : Ty)
  | issue (i : Issue)
  | complain
  | insistClean (message : String)
  | newReport (verbose : Bool) (limit : Option Int)
  | lenient (b : Bool)

/-- What a command answers. -/
inductive Answer where
  | done
  | judgement (t : Ty)
  | flag (b : Bool)
  | texts (lines : List String)
  | frames (env : Env)

/-- An answer or a refusal, with what was written meanwhile. -/
structure Reply where
  answer : Except Refusal Answer
  log : String := ""

namespace Session

/-- A session at its beginning. The checker has no catalog yet. -/
def start (program : Program) (lenient verbose : Bool) (limit : Option Int) (picks : Picks) :
    Session where
  program := program
  checker := ⟨lenient, none⟩
  report := { verbose := verbose, limit := limit }
  env := program.catalog.globals
  picks := picks

/-- Takes over the report of a run and answers its verdict. -/
def settle (s : Session) (run : Run) : Reply × Session :=
  (⟨run.verdict.map .judgement, run.log⟩, { s with report := run.report })

/-- Takes over a report that something was entered in. -/
def entered (s : Session) (entry : Except Refusal Unit × Report) : Reply × Session :=
  (⟨entry.1.map fun _ => .done, ""⟩, { s with report := entry.2 })

/-- One command. What changed before a refusal stays changed. -/
def step (s : Session) : Command → Reply × Session
  | .checkProgram replacement? =>
      let program := replacement?.getD s.program
      let checker := { s.checker with catalog? := some program.catalog }
      { s with program := program, checker := checker }.settle
        ((Request.program program checker.lenient).run s.report)
  | .check e =>
      let checker := { s.checker with catalog? := some s.program.catalog }
      { s with checker := checker }.settle
        ((Request.expression e s.env s.program checker.lenient).run s.report)
  | .checkAsIs e => s.settle (s.checker.runPhrase s.report e s.env)
  | .forget => (⟨.ok .done, ""⟩, { s with env := [] })
  | .useGlobals => (⟨.ok .done, ""⟩, { s with env := s.program.catalog.globals })
  | .extend names types =>
      match s.env.extend names types with
      | .ok env => (⟨.ok .done, ""⟩, { s with env := env })
      | .error e => (⟨.error e, ""⟩, s)
  | .lookup name => (⟨.ok (.judgement (s.env.lookup name)), ""⟩, s)
  | .frames => (⟨.ok (.frames s.env), ""⟩, s)
  | .isOk => (⟨.ok (.flag s.report.isOk), ""⟩, s)
  | .isSick => (⟨.ok (.flag s.report.isSick), ""⟩, s)
  | .issues => (⟨.ok (.texts (s.report.issues.map Issue.text)), ""⟩, s)
  | .reset => (⟨.ok .done, ""⟩, { s with report := s.report.reset })
  | .note items =>
      let (line, outcome) := s.report.note items
      (⟨outcome.map fun _ => .done, line⟩, s)
  | .failure t => s.entered (s.report.failure t)
  | .issue i => s.entered (s.report.add i)
  | .complain =>
      let (text, picks) := s.report.complaint s.picks
      (⟨.ok .done, text⟩, { s with picks := picks })
  | .insistClean message =>
      if s.report.isOk then (⟨.ok .done, ""⟩, s)
      else
        let (text, picks) := s.report.complaint s.picks
        let (cry, picks) := outcry picks
        (⟨.error (.issuesRemain (cry ++ " " ++ message)), text⟩, { s with picks := picks })
  | .newReport verbose limit =>
      (⟨.ok .done, ""⟩, { s with
        report := { verbose := verbose, limit := limit }
        checker := { s.checker with catalog? := none } })
  | .lenient b => (⟨.ok .done, ""⟩, { s with checker := ⟨b, none⟩ })

end Session

end VariantScheme
