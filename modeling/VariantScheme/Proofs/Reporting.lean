import VariantScheme.Proofs.Verdicts
import VariantScheme.Session

/-!
    Reports over whole runs. Any number of requests may share a report. Each one comes to the
    verdict that it would come to alone; an honest type leaves the report as it is, and a failure
    enters its explanation there, once and after all that was entered before, however deep in the
    code it was detected. The limit of the report decides no more than whether the failure is still
    passed on. `Request.exists_accounts` says this of one request, `after_eq` of the report after a
    sequence of them, and `Session.report_run` of the requests that the commands of a session
    make. -/

namespace VariantScheme

/-- What there is to tell about a verdict: the explanation, if it is a failure. -/
def Ty.issue? : Ty → Option Issue
  | .failure f => f.explain.toOption
  | _ => none

namespace Request

/-- All the code is well formed, the data in what is checked can be written down, and names stand
    for honest types. -/
def WellFormed : Request → Prop
  | .program p _ => p.WellFormed ∧ p.Prints
  | .expression e env p _ => e.WellFormed ∧ e.Prints ∧ env.Honest ∧ p.WellFormed

/-- What there is to tell about a request on its own. -/
def issue? (q : Request) : Option Issue := (q.run {}).verdict.toOption.bind Ty.issue?

end Request

/-- The report after some requests, one after the other. -/
def Report.after (r : Report) (requests : List Request) : Report :=
  requests.foldl (fun r q => (q.run r).report) r

/-- What a run comes to where `t` is the verdict and `r` was the report before. An honest type is
    passed on, and nothing is entered. A failure gets its explanation entered, as the last of the
    issues; it is passed on while these are below the limit, and else the run is broken off. -/
inductive Run.Accounts (r : Report) : Ty → Run → Prop
  | honest {t : Ty} {log : String} (ht : t.Honest) : Accounts r t ⟨log, .ok t, r⟩
  | failure {f : Failure} {issue : Issue} {log : String} (told : f.explain = .ok issue)
      (room : ∀ most, r.limit = some most → (r.issues.length + 1 : Int) < most) :
      Accounts r (.failure f)
        ⟨log, .ok (.failure f), { r with issues := r.issues ++ [issue] }⟩
  | broken {f : Failure} {issue : Issue} {log : String} {most : Int}
      (told : f.explain = .ok issue) (limit : r.limit = some most)
      (reached : most ≤ (r.issues.length + 1 : Int)) :
      Accounts r (.failure f)
        ⟨log, .error .tooManyIssues, { r with issues := r.issues ++ [issue] }⟩

/-! ### One outcome -/

namespace Report

variable {r : Report} {f : Failure} {issue : Issue}

theorem isFull_iff :
    r.isFull = true ↔ ∃ most, r.limit = some most ∧ most ≤ (r.issues.length : Int) := by
  cases hlimit : r.limit <;> simp [isFull, hlimit]

/-- A failure that can be explained is entered and passed on, or entered and the run broken off. -/
theorem accounts_failed (told : f.explain = .ok issue) (r : Report) (log : String) :
    Run.Accounts r (.failure f)
      ⟨log, (r.conclude (.error (.failed f))).1, (r.conclude (.error (.failed f))).2⟩ := by
  have hfail : r.fail f = r.add issue := by rw [fail, told]
  have hcount : ((r.issues ++ [issue]).length : Int) = r.issues.length + 1 := by simp
  rw [conclude, hfail, add]
  by_cases hfull : ({ r with issues := r.issues ++ [issue] } : Report).isFull = true
  · obtain ⟨most, hlimit, hreached⟩ := isFull_iff.mp hfull
    simp only [hfull, if_true]
    exact .broken told hlimit (hcount ▸ hreached)
  · have hroom : ∀ most, r.limit = some most → (r.issues.length + 1 : Int) < most := by
      intro most hlimit
      by_contra hreached
      exact hfull (isFull_iff.mpr ⟨most, hlimit, by rw [hcount]; omega⟩)
    simp only [hfull]
    exact .failure told hroom

end Report

/-- A conclusive outcome has one verdict, and every report accounts for that. -/
theorem Conclusive.exists_accounts {x : Except Halt Ty} (h : Conclusive x) :
    ∃ t : Ty, t.IsVerdict ∧ ∀ (r : Report) (log : String),
      Run.Accounts r t ⟨log, (r.conclude x).1, (r.conclude x).2⟩ := by
  cases h with
  | @honest t ht => exact ⟨t, .inl ht, fun r log => .honest ht⟩
  | @told f issue kind explained =>
    exact ⟨.failure f, .inr ⟨f, rfl, kind⟩, Report.accounts_failed explained⟩

/-! ### One request -/

/-- A well-formed request has one verdict, and every report accounts for that. -/
theorem Request.exists_accounts {q : Request} (hq : q.WellFormed) :
    ∃ t : Ty, t.IsVerdict ∧ ∀ r : Report, Run.Accounts r t (q.run r) := by
  cases q with
  | program p lenient =>
    obtain ⟨hp, hprints⟩ := hq
    obtain ⟨t, ht, haccounts⟩ := (hp.conclusive hprints).exists_accounts
    refine ⟨t, ht, fun r => ?_⟩
    rw [run, typeOfProgram_eq_of_legible (hp.legible hprints)]
    exact haccounts r _
  | expression e env p lenient =>
    obtain ⟨he, hprints, henv, hp⟩ := hq
    obtain ⟨t, ht, haccounts⟩ := (he.conclusive hprints hp.honest_catalog henv).exists_accounts
    refine ⟨t, ht, fun r => ?_⟩
    rw [run, typeOfExpression_eq]
    exact haccounts r ""

/-! ### Many requests -/

namespace Run.Accounts

variable {r : Report} {t : Ty} {run : Run}

/-- Without a limit the verdict is passed on. -/
theorem verdict_eq (h : Accounts r t run) (hlimit : r.limit = none) : run.verdict = .ok t := by
  cases h with
  | honest | failure => rfl
  | broken _ limit =>
    rw [hlimit] at limit
    cases limit

/-- What there is to tell about the verdict is added to the report, and nothing else changes. -/
theorem report_eq (h : Accounts r t run) :
    run.report = { r with issues := r.issues ++ t.issue?.toList } := by
  cases h with
  | honest ht => cases ht <;> simp [Ty.issue?]
  | failure told | broken told => simp [Ty.issue?, told, Except.toOption]

end Run.Accounts

theorem Request.report_run {q : Request} (hq : q.WellFormed) (r : Report) :
    (q.run r).report = { r with issues := r.issues ++ q.issue?.toList } := by
  obtain ⟨t, -, haccounts⟩ := Request.exists_accounts hq
  have halone : (q.run {}).verdict = .ok t := (haccounts {}).verdict_eq rfl
  have hissue : q.issue? = t.issue? := by rw [Request.issue?, halone]; rfl
  rw [hissue, (haccounts r).report_eq]

theorem Report.after_cons (r : Report) (q : Request) (qs : List Request) :
    r.after (q :: qs) = (q.run r).report.after qs := rfl

/-- Requests add what there is to tell about each, in order. -/
theorem Report.after_eq : ∀ {requests : List Request} (r : Report),
    (∀ q ∈ requests, q.WellFormed) →
    r.after requests = { r with issues := r.issues ++ requests.filterMap Request.issue? }
  | [], r, _ => by simp [Report.after]
  | q :: qs, r, h => by
      obtain ⟨hq, hqs⟩ := List.forall_mem_cons.mp h
      rw [after_cons, after_eq _ hqs, q.report_run hq]
      cases hissue : q.issue? <;> simp [hissue]

/-- Reports are exact over whole runs. After any requests the report holds what there is to tell
    about each of them, in order. The next request comes to the verdict that it has with any report
    without a limit, and the run accounts for that verdict: an honest type adds nothing, a failure
    its explanation, and the run is broken off exactly when a failure reaches the limit. -/
theorem run_accounts_for_verdict (r : Report) (requests : List Request) (q : Request)
    (hrequests : ∀ p ∈ requests, p.WellFormed) (hq : q.WellFormed) :
    r.after requests = { r with issues := r.issues ++ requests.filterMap Request.issue? } ∧
      ∃ t : Ty, t.IsVerdict ∧
        (∀ fresh : Report, fresh.limit = none → (q.run fresh).verdict = .ok t) ∧
        Run.Accounts (r.after requests) t (q.run (r.after requests)) := by
  obtain ⟨t, ht, haccounts⟩ := q.exists_accounts hq
  exact ⟨r.after_eq hrequests, t, ht, fun fresh hlimit => (haccounts fresh).verdict_eq hlimit,
    haccounts (r.after requests)⟩

/-- A variant of two cases. -/
def pets : Variant := ⟨"Pet", [⟨"Cat", []⟩, ⟨"Dog", []⟩]⟩

/-- A choice between the two cases. Neither branch fits the other, and both are pets. -/
def eitherPet : Phrase :=
  .cond 0 (.literal 1 (.bool true)) (.variable 2 "tom") (.variable 3 "rex")

/-- A procedure that adds the choice to a number, in one branch of a conditional. -/
def misplaced : Phrase :=
  .lambda 4 [⟨"n", .number⟩] .number
    ⟨[], .cond 5 (.literal 6 (.bool true))
      (.call 7 (.operator 8 "+") [.variable 9 "n", eitherPet]) (.variable 10 "n")⟩

/-- A program that binds the procedure to a name inside its last expression. -/
def kennel : Program :=
  ⟨[.defineType 11 pets,
    .define 12 ⟨"tom", .named "Cat"⟩ (.call 13 (.variable 14 "make-Cat") []),
    .define 15 ⟨"rex", .named "Dog"⟩ (.call 16 (.variable 17 "make-Dog") [])],
    .letIn 18 [⟨19, ⟨"f", .proc [.number] .number⟩, misplaced⟩]
      ⟨[], .call 20 (.variable 21 "f") [.literal 22 (.int 1)]⟩⟩

/-- The procedure by itself, and the choice by itself. -/
def kennelRequests : List Request :=
  [.expression misplaced kennel.catalog.globals kennel false,
    .expression eitherPet kennel.catalog.globals kennel true]

/-- A report with room for one issue before the limit. -/
def brief : Report := { limit := some 2 }

theorem eitherPet_wellFormed : eitherPet.WellFormed ∧ eitherPet.Prints := by
  refine ⟨.cond (.literal rfl) .variable .variable, .of_parts rfl ?_⟩
  simp only [eitherPet, Phrase.parts, List.forall_mem_cons]
  exact ⟨.literal .bool, .leaf rfl rfl, .leaf rfl rfl, by simp⟩

theorem misplaced_wellFormed : misplaced.WellFormed ∧ misplaced.Prints := by
  have hsum : (Phrase.call 7 (.operator 8 "+") [.variable 9 "n", eitherPet]).WellFormed :=
    .call .operator (List.forall_mem_cons.mpr
      ⟨.variable, List.forall_mem_singleton.mpr eitherPet_wellFormed.1⟩)
  have hprints : (Phrase.call 7 (.operator 8 "+") [.variable 9 "n", eitherPet]).Prints := by
    refine .of_parts rfl ?_
    simp only [Phrase.parts, List.forall_mem_cons]
    exact ⟨.leaf rfl rfl, .leaf rfl rfl, eitherPet_wellFormed.2, by simp⟩
  constructor
  · exact .lambda (List.forall_mem_singleton.mpr .atom) .atom
      (List.forall_mem_singleton.mpr (.cond (.literal rfl) hsum .variable))
  · refine .of_parts rfl (List.forall_mem_singleton.mpr (.of_parts rfl ?_))
    simp only [Phrase.parts, List.forall_mem_cons]
    exact ⟨.literal .bool, hprints, .leaf rfl rfl, by simp⟩

theorem kennel_wellFormed : kennel.WellFormed ∧ kennel.Prints := by
  have hmake : ∀ i j x, (Phrase.call i (.variable j x) []).WellFormed ∧
      (Phrase.call i (.variable j x) []).Prints := fun i j x =>
    ⟨.call .variable (by simp), .of_parts rfl (List.forall_mem_singleton.mpr (.leaf rfl rfl))⟩
  have hpets : (Ty.variant pets).Honest := .variant (by simp [pets, Record.fieldTypes])
  have hcall : (Phrase.call 20 (.variable 21 "f") [.literal 22 (.int 1)]).WellFormed :=
    .call .variable (List.forall_mem_singleton.mpr (.literal rfl))
  have hone : (Phrase.call 20 (.variable 21 "f") [.literal 22 (.int 1)]).Prints :=
    .of_parts rfl (List.forall_mem_cons.mpr
      ⟨.leaf rfl rfl, List.forall_mem_singleton.mpr (.literal (.digit (by decide)))⟩)
  have hbinding : (Phrase.binding ⟨19, ⟨"f", .proc [.number] .number⟩, misplaced⟩).Prints :=
    .of_parts rfl (List.forall_mem_singleton.mpr misplaced_wellFormed.2)
  constructor
  · simp only [Body.WellFormed, kennel, Body.toList, List.cons_append, List.nil_append,
      List.forall_mem_cons]
    refine ⟨.defineType hpets, .define .named (hmake ..).1, .define .named (hmake ..).1, ?_,
      by simp⟩
    exact .letIn (List.forall_mem_singleton.mpr (.proc (List.forall_mem_singleton.mpr .atom) .atom))
      (List.forall_mem_singleton.mpr misplaced_wellFormed.1) (List.forall_mem_singleton.mpr hcall)
  · simp only [Body.Prints, kennel, Body.toList, List.cons_append, List.nil_append,
      List.forall_mem_cons]
    refine ⟨.leaf rfl rfl, .of_parts rfl (List.forall_mem_singleton.mpr (hmake ..).2),
      .of_parts rfl (List.forall_mem_singleton.mpr (hmake ..).2), ?_, by simp⟩
    exact .of_parts rfl (List.forall_mem_cons.mpr ⟨hbinding, List.forall_mem_singleton.mpr hone⟩)

/-- A failure far inside a procedure is entered once, and the choice that is checked after it enters
    nothing; the program has the same failure, and reaches the limit with it. -/
theorem run_accounts_for_verdict_kennel :
    (∀ p ∈ kennelRequests, p.WellFormed) ∧ (Request.program kennel false).WellFormed ∧
      (kennelRequests.map fun q => (q.run brief).verdict) =
        [.ok (.failure (.incompatible (.named "Pet") .number eitherPet.occurrence)),
          .ok (.named "Pet")] ∧
      (brief.after kennelRequests).issues.length = 1 ∧
      ((Request.program kennel false).run (brief.after kennelRequests)).verdict =
        .error .tooManyIssues ∧
      brief.after kennelRequests =
        { brief with issues := brief.issues ++ kennelRequests.filterMap Request.issue? } ∧
      ∃ t : Ty, t.IsVerdict ∧
        (∀ fresh : Report, fresh.limit = none →
          ((Request.program kennel false).run fresh).verdict = .ok t) ∧
        Run.Accounts (brief.after kennelRequests) t
          ((Request.program kennel false).run (brief.after kennelRequests)) := by
  have hglobals : kennel.catalog.globals.Honest := kennel_wellFormed.1.honest_catalog.globals
  have hrequests : ∀ p ∈ kennelRequests, p.WellFormed := by
    refine List.forall_mem_cons.mpr ⟨?_, List.forall_mem_singleton.mpr ?_⟩
    · exact ⟨misplaced_wellFormed.1, misplaced_wellFormed.2, hglobals, kennel_wellFormed.1⟩
    · exact ⟨eitherPet_wellFormed.1, eitherPet_wellFormed.2, hglobals, kennel_wellFormed.1⟩
  exact ⟨hrequests, kennel_wellFormed, rfl, rfl, rfl,
    run_accounts_for_verdict brief kennelRequests (.program kennel false) hrequests
      kennel_wellFormed⟩

/-! ### Sessions -/

/-- Commands that change the report, or exchange it, other than by a check of the program or in its
    context. -/
def Command.editsReport : Command → Bool
  | .checkAsIs _ | .reset | .failure _ | .issue _ | .newReport .. => true
  | _ => false

namespace Session

/-- The request that a command makes, if it asks for such a check. -/
def request? (s : Session) : Command → Option Request
  | .checkProgram replacement? =>
      some (.program (replacement?.getD s.program) s.checker.lenient)
  | .check e => some (.expression e s.env s.program s.checker.lenient)
  | _ => none

/-- The session after some commands, one after the other. -/
def run (s : Session) (commands : List Command) : Session :=
  commands.foldl (fun s c => (s.step c).2) s

/-- The requests that commands make, each where the session has got to. -/
def requests : Session → List Command → List Request
  | _, [] => []
  | s, c :: cs => (s.request? c).toList ++ requests (s.step c).2 cs

/-- A command that makes a request answers what the request comes to, and keeps its report. -/
theorem step_of_request {s : Session} {c : Command} {q : Request} (h : s.request? c = some q) :
    (s.step c).1 = ⟨(q.run s.report).verdict.map .judgement, (q.run s.report).log⟩ ∧
      (s.step c).2.report = (q.run s.report).report := by
  cases c <;> cases h
  · exact ⟨rfl, rfl⟩
  · exact ⟨rfl, rfl⟩

/-- Other commands leave the report alone, unless they are there to edit it. -/
theorem report_step (s : Session) {c : Command} (hc : c.editsReport = false) :
    (s.step c).2.report = s.report.after (s.request? c).toList := by
  cases c with
  | checkAsIs | reset | failure | issue | newReport => cases hc
  | extend names types =>
    rw [step]
    split
    · rfl
    · rfl
  | insistClean =>
    rw [step]
    split
    · rfl
    · rfl
  | _ => rfl

theorem report_run : ∀ {commands : List Command} (s : Session),
    (∀ c ∈ commands, c.editsReport = false) →
    (s.run commands).report = s.report.after (s.requests commands)
  | [], _, _ => rfl
  | c :: cs, s, h => by
      obtain ⟨hc, hcs⟩ := List.forall_mem_cons.mp h
      have hrest : ((s.step c).2.run cs).report =
          (s.step c).2.report.after ((s.step c).2.requests cs) := report_run _ hcs
      rw [run, List.foldl_cons, ← run, hrest, s.report_step hc, requests, Report.after,
        Report.after, Report.after, List.foldl_append]

/-- In a session too the report holds what there is to tell about each request, in order. -/
theorem issues_run {commands : List Command} (s : Session)
    (hcommands : ∀ c ∈ commands, c.editsReport = false)
    (hrequests : ∀ q ∈ s.requests commands, q.WellFormed) :
    (s.run commands).report.issues =
      s.report.issues ++ (s.requests commands).filterMap Request.issue? := by
  rw [report_run s hcommands, Report.after_eq _ hrequests]

end Session

end VariantScheme
