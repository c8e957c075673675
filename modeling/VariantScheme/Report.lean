import VariantScheme.Issue
import VariantScheme.Outcry

/-!
    A report collects the issues of one or more checks. With a limit, the issue that reaches it
    still enters the report, and then the check is broken off. A verbose report also keeps a log of
    the top-level expressions as they are checked. -/

namespace VariantScheme

/-- The issues so far, in order. -/
structure Report where
  verbose : Bool := false
  limit : Option Int := none
  issues : List Issue := []

/-- The text of a line of items with spaces between them. Writing stops before an item that has
    no written form, and what was written up to there stays. -/
def writeLine : List Printed → String × Except Refusal Unit
  | [] => ("\n", .ok ())
  | [.ok text] => (text ++ "\n", .ok ())
  | .ok text :: items => (text ++ " " ++ (writeLine items).1, (writeLine items).2)
  | .error u :: _ => ("", .error (.unprintable u))

namespace Report

/-- Are there issues? -/
def isSick (r : Report) : Bool := !r.issues.isEmpty

/-- Are there none? -/
def isOk (r : Report) : Bool := r.issues.isEmpty

/-- Has the limit been reached? -/
def isFull (r : Report) : Bool := r.limit.any fun most => most ≤ (r.issues.length : Int)

/-- The report without its issues. -/
def reset (r : Report) : Report := { r with issues := [] }

/-- Enters an issue. -/
def add (r : Report) (issue : Issue) : Except Refusal Unit × Report :=
  let entered := { r with issues := r.issues ++ [issue] }
  (if entered.isFull then .error .tooManyIssues else .ok (), entered)

/-- Enters the explanation of a failure. -/
def fail (r : Report) (f : Failure) : Except Refusal Unit × Report :=
  match f.explain with
  | .ok issue => r.add issue
  | .error e => (.error e, r)

/-- Enters the explanation of what has to be a failure. -/
def failure (r : Report) : Ty → Except Refusal Unit × Report
  | .failure f => r.fail f
  | t => (.error (.notAFailure t), r)

/-- A line for the log, if the report keeps one. -/
def note (r : Report) (items : List Printed) : String × Except Refusal Unit :=
  if r.verbose then writeLine items else ("", .ok ())

/-- The complaint about all issues: an outcry, and then each of them under a rule of dashes. -/
def complaint (r : Report) (p : Picks) : String × Picks :=
  if r.issues.isEmpty then ("", p)
  else
    let (cry, p) := outcry p
    let rule := String.join (List.replicate 20 "  -")
    let entries := r.issues.map fun i => rule ++ "\n" ++ i.text ++ "\n"
    (String.ofList (List.replicate 60 '*') ++ "\n" ++ cry ++ "\n" ++ String.join entries, p)

end Report

end VariantScheme
