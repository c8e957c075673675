import VariantScheme.Decimal.Shortest
import VariantScheme.Decimal.Numeral
import VariantScheme.Datum
import VariantScheme.Ty.Basic
import VariantScheme.Ty.Equality
import VariantScheme.Ty.Render
import VariantScheme.Phrase.Basic
import VariantScheme.Phrase.Unparse
import VariantScheme.Phrase.Build
import VariantScheme.Refusal
import VariantScheme.Distinct
import VariantScheme.Env
import VariantScheme.Operator
import VariantScheme.Catalog.Basic
import VariantScheme.Catalog.Ancestry
import VariantScheme.Catalog.Reach
import VariantScheme.Catalog.Building
import VariantScheme.Catalog.Declarations
import VariantScheme.Catalog.CaseAnalysis
import VariantScheme.Checker
import VariantScheme.Issue
import VariantScheme.Outcry
import VariantScheme.Report
import VariantScheme.Visit
import VariantScheme.Session
import VariantScheme.Proofs.Scope
import VariantScheme.Proofs.Declarations
import VariantScheme.Proofs.FiniteValues
import VariantScheme.Proofs.Reachability
import VariantScheme.Proofs.Recursion
import VariantScheme.Proofs.Redeclaration
import VariantScheme.Proofs.Subtyping
import VariantScheme.Proofs.Join
import VariantScheme.Proofs.CaseAnalysis
import VariantScheme.Proofs.Typing
import VariantScheme.Proofs.Visiting
import VariantScheme.Proofs.CommonAncestors
import VariantScheme.Proofs.Order
import VariantScheme.Proofs.Checking
import VariantScheme.Proofs.CaseFaults
import VariantScheme.Proofs.Constructors
import VariantScheme.Proofs.ArmOrder
import VariantScheme.Proofs.Branches
import VariantScheme.Proofs.Exhaustive
import VariantScheme.Proofs.WellFormed
import VariantScheme.Proofs.Legibility
import VariantScheme.Proofs.Readability
import VariantScheme.Proofs.Totality
import VariantScheme.Proofs.FreeNames
import VariantScheme.Proofs.Diagnosis
import VariantScheme.Proofs.Verdicts
import VariantScheme.Proofs.Continuation
import VariantScheme.Proofs.LocalForms
import VariantScheme.Proofs.BindingOrder
import VariantScheme.Proofs.Reporting
import VariantScheme.Proofs.Narration
import VariantScheme.Proofs.Simulation
import VariantScheme.Proofs.Leniency
import VariantScheme.Proofs.Extension
import VariantScheme.Proofs.RelabelCatalog
import VariantScheme.Proofs.Identity
import VariantScheme.Proofs.Relabel
