import BlockScript.Main
import BlockScript.Proofs.Content
import BlockScript.Proofs.WellFormed
import BlockScript.Proofs.Reading
import BlockScript.Proofs.RoundTrip
import BlockScript.Proofs.Replaced
import BlockScript.Proofs.Edits
import BlockScript.Proofs.Identity
import BlockScript.Proofs.Reload
import BlockScript.Proofs.Visits
import BlockScript.Proofs.Findings
import BlockScript.Proofs.Diagnostics
import BlockScript.Proofs.CallGraph
import BlockScript.Proofs.Recursion
import BlockScript.Proofs.Layout
import BlockScript.Proofs.Transfer
import BlockScript.Proofs.Bookkeeping
import BlockScript.Proofs.Flags
import BlockScript.Proofs.Sessions
import BlockScript.Proofs.Stages
import BlockScript.Proofs.Splicing
import BlockScript.Proofs.Registry
import BlockScript.Proofs.Changes
import BlockScript.Proofs.Callable
import BlockScript.Proofs.Forgetting
import BlockScript.Proofs.Mirrors
import BlockScript.Proofs.Verdict
import BlockScript.Proofs.Nesting
import BlockScript.Proofs.Reimport
import BlockScript.Proofs.Registrations
import BlockScript.Proofs.Partial
import BlockScript.Proofs.Arity
import BlockScript.Proofs.Updates
import BlockScript.Proofs.BlockEdits
import BlockScript.Proofs.Undo
import BlockScript.Proofs.Neighbours
import BlockScript.Proofs.ExpressionEdits
import BlockScript.Proofs.Atomicity
import BlockScript.Proofs.Regrouping
import BlockScript.Proofs.Equality
import BlockScript.Proofs.Grammar
import BlockScript.Proofs.Acceptance
import BlockScript.Proofs.Demands
import BlockScript.Proofs.Faults
import BlockScript.Proofs.Capabilities
import BlockScript.Proofs.Builtins
import BlockScript.Proofs.Traversals
import BlockScript.Proofs.Renderings
import BlockScript.Proofs.OneLine
import BlockScript.Proofs.Listings
