import SemanticQuery.Database.Aggregate
import SemanticQuery.Main
import SemanticQuery.Proofs.Draft.Failures
import SemanticQuery.Proofs.Draft.PlainNames
import SemanticQuery.Proofs.Plan.Cycles
import SemanticQuery.Proofs.Plan.RoundTrip
import SemanticQuery.Proofs.Renaming.Compile
import SemanticQuery.Proofs.Resolve.Nesting
import SemanticQuery.Proofs.Resolve.OperandCount
import SemanticQuery.Proofs.Resolve.Reach
import SemanticQuery.Proofs.Resolve.Separation
import SemanticQuery.Proofs.Sql.QueryText
import SemanticQuery.Ring.Sample
import SemanticQuery.Proofs.Draft.Limits
import SemanticQuery.Proofs.Step.Grammar
import SemanticQuery.Proofs.Draft.Clauses
import SemanticQuery.Proofs.Ring.Symmetry
import SemanticQuery.Proofs.Resolve.DateParts
import SemanticQuery.Proofs.Draft.Provenance
import SemanticQuery.Proofs.Resolve.Mismatch
import SemanticQuery.Proofs.Resolve.NeededJoins
import SemanticQuery.Proofs.Plan.Reordering
import SemanticQuery.Proofs.Sql.Binding
import SemanticQuery.Proofs.Sql.Quoting
import SemanticQuery.Proofs.Database.Median
import SemanticQuery.Proofs.Draft.Descriptions
import SemanticQuery.Proofs.Operation.Assignment
import SemanticQuery.Proofs.Plan.Formation
import SemanticQuery.Proofs.Resolve.Leaves
import SemanticQuery.Proofs.Step.Fault
import SemanticQuery.Proofs.Operation.Filling
