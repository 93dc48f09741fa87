import ThreeAddress.Main
import ThreeAddress.Syntax.Json
import ThreeAddress.Proofs.Doubles
import ThreeAddress.Proofs.Numbers
import ThreeAddress.Proofs.Integers
import ThreeAddress.Proofs.Evaluation
import ThreeAddress.Proofs.Linearization
import ThreeAddress.Proofs.CodeShape
import ThreeAddress.Proofs.Sweep
import ThreeAddress.Proofs.Knowledge
import ThreeAddress.Proofs.Propagation
import ThreeAddress.Proofs.SingleAssignment
import ThreeAddress.Proofs.Reduction
import ThreeAddress.Proofs.NormalForm
import ThreeAddress.Proofs.Reading
import ThreeAddress.Proofs.Printing
import ThreeAddress.Proofs.LongestMatch
import ThreeAddress.Proofs.Restoring
import ThreeAddress.Proofs.Layout
import ThreeAddress.Proofs.Outcomes
import ThreeAddress.Proofs.Parentheses
import ThreeAddress.Proofs.BareExpressions
import ThreeAddress.Proofs.Limits
import ThreeAddress.Proofs.Encoding
import ThreeAddress.Proofs.Boundaries
import ThreeAddress.Proofs.Pointing
import ThreeAddress.Proofs.Continuing
import ThreeAddress.Proofs.Shifting
import ThreeAddress.Proofs.Joining
import ThreeAddress.Proofs.Finiteness
import ThreeAddress.Proofs.Renaming
import ThreeAddress.Proofs.DecimalText
import ThreeAddress.Proofs.ShortestDecimal
import ThreeAddress.Proofs.NumberText
import ThreeAddress.Proofs.CodeText
import ThreeAddress.Proofs.Sampling
import ThreeAddress.Proofs.Samples
import ThreeAddress.Proofs.Flooring
import ThreeAddress.Proofs.Transparency
import ThreeAddress.Proofs.Outlines
import ThreeAddress.Proofs.CuttingShort
import ThreeAddress.Proofs.StatementEnds
import ThreeAddress.Proofs.History
import ThreeAddress.Proofs.Lookahead
import ThreeAddress.Proofs.CallDepth
import ThreeAddress.Proofs.Measuring
