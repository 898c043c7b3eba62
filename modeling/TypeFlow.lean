import TypeFlow.Graph.Session
import TypeFlow.Main
import TypeFlow.Proofs.Arithmetic.Nearest
import TypeFlow.Proofs.Arithmetic.Quotients
import TypeFlow.Proofs.Catalog.Order
import TypeFlow.Proofs.Catalog.Shapes
import TypeFlow.Proofs.Differences
import TypeFlow.Proofs.Eval.Bounds
import TypeFlow.Proofs.Eval.Calls
import TypeFlow.Proofs.Eval.Choice
import TypeFlow.Proofs.Eval.Naming
import TypeFlow.Proofs.Eval.Static
import TypeFlow.Proofs.Eval.Termination
import TypeFlow.Proofs.Graph.Connecting
import TypeFlow.Proofs.Graph.Layout
import TypeFlow.Proofs.Graph.Lossless
import TypeFlow.Proofs.Graph.Validity
import TypeFlow.Proofs.Ids
import TypeFlow.Proofs.Narrowing
import TypeFlow.Proofs.Projection
import TypeFlow.Proofs.Traces
import TypeFlow.Proofs.Arithmetic.Counting
import TypeFlow.Proofs.Scope.Identifiers
import TypeFlow.Proofs.Graph.Sharing
