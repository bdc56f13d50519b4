import LazyExpr.Main
import LazyExpr.Proofs.Eval.Cancellation
import LazyExpr.Proofs.Eval.Canonical
import LazyExpr.Proofs.Eval.Data
import LazyExpr.Proofs.Eval.Depth
import LazyExpr.Proofs.Eval.Recall
import LazyExpr.Proofs.Eval.Scoping
import LazyExpr.Proofs.Eval.Sections
import LazyExpr.Proofs.Eval.Captured
import LazyExpr.Proofs.Expr.Calls
import LazyExpr.Proofs.Expr.Nesting
import LazyExpr.Proofs.Expr.Orderly
import LazyExpr.Proofs.Expr.RoundTrip
import LazyExpr.Proofs.List.Again
import LazyExpr.Proofs.List.Cells
import LazyExpr.Proofs.List.Ends
import LazyExpr.Proofs.List.Finite
import LazyExpr.Proofs.List.Taken
import LazyExpr.Proofs.List.Traversals
import LazyExpr.Proofs.Expr.Chains
import LazyExpr.Proofs.Expr.Binders
import LazyExpr.Proofs.Expr.Carets
import LazyExpr.Proofs.Eval.Answers
import LazyExpr.Proofs.List.Elements
import LazyExpr.Proofs.List.Sums
import LazyExpr.Proofs.Token.Places
import LazyExpr.Proofs.Token.Written
import LazyExpr.Proofs.Expr.Embedded
import LazyExpr.Proofs.List.Integers
import LazyExpr.Proofs.Operator.Comparison
import LazyExpr.Proofs.Operator.Integers
import LazyExpr.Proofs.Scope.Runs
