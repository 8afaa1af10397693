import ArrayCalc.Main
import ArrayCalc.Proofs.Text.Words
import ArrayCalc.Proofs.Text.Ascii
import ArrayCalc.Proofs.Expr.Lexing
import ArrayCalc.Proofs.Expr.Letters
import ArrayCalc.Proofs.Expr.Token
import ArrayCalc.Proofs.Expr.Reading
import ArrayCalc.Proofs.Expr.Parsing
import ArrayCalc.Proofs.Expr.Descent
import ArrayCalc.Proofs.Expr.Viable
import ArrayCalc.Proofs.Expr.Printing
import ArrayCalc.Proofs.Expr.Braces
import ArrayCalc.Proofs.Expr.Lexemes
import ArrayCalc.Proofs.Eval.Functions
import ArrayCalc.Proofs.Eval.Evaluate
import ArrayCalc.Proofs.Eval.WellFormed
import ArrayCalc.Proofs.Eval.Failure
import ArrayCalc.Proofs.Eval.Substitution
import ArrayCalc.Proofs.Number.Bits
import ArrayCalc.Proofs.Number.Rounding
import ArrayCalc.Proofs.Number.Shortest
import ArrayCalc.Proofs.Number.Compact
import ArrayCalc.Proofs.Npy.Header
import ArrayCalc.Proofs.Npy.Cell
import ArrayCalc.Proofs.Npy.File
import ArrayCalc.Proofs.Npy.RoundTrip
import ArrayCalc.Proofs.Npy.Bounds
import ArrayCalc.Proofs.Input.Load
import ArrayCalc.Proofs.Input.Validation
import ArrayCalc.Proofs.Files.Store
import ArrayCalc.Proofs.Output.Save
import ArrayCalc.Proofs.Command.Run
import ArrayCalc.Proofs.Command.Arguments
import ArrayCalc.Proofs.Command.Verbose
import ArrayCalc.Proofs.Eval.Elementwise
import ArrayCalc.Proofs.Number.Significant
import ArrayCalc.Proofs.Number.General
import ArrayCalc.Proofs.Number.Nearest
import ArrayCalc.Proofs.Number.Written
import ArrayCalc.Proofs.Number.Order
import ArrayCalc.Proofs.Number.Places
import ArrayCalc.Proofs.Number.Lossless
import ArrayCalc.Proofs.Text.Table
import ArrayCalc.Proofs.Output.Rows
import ArrayCalc.Proofs.Input.TextMatrix
import ArrayCalc.Proofs.Input.TextRows
import ArrayCalc.Proofs.Input.Piped
import ArrayCalc.Proofs.Mat.Exact
import ArrayCalc.Proofs.Mat.Elimination
import ArrayCalc.Proofs.Mat.Factorization
import ArrayCalc.Proofs.Mat.Solve
import ArrayCalc.Proofs.Mat.Determinant
import ArrayCalc.Proofs.Mat.Power
import ArrayCalc.Proofs.Tensor.Product
import ArrayCalc.Proofs.Eval.LinearSystem
import ArrayCalc.Proofs.Mat.Basis
import ArrayCalc.Proofs.Mat.Orthogonal
import ArrayCalc.Proofs.Mat.Cholesky
import ArrayCalc.Proofs.Eval.Factors
import ArrayCalc.Proofs.Output.Nesting
import ArrayCalc.Proofs.Output.Cells
import ArrayCalc.Proofs.Output.Bracketed
import ArrayCalc.Proofs.Tensor.Transpose
import ArrayCalc.Proofs.Tensor.CommonShape
import ArrayCalc.Proofs.Eval.Chain
import ArrayCalc.Proofs.Number.Product
import ArrayCalc.Proofs.Tensor.Promotion
import ArrayCalc.Proofs.Tensor.TransposedProduct
import ArrayCalc.Proofs.Eval.Product
import ArrayCalc.Proofs.Eval.Agreement
import ArrayCalc.Proofs.Files.Location
import ArrayCalc.Proofs.Tensor.Nested
import ArrayCalc.Proofs.Output.Components
import ArrayCalc.Proofs.Input.Bindings
import ArrayCalc.Proofs.Output.Table
import ArrayCalc.Proofs.Eval.Diagonal
