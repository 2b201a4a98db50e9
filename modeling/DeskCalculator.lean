import DeskCalculator.LogFilter
import DeskCalculator.Main
import DeskCalculator.Proofs.Evaluator.Agreement
import DeskCalculator.Proofs.Evaluator.Classification
import DeskCalculator.Proofs.Reduction.Acceptance
import DeskCalculator.Proofs.Evaluator.Finiteness
import DeskCalculator.Proofs.Evaluator.Literals
import DeskCalculator.Proofs.Evaluator.NormalForm
import DeskCalculator.Proofs.Evaluator.Enclosing
import DeskCalculator.Proofs.Evaluator.PlainNumbers
import DeskCalculator.Proofs.Parens.Matching
import DeskCalculator.Proofs.Parens.Pairs
import DeskCalculator.Proofs.Reduction.Order
import DeskCalculator.Proofs.Reduction.Enclosing
import DeskCalculator.Proofs.Additive.Basic
import DeskCalculator.Proofs.Additive.Chain
import DeskCalculator.Proofs.Additive.Value
import DeskCalculator.Proofs.Binary64.Range
import DeskCalculator.Proofs.Binary64.Nearest
import DeskCalculator.Proofs.Decimal.Shortest
import DeskCalculator.Proofs.Decimal.General
import DeskCalculator.Proofs.Evaluator.Continuation
import DeskCalculator.Proofs.Calculator.Pocket
import DeskCalculator.Proofs.Calculator.Record
import DeskCalculator.Proofs.Calculator.Memory
import DeskCalculator.Proofs.Batch.Independence
import DeskCalculator.Proofs.Session.FreshLine
import DeskCalculator.Proofs.Session.Failures
import DeskCalculator.Proofs.Session.Transcript
import DeskCalculator.Proofs.Token.Exactness
import DeskCalculator.Proofs.Expr.Printing
import DeskCalculator.Proofs.Row.Value
import DeskCalculator.Proofs.Evaluator.GroupSign
import DeskCalculator.Proofs.History.Window
import DeskCalculator.Proofs.Expr.Progress
import DeskCalculator.Proofs.Batch.Lines
import DeskCalculator.Proofs.Reduction.Passes
