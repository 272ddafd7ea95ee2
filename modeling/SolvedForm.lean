import SolvedForm.Misuse
import SolvedForm.Number.Digits
import SolvedForm.Number.Factor
import SolvedForm.Number.Division
import SolvedForm.Number.Magnitude
import SolvedForm.Number.Fraction
import SolvedForm.Number.Decimal
import SolvedForm.Number.Binary64
import SolvedForm.Table
import SolvedForm.LinearForm.Arithmetic
import SolvedForm.LinearForm.Text
import SolvedForm.Host
import SolvedForm.Inspect
import SolvedForm.Solver.Log
import SolvedForm.Table.Lemmas
import SolvedForm.Proofs.LinearForm.Canonical
import SolvedForm.Proofs.LinearForm.Evaluation
import SolvedForm.Proofs.LinearForm.Substitution
import SolvedForm.Proofs.LinearForm.Construction
import SolvedForm.Proofs.Store.Completion
import SolvedForm.Proofs.Store.Reduction
import SolvedForm.Proofs.Solver.Inlining
import SolvedForm.Proofs.Solver.NewRule
import SolvedForm.Proofs.Solver.Propagation
import SolvedForm.Proofs.Solver.Assertion
import SolvedForm.Proofs.Solver.Retirement
import SolvedForm.Proofs.Solver.Run
import SolvedForm.Proofs.Solver.Exactness
import SolvedForm.Proofs.LinearForm.Flushing
import SolvedForm.Proofs.Solver.Confluence
import SolvedForm.Proofs.Solver.Ledger
import SolvedForm.Proofs.Solver.Notification
import SolvedForm.Proofs.Solver.Replay
import SolvedForm.Proofs.Solver.Repetition
import SolvedForm.Proofs.Solver.Forgetting
import SolvedForm.Proofs.Solver.Purging
import SolvedForm.Proofs.Solver.Framing
import SolvedForm.Proofs.Solver.Batching
import SolvedForm.Proofs.Solver.Safety
import SolvedForm.Proofs.Solver.Growth
import SolvedForm.Proofs.Solver.Atomicity
import SolvedForm.Proofs.Solver.Residues
import SolvedForm.Proofs.Solver.Scaling
import SolvedForm.Proofs.Store.Expansion
import SolvedForm.Proofs.Solver.Accuracy
import SolvedForm.Proofs.Solver.Pivot
import SolvedForm.Proofs.Solver.Cascade
import SolvedForm.Proofs.Solver.Elimination
import SolvedForm.Proofs.LinearForm.Summation
import SolvedForm.Proofs.LinearForm.VectorSpace
import SolvedForm.Proofs.Number.Decimal
import SolvedForm.Proofs.Number.Fraction
import SolvedForm.Proofs.LinearForm.Rendering
