import InvariantSynthesis.Analysis.Verifier
import InvariantSynthesis.BitSolver.Oracle
import InvariantSynthesis.Config.Options
import InvariantSynthesis.Oracle.Scripted
import InvariantSynthesis.Proofs.Diagram.Canonical
import InvariantSynthesis.Proofs.BitSolver.Evaluation
import InvariantSynthesis.Proofs.Analysis.GreatestSet
import InvariantSynthesis.Proofs.Analysis.Halting
import InvariantSynthesis.Proofs.Analysis.LeastValue
import InvariantSynthesis.Proofs.Analysis.Paths
import InvariantSynthesis.Proofs.Analysis.Release
import InvariantSynthesis.Proofs.Analysis.Timeouts
import InvariantSynthesis.Proofs.Analysis.Countermodels
import InvariantSynthesis.Proofs.Analysis.Precondition
import InvariantSynthesis.Proofs.BitSolver.StoredModel
import InvariantSynthesis.Proofs.Diagram.Repeat
import InvariantSynthesis.Proofs.BitSolver.Repeat
import InvariantSynthesis.Proofs.Domain.Names
import InvariantSynthesis.Proofs.Analysis.Retrace
import InvariantSynthesis.Proofs.Oracle.Recorded
import InvariantSynthesis.Proofs.Analysis.Rerun
import InvariantSynthesis.Proofs.Diagram.Arithmetic
import InvariantSynthesis.Proofs.Search.Optimum
import InvariantSynthesis.Proofs.Analysis.Work
import InvariantSynthesis.Proofs.BitSolver.Acceptance
import InvariantSynthesis.Proofs.BitSolver.Synthesis
import InvariantSynthesis.Proofs.Search.Reached
import InvariantSynthesis.Proofs.Search.Refinement
import InvariantSynthesis.Proofs.Search.Order
import InvariantSynthesis.Proofs.Search.Ascent
import InvariantSynthesis.Proofs.Analysis.PathCover
import InvariantSynthesis.Proofs.Template.SortCheck
import InvariantSynthesis.Proofs.Domain.Typing
import InvariantSynthesis.Proofs.Domain.Projection
import InvariantSynthesis.Proofs.Expr.Construction
import InvariantSynthesis.Proofs.Expr.LinearForm
import InvariantSynthesis.Proofs.Template.Substitution
import InvariantSynthesis.Proofs.Template.RowMaximum
import InvariantSynthesis.Proofs.Search.Overflow
import InvariantSynthesis.Proofs.Diagram.Descent
import InvariantSynthesis.Proofs.Expr.Saturation
import InvariantSynthesis.Proofs.Diagram.Decoding
import InvariantSynthesis.Proofs.BitSolver.Declaration
import InvariantSynthesis.Proofs.SsaName.Reading
import InvariantSynthesis.Proofs.Procedure.Renaming
import InvariantSynthesis.Proofs.Procedure.Attribution
import InvariantSynthesis.Proofs.Procedure.Versions
import InvariantSynthesis.Proofs.Domain.Imprecision
import InvariantSynthesis.Proofs.Analysis.Imprecision
import InvariantSynthesis.Proofs.Procedure.Symbols
import InvariantSynthesis.Proofs.BitSolver.Allocation
import InvariantSynthesis.Proofs.Config.Numeral
import InvariantSynthesis.Proofs.Config.Consistency
