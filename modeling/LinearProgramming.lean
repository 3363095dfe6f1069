import LinearProgramming.Config.Text
import LinearProgramming.Model
import LinearProgramming.Program.Mps
import LinearProgramming.Proofs.Canonical.Checked
import LinearProgramming.Proofs.Canonical.Fixed
import LinearProgramming.Proofs.Canonical.Layout
import LinearProgramming.Proofs.Canonical.Sides
import LinearProgramming.Proofs.Coefficients
import LinearProgramming.Proofs.Conic.Form
import LinearProgramming.Proofs.FreeRows
import LinearProgramming.Proofs.History
import LinearProgramming.Proofs.InPlace.Runs
import LinearProgramming.Proofs.MatrixForm
import LinearProgramming.Proofs.Mps.Fields
import LinearProgramming.Proofs.Mps.ReadBack
import LinearProgramming.Proofs.Mps.Reader
import LinearProgramming.Proofs.Mps.Sections
import LinearProgramming.Proofs.Mps.Widths
import LinearProgramming.Proofs.NoVariables
import LinearProgramming.Proofs.Opposite
import LinearProgramming.Proofs.Optimum
import LinearProgramming.Proofs.Results
import LinearProgramming.Proofs.Simplex.Consistency
import LinearProgramming.Proofs.Simplex.Progress
import LinearProgramming.Proofs.Simplex.Rank
import LinearProgramming.Proofs.Simplex.Safety
import LinearProgramming.Proofs.Simplex.Strides
import LinearProgramming.Proofs.Simplex.Vertex
import LinearProgramming.Proofs.Stored
import LinearProgramming.Scalar.Exact
import LinearProgramming.Scalar.Floating
