import NumericScript.CommandLine
import NumericScript.Machine.Snapshot
import NumericScript.Main
import NumericScript.Proofs.Analysis.Again
import NumericScript.Proofs.Analysis.Visits
import NumericScript.Proofs.Analysis.Slots
import NumericScript.Proofs.Arithmetic.Power
import NumericScript.Proofs.Checked.Run
import NumericScript.Proofs.Direct.Program
import NumericScript.Proofs.Limits
import NumericScript.Proofs.Location.Compiled
import NumericScript.Proofs.Lowering.Analysed
import NumericScript.Proofs.Lowering.Regions
import NumericScript.Proofs.Matrix.Element
import NumericScript.Proofs.Matrix.Squaring
import NumericScript.Proofs.Optimize.Converge
import NumericScript.Proofs.Optimize.Exact
import NumericScript.Proofs.Optimize.Labels
import NumericScript.Proofs.Optimize.Neighbours
import NumericScript.Proofs.Optimize.Removal
import NumericScript.Proofs.Optimize.Stable
import NumericScript.Proofs.Session.Bounded
import NumericScript.Proofs.Session.Breakpoints
import NumericScript.Proofs.Session.Constants
import NumericScript.Proofs.Session.Faulted
import NumericScript.Proofs.Session.Lookup
import NumericScript.Proofs.Session.Numbers
import NumericScript.Proofs.Session.Rest
import NumericScript.Proofs.Session.Sound
import NumericScript.Proofs.Session.Stepping
import NumericScript.Proofs.Session.Transparent
import NumericScript.Proofs.Spelling.Rows
import NumericScript.Proofs.Spelling.Suggest
import NumericScript.Proofs.Syntax.Attempts
import NumericScript.Proofs.Syntax.Inverse
import NumericScript.Proofs.Token.Literal
import NumericScript.Proofs.Typing.Declared
import NumericScript.Proofs.Typing.Exact
import NumericScript.Proofs.Printed.Compiled
