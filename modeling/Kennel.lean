import Kennel.Compile
import Kennel.Program.Outline
import Kennel.Eval.Run
import Kennel.Cli.Run
import Kennel.Main
import Kennel.Proofs.Precedence
import Kennel.Proofs.Reading.Expression
import Kennel.Proofs.Reading.Grammar
import Kennel.Proofs.Lower.Code
import Kennel.Proofs.Lower.Frame
import Kennel.Proofs.Eval.Safety
import Kennel.Proofs.Reading.Numbering
import Kennel.Proofs.Machine.Basic
import Kennel.Proofs.Machine.Run
import Kennel.Proofs.Machine.Expr
import Kennel.Proofs.Machine.Labels
import Kennel.Proofs.Machine.Linking
import Kennel.Proofs.Machine.Simulation
import Kennel.Proofs.Machine.Routine
import Kennel.Proofs.Lower.Registers
import Kennel.Proofs.Reading.Completion
import Kennel.Proofs.Machine.Divergence
import Kennel.Proofs.Machine.Safety
import Kennel.Proofs.Machine.Writes
import Kennel.Proofs.Lower.Stops
import Kennel.Proofs.Lower.Threshold
import Kennel.Proofs.Eval.Paths
import Kennel.Proofs.Eval.Limit
import Kennel.Proofs.Program
import Kennel.Proofs.Text.Layout
import Kennel.Proofs.Text.Decimal
import Kennel.Proofs.Asm.Render
import Kennel.Proofs.Reading.Canonical
import Kennel.Proofs.Renaming.Basic
import Kennel.Proofs.Renaming.Reading
import Kennel.Proofs.Renaming.Lower
import Kennel.Proofs.Renaming.Eval
import Kennel.Proofs.Renaming.Invariance
import Kennel.Proofs.Machine.Slots
import Kennel.Proofs.Reading.Shift
import Kennel.Proofs.Reading.Session
import Kennel.Proofs.Lower.Requests
import Kennel.Proofs.Reading.Spelling
import Kennel.Proofs.Eval.Arithmetic
import Kennel.Proofs.Bare
import Kennel.Proofs.Lower.Loans
import Kennel.Proofs.Cli.Disk
import Kennel.Proofs.Cli.Run
import Kennel.Proofs.Reading.Descent
import Kennel.Proofs.Reading.Agreement
import Kennel.Proofs.Reading.Chain
