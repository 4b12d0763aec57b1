import Hartwatch.Main
import Hartwatch.Proofs.Expr.Grammar
import Hartwatch.Proofs.Expr.Lexemes
import Hartwatch.Proofs.Expr.Lexing
import Hartwatch.Proofs.Expr.Positions
import Hartwatch.Proofs.Expr.Tokens
import Hartwatch.Proofs.Expr.Cuts
import Hartwatch.Proofs.Expr.Evaluation
import Hartwatch.Proofs.Expr.Spacing
import Hartwatch.Proofs.Expr.Derivation
import Hartwatch.Proofs.Expr.Language
import Hartwatch.Proofs.Watchpoint.Detection
import Hartwatch.Proofs.Watchpoint.Operations
import Hartwatch.Proofs.Watchpoint.Roster
import Hartwatch.Proofs.Watchpoint.Refinement
import Hartwatch.Proofs.Memory.Bits
import Hartwatch.Proofs.Memory.Accesses
import Hartwatch.Proofs.Memory.Definedness
import Hartwatch.Proofs.Memory.Guest
import Hartwatch.Proofs.Memory.Range
import Hartwatch.Proofs.Instruction.Decoding
import Hartwatch.Proofs.Instruction.Masks
import Hartwatch.Proofs.Machine.Faults
import Hartwatch.Proofs.Machine.Cycles
import Hartwatch.Proofs.Machine.Loop
import Hartwatch.Proofs.Machine.Runs
import Hartwatch.Proofs.Machine.Splits
import Hartwatch.Proofs.Machine.Endings
import Hartwatch.Proofs.Debugger.Looks
import Hartwatch.Proofs.Debugger.Watcher
import Hartwatch.Proofs.Debugger.Reads
import Hartwatch.Proofs.Debugger.Preserve
import Hartwatch.Proofs.Debugger.Reach
import Hartwatch.Proofs.Debugger.Running
import Hartwatch.Proofs.Debugger.Stops
import Hartwatch.Proofs.Debugger.Reports
import Hartwatch.Proofs.Debugger.EndReports
import Hartwatch.Proofs.Debugger.SessionErrors
import Hartwatch.Proofs.Machine.Frame
import Hartwatch.Proofs.Machine.Totality
import Hartwatch.Proofs.Text.Words
import Hartwatch.Proofs.Debugger.Composition
import Hartwatch.Proofs.Debugger.Uptake
import Hartwatch.Proofs.Debugger.Lockstep
import Hartwatch.Proofs.Debugger.Truncation
import Hartwatch.Proofs.Debugger.Transcript
import Hartwatch.Proofs.Debugger.Upkeep
import Hartwatch.Proofs.Machine.Standstill
import Hartwatch.Proofs.Debugger.Advance
import Hartwatch.Proofs.Debugger.Refusals
import Hartwatch.Proofs.Debugger.Atomicity
import Hartwatch.Proofs.Debugger.SessionEnds
import Hartwatch.Proofs.Program.ExitCode
import Hartwatch.Proofs.Machine.Budgets
import Hartwatch.Proofs.Machine.Arithmetic
import Hartwatch.Proofs.Machine.LoadsStores
import Hartwatch.Proofs.Machine.Records
import Hartwatch.Proofs.Instruction.Immediates
import Hartwatch.Proofs.Instruction.Templates
import Hartwatch.Proofs.Machine.Transfers
import Hartwatch.Proofs.Machine.ImmediateForms
import Hartwatch.Proofs.Expr.Failures
import Hartwatch.Proofs.Expr.Parentheses
import Hartwatch.Proofs.Expr.Juxtaposition
import Hartwatch.Proofs.Machine.Images
import Hartwatch.Proofs.Memory.Readable
import Hartwatch.Proofs.Debugger.Listing
import Hartwatch.Proofs.Debugger.Examination
import Hartwatch.Proofs.Text.Numerals
import Hartwatch.Proofs.Machine.RegisterNames
import Hartwatch.Proofs.Machine.EvenPc
import Hartwatch.Proofs.Machine.ZeroRegister
import Hartwatch.Proofs.Debugger.RunOutput
