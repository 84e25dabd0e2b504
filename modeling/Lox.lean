import Lox.Assembly
import Lox.Disassembly
import Lox.Editor
import Lox.Main
import Lox.OutputBuffer
import Lox.Proofs.Table.Map
import Lox.Proofs.Table.Growth
import Lox.Proofs.Table.Operations
import Lox.Proofs.Heap.Mark
import Lox.Proofs.Heap.Trace
import Lox.Proofs.Heap.Sweep
import Lox.Proofs.Heap.Consistent
import Lox.Proofs.Compile.Build
import Lox.Proofs.Heap.Reachable
import Lox.Proofs.Heap.Handles
import Lox.Proofs.Ideal.Calls
import Lox.Proofs.Ideal.Classes
import Lox.Proofs.Ideal.Meaning
import Lox.Proofs.Ideal.Run
import Lox.Proofs.Ideal.Start
import Lox.Proofs.Heap.Balance
import Lox.Proofs.Heap.Settle
import Lox.Proofs.Compile.CarryOut
import Lox.Proofs.Machine.Balance
import Lox.Proofs.Machine.Session
import Lox.Proofs.Source.Parse
import Lox.Proofs.Source.Listing
import Lox.Proofs.Source.Generate
import Lox.Proofs.Compile.Sketch
import Lox.Proofs.Compile.Grammar
import Lox.Proofs.Source.Accept
import Lox.Proofs.Source.Names
import Lox.Proofs.Source.Expressions
import Lox.Proofs.Source.Progress
import Lox.Proofs.Source.Script
import Lox.Proofs.Verify.WellFormed
import Lox.Proofs.Runner.Serial
import Lox.Proofs.Device.Turns
import Lox.Proofs.Disassembly.Functions
import Lox.Proofs.Disassembly.Listed
import Lox.Proofs.Machine.Frames
import Lox.Proofs.Disassembly.Agreement
import Lox.Proofs.Grammar.Accept
import Lox.Proofs.Device.Orderly
import Lox.Proofs.Device.Host
import Lox.Proofs.Compile.Spelling
import Lox.Proofs.Lexical.Identifiers
import Lox.Proofs.Lexical.Uses
import Lox.Proofs.Lexical.Places
import Lox.Proofs.Lexical.Traces
import Lox.Proofs.Lexical.Openings
import Lox.Proofs.Lexical.Declarations
import Lox.Proofs.Lexical.Resolve
import Lox.Proofs.Safety.Facts
import Lox.Proofs.Safety.Fetch
import Lox.Proofs.Safety.Stack
import Lox.Proofs.Safety.Operate
import Lox.Proofs.Safety.Upvalues
import Lox.Proofs.Safety.Calls
import Lox.Proofs.Safety.Classes
import Lox.Proofs.Safety.Closures
import Lox.Proofs.Safety.Run
import Lox.Proofs.Machine.Namings
import Lox.Proofs.Machine.Trail
import Lox.Proofs.Text.Account
import Lox.Proofs.Text.Joined
import Lox.Proofs.Text.Declared
import Lox.Proofs.Source.Reported
import Lox.Proofs.Ideal.Growth
import Lox.Proofs.Ideal.Methods
import Lox.Proofs.Safety.Fused
import Lox.Proofs.Safety.Initializers
import Lox.Proofs.Safety.Tables
import Lox.Proofs.Safety.Variables
import Lox.Proofs.Number.Format
import Lox.Proofs.Safety.Chronicle
import Lox.Proofs.Machine.Trace
import Lox.Proofs.Evaluation.Programs
