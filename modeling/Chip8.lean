import Chip8.Asm.Cursor
import Chip8.Asm.Diagnostic
import Chip8.Asm.Expression
import Chip8.Asm.Form
import Chip8.Asm.Identifier
import Chip8.Asm.Lexer
import Chip8.Asm.Line
import Chip8.Asm.Node
import Chip8.Asm.Operator
import Chip8.Asm.Program
import Chip8.Asm.Span
import Chip8.Asm.Statement
import Chip8.Asm.SymbolTable
import Chip8.Asm.Token
import Chip8.Asm.Value
import Chip8.Cli.Arguments
import Chip8.Cli.Directory
import Chip8.Cli.Headless
import Chip8.Cli.Invocation
import Chip8.Cli.Path
import Chip8.Cli.Session
import Chip8.Cli.Target
import Chip8.Decimal.Reading
import Chip8.Decimal.Shortest
import Chip8.Emulator.Breakpoints
import Chip8.Emulator.Call
import Chip8.Emulator.Command
import Chip8.Emulator.Event
import Chip8.Emulator.Queue
import Chip8.Emulator.Run
import Chip8.Emulator.State
import Chip8.Emulator.Throttle
import Chip8.Machine.Config
import Chip8.Machine.Execute
import Chip8.Machine.Instruction
import Chip8.Machine.Keyboard
import Chip8.Machine.Memory
import Chip8.Machine.Random
import Chip8.Machine.Report
import Chip8.Machine.Screen
import Chip8.Machine.State
import Chip8.Machine.Timer
import Chip8.Machine.Wait
import Chip8.Machine.Word
import Chip8.Proofs.Asm.Agreement
import Chip8.Proofs.Asm.Declarations
import Chip8.Proofs.Asm.Disassembly
import Chip8.Proofs.Asm.Encoding
import Chip8.Proofs.Asm.Errors
import Chip8.Proofs.Asm.Evaluation
import Chip8.Proofs.Asm.Fetch
import Chip8.Proofs.Asm.Forms
import Chip8.Proofs.Asm.Layout
import Chip8.Proofs.Asm.Listing
import Chip8.Proofs.Asm.Operands
import Chip8.Proofs.Asm.RoundTrip
import Chip8.Proofs.Asm.SymbolTable
import Chip8.Proofs.Asm.Tokens
import Chip8.Proofs.Machine.Checked
import Chip8.Proofs.Machine.DelayLoop
import Chip8.Proofs.Machine.DelayWait
import Chip8.Proofs.Machine.Fault
import Chip8.Proofs.Machine.Invariant
import Chip8.Proofs.Machine.Memory
import Chip8.Proofs.Machine.Refinement
import Chip8.Proofs.Machine.Safety
import Chip8.Proofs.Machine.Screen
import Chip8.Proofs.Machine.Semantics
import Chip8.Proofs.Text.Numeral
import Chip8.Text.Blank
import Chip8.Text.Notice
import Chip8.Text.Numeral
import Chip8.Text.Similarity
import Chip8.Text.Style
import Chip8.Main
import Chip8.Proofs.Machine.Index
import Chip8.Proofs.Machine.CallHistory
import Chip8.Proofs.Machine.KeyWait
import Chip8.Proofs.Machine.Handlers
import Chip8.Proofs.Machine.Reset
import Chip8.Proofs.Emulator.Effect
import Chip8.Proofs.Emulator.Round
import Chip8.Proofs.Emulator.Waiting
import Chip8.Proofs.Emulator.Pausing
import Chip8.Proofs.Emulator.Acts
import Chip8.Proofs.Emulator.BareRun
import Chip8.Proofs.Emulator.Telling
import Chip8.Proofs.Emulator.Restoring
import Chip8.Proofs.Emulator.Serving
import Chip8.Proofs.Emulator.Showing
import Chip8.Proofs.Asm.Spelling
import Chip8.Proofs.Asm.Likeness
import Chip8.Proofs.Asm.AlikeReading
import Chip8.Proofs.Asm.AlikePrograms
import Chip8.Proofs.Asm.Lookahead
import Chip8.Proofs.Asm.Spacing
import Chip8.Proofs.Asm.LetterCase
import Chip8.Proofs.Asm.Printing
import Chip8.Proofs.Asm.Reprinting
import Chip8.Asm.Reader
import Chip8.Proofs.Asm.Delivery
import Chip8.Proofs.Asm.Climbing
import Chip8.Proofs.Asm.Descent
import Chip8.Proofs.Asm.Standing
import Chip8.Proofs.Asm.Turns
import Chip8.Proofs.Asm.LineByLine
import Chip8.Proofs.Asm.Passes
import Chip8.Proofs.Asm.Arithmetic
import Chip8.Proofs.Asm.Meaning
import Chip8.Proofs.Asm.Grouping
import Chip8.Proofs.Asm.Precedence
import Chip8.Proofs.Asm.Parentheses
import Chip8.Proofs.Asm.Unambiguous
import Chip8.Proofs.Asm.Reports
import Chip8.Proofs.Asm.Notes
import Chip8.Proofs.Asm.BadOperands
import Chip8.Proofs.Asm.WrittenOut
import Chip8.Proofs.Asm.Respelling
import Chip8.Proofs.Asm.WrittenReading
import Chip8.Proofs.Asm.WrittenLines
import Chip8.Proofs.Asm.Transparency
import Chip8.Machine.Bitmap
import Chip8.Proofs.Machine.Interleaving
import Chip8.Proofs.Machine.Drawing
import Chip8.Proofs.Machine.Packing
import Chip8.Proofs.Asm.Tiling
import Chip8.Proofs.Asm.Places
import Chip8.Proofs.Asm.Nesting
import Chip8.Proofs.Asm.LineSpans
import Chip8.Proofs.Asm.Spans
import Chip8.Machine.Loading
import Chip8.Proofs.Machine.Blocks
import Chip8.Proofs.Machine.Loading
import Chip8.Proofs.Machine.Options
import Chip8.Proofs.Machine.Area
import Chip8.Asm.Naming
import Chip8.Proofs.Asm.WriteOnce
import Chip8.Proofs.Text.Positional
import Chip8.Proofs.Cli.Targets
import Chip8.Proofs.Asm.CheckedPasses
import Chip8.Proofs.Asm.AddressRange
