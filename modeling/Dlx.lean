import Dlx.Assembly
import Dlx.Assembly.Settlement
import Dlx.Bits
import Dlx.Bytes
import Dlx.Call.Convention
import Dlx.Call.Move
import Dlx.Call.Roles
import Dlx.Call.Sequence
import Dlx.Decoding
import Dlx.Elf.Executable
import Dlx.Elf.Reader
import Dlx.Elf.Record
import Dlx.Elf.Writer
import Dlx.Encoding
import Dlx.Expr
import Dlx.Fixup
import Dlx.Half
import Dlx.Inst
import Dlx.Link.Image
import Dlx.Link.Linker
import Dlx.Link.Plan
import Dlx.Listing
import Dlx.NameMap
import Dlx.Object
import Dlx.Opcode
import Dlx.Opcode.Layout
import Dlx.Proofs.Patch
import Dlx.Proofs.Write
import Dlx.Reg
import Dlx.Relocation
import Dlx.Source.Expression
import Dlx.Source.Lexeme
import Dlx.Source.Statement
import Dlx.Target
import Dlx.Testing.Case
import Dlx.Testing.Check
import Dlx.Testing.Run
import Dlx.Text.Blank
import Dlx.Text.Line
import Dlx.Text.Numeral
import Dlx.Text.Utf8
import Dlx.Text.WordChar
import Dlx.Proofs.Link.Layout
import Dlx.Proofs.Link.Planning
import Dlx.Proofs.Link.Success
import Dlx.Proofs.Assembly.Finishing
import Dlx.Proofs.Link.Completion
import Dlx.Proofs.Link.Agreement
import Dlx.Proofs.Fields
import Dlx.Proofs.Link.Transfer
import Dlx.Proofs.Elf.Names
import Dlx.Proofs.Elf.Tables
import Dlx.Proofs.Elf.Layout
import Dlx.Proofs.Elf.RoundTrip
import Dlx.Proofs.Call.Allocation
import Dlx.Proofs.Call.Machine
import Dlx.Proofs.Call.Moves
import Dlx.Proofs.Call.Stores
import Dlx.Proofs.Call.Delivery
import Dlx.Proofs.Link.Data
import Dlx.Proofs.Assembly.Names
import Dlx.Proofs.Elf.Narrowing
import Dlx.Proofs.Link.Alike
import Dlx.Proofs.Link.Files
import Dlx.Proofs.Link.Sessions
import Dlx.Proofs.Encoding
import Dlx.Proofs.Assembly.Errors
import Dlx.Proofs.Recoding
import Dlx.Proofs.Text
import Dlx.Proofs.Source.Printed
import Dlx.Proofs.Source.PrintedExpression
import Dlx.Proofs.Source.PrintedLine
import Dlx.Proofs.Listing
import Dlx.Proofs.Elf.Sections
import Dlx.Proofs.Call.Address
import Dlx.Proofs.Link.Relocations
import Dlx.Proofs.Link.Addresses
import Dlx.Proofs.FieldBits
import Dlx.Proofs.Assembly.Emission
import Dlx.Proofs.Assembly.Resolution
import Dlx.Proofs.Assembly.Sessions
import Dlx.Proofs.Link.Failures
import Dlx.Proofs.Link.Frame
import Dlx.Proofs.Outcome
import Dlx.Proofs.Link.Moving
import Dlx.Proofs.Link.Independence
import Dlx.Proofs.Assembly.Interleaving
import Dlx.Proofs.Elf.Indices
import Dlx.Proofs.Link.Indices
import Dlx.Proofs.Decoding
import Dlx.Proofs.Call.Monotonic
import Dlx.Proofs.Constants
import Dlx.Proofs.Call.Aggregates
import Dlx.Proofs.Call.Results
import Dlx.Proofs.Call.Acceptance
import Dlx.Proofs.Call.Immediates
import Dlx.Proofs.Call.StackPointer
import Dlx.Proofs.Assembly.Replacement
import Dlx.Proofs.Assembly.Differences
import Dlx.Proofs.Source.Targets
import Dlx.Proofs.FieldValues
import Dlx.Proofs.Link.Order
import Dlx.Proofs.Elf.Loading
import Dlx.Proofs.Link.Alignment
import Dlx.Proofs.Testing.Cases
import Dlx.Proofs.Call.Rounds
import Dlx.Proofs.References
