import AvmAssembler.Assembly
import AvmAssembler.CommandLine
import AvmAssembler.CommandLine.Options
import AvmAssembler.Diagnostics
import AvmAssembler.ElementType
import AvmAssembler.Fault
import AvmAssembler.Files.FileError
import AvmAssembler.Files.FileTree
import AvmAssembler.Files.Path
import AvmAssembler.Image
import AvmAssembler.Image.Listing
import AvmAssembler.Image.Storage
import AvmAssembler.InstructionSet
import AvmAssembler.Journal
import AvmAssembler.Location
import AvmAssembler.Main
import AvmAssembler.Number.Binary64
import AvmAssembler.Number.Numeral
import AvmAssembler.Number.Radix
import AvmAssembler.Number.Word
import AvmAssembler.Operator
import AvmAssembler.Proofs.Assembly.Arithmetic
import AvmAssembler.Proofs.Assembly.Atomicity
import AvmAssembler.Proofs.Assembly.Declaration
import AvmAssembler.Proofs.Assembly.Effect
import AvmAssembler.Proofs.Assembly.Encoding
import AvmAssembler.Proofs.Assembly.Escalation
import AvmAssembler.Proofs.Assembly.Faults
import AvmAssembler.Proofs.Assembly.Indexing
import AvmAssembler.Proofs.Assembly.Inlining
import AvmAssembler.Proofs.Assembly.Invariance
import AvmAssembler.Proofs.Assembly.Layout
import AvmAssembler.Proofs.Assembly.Limits
import AvmAssembler.Proofs.Assembly.Literal
import AvmAssembler.Proofs.Assembly.Passes
import AvmAssembler.Proofs.Assembly.Redefinition
import AvmAssembler.Proofs.Assembly.Relocation
import AvmAssembler.Proofs.Assembly.Renaming
import AvmAssembler.Proofs.Assembly.Rewriting
import AvmAssembler.Proofs.Assembly.Scope
import AvmAssembler.Proofs.Assembly.Shape
import AvmAssembler.Proofs.Assembly.Values
import AvmAssembler.Proofs.Collection
import AvmAssembler.Proofs.Comparison
import AvmAssembler.Proofs.Correspondence
import AvmAssembler.Proofs.Escapes
import AvmAssembler.Proofs.Fatality
import AvmAssembler.Proofs.Files.Naming
import AvmAssembler.Proofs.Files.Overwriting
import AvmAssembler.Proofs.Image.Acceptance
import AvmAssembler.Proofs.Image.Codec
import AvmAssembler.Proofs.Image.Listing
import AvmAssembler.Proofs.Image.Reassembly
import AvmAssembler.Proofs.Image.Survival
import AvmAssembler.Proofs.Number.Written
import AvmAssembler.Proofs.Numbers
import AvmAssembler.Proofs.Outcome
import AvmAssembler.Proofs.Phases
import AvmAssembler.Proofs.Recording
import AvmAssembler.Proofs.Relocation
import AvmAssembler.Proofs.Rendering
import AvmAssembler.Proofs.Reports
import AvmAssembler.Proofs.Reuse
import AvmAssembler.Proofs.Runs
import AvmAssembler.Proofs.Source.Boundary
import AvmAssembler.Proofs.Source.Completeness
import AvmAssembler.Proofs.Source.Composition
import AvmAssembler.Proofs.Source.Concatenation
import AvmAssembler.Proofs.Source.Derivation
import AvmAssembler.Proofs.Source.Inclusion
import AvmAssembler.Proofs.Source.Items
import AvmAssembler.Proofs.Source.LineEndings
import AvmAssembler.Proofs.Source.Lines
import AvmAssembler.Proofs.Source.Locality
import AvmAssembler.Proofs.Source.Moments
import AvmAssembler.Proofs.Source.Numerals
import AvmAssembler.Proofs.Source.Origins
import AvmAssembler.Proofs.Source.Positions
import AvmAssembler.Proofs.Source.Quotation
import AvmAssembler.Proofs.Source.Recovery
import AvmAssembler.Proofs.Source.Recurrence
import AvmAssembler.Proofs.Source.Relocation
import AvmAssembler.Proofs.Source.Respacing
import AvmAssembler.Proofs.Source.RoundTrip
import AvmAssembler.Proofs.Source.Separation
import AvmAssembler.Proofs.Source.Soundness
import AvmAssembler.Proofs.Source.Spelling
import AvmAssembler.Proofs.Source.Splicing
import AvmAssembler.Proofs.Source.Terminal
import AvmAssembler.Proofs.Source.Units
import AvmAssembler.Proofs.Source.Vocabulary
import AvmAssembler.Proofs.Source.WellFormed
import AvmAssembler.Proofs.Source.Wording
import AvmAssembler.Proofs.Spacing
import AvmAssembler.Proofs.Strings
import AvmAssembler.Proofs.Symbols.History
import AvmAssembler.Proofs.Symbols.Lookup
import AvmAssembler.Proofs.Text.EditDistance
import AvmAssembler.Proofs.Text.Styling
import AvmAssembler.Proofs.Truncation
import AvmAssembler.Proofs.Verdict
import AvmAssembler.Proofs.Warnings
import AvmAssembler.Session
import AvmAssembler.Source.Expr
import AvmAssembler.Source.Expr.Value
import AvmAssembler.Source.Grammar
import AvmAssembler.Source.Lexeme
import AvmAssembler.Source.Lexeme.Coverage
import AvmAssembler.Source.Phrase
import AvmAssembler.Source.Scanner
import AvmAssembler.Source.Statement
import AvmAssembler.Source.Token
import AvmAssembler.Source.Unit
import AvmAssembler.SymbolKind
import AvmAssembler.SymbolTable
import AvmAssembler.Text.Blank
import AvmAssembler.Text.Case
import AvmAssembler.Text.Case.Context
import AvmAssembler.Text.Digit
import AvmAssembler.Text.EditDistance
import AvmAssembler.Text.Lines
import AvmAssembler.Text.Quoted
import AvmAssembler.Text.Styled
import AvmAssembler.Text.Utf8
