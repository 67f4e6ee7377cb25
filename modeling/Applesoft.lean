import Applesoft.Main
import Applesoft.Proofs.Arrays
import Applesoft.Proofs.Assembly
import Applesoft.Proofs.Balance
import Applesoft.Proofs.Breaks
import Applesoft.Proofs.Checked.Access
import Applesoft.Proofs.Checked.Alignment
import Applesoft.Proofs.Checked.Answers
import Applesoft.Proofs.Checked.Code
import Applesoft.Proofs.Checked.Dumps
import Applesoft.Proofs.Checked.Layout
import Applesoft.Proofs.Checked.Lines
import Applesoft.Proofs.Checked.Names
import Applesoft.Proofs.Checked.Nesting
import Applesoft.Proofs.Checked.Pieces
import Applesoft.Proofs.Checked.Programs
import Applesoft.Proofs.Checked.Statements
import Applesoft.Proofs.Checked.Wrapping
import Applesoft.Proofs.Chunks
import Applesoft.Proofs.Collisions
import Applesoft.Proofs.Concatenation
import Applesoft.Proofs.Continuations
import Applesoft.Proofs.Coverage
import Applesoft.Proofs.Decoration
import Applesoft.Proofs.Documents
import Applesoft.Proofs.DumpBytes
import Applesoft.Proofs.Encoding
import Applesoft.Proofs.EqualsColumns
import Applesoft.Proofs.ExtraSpaces
import Applesoft.Proofs.Faults
import Applesoft.Proofs.FirstLine
import Applesoft.Proofs.Gutter
import Applesoft.Proofs.HexRows
import Applesoft.Proofs.Hexadecimal
import Applesoft.Proofs.Import
import Applesoft.Proofs.Ink
import Applesoft.Proofs.Jumps
import Applesoft.Proofs.Junctions
import Applesoft.Proofs.Keys
import Applesoft.Proofs.ListingInk
import Applesoft.Proofs.Literals
import Applesoft.Proofs.LookAhead
import Applesoft.Proofs.LoopNames
import Applesoft.Proofs.Margins
import Applesoft.Proofs.Names
import Applesoft.Proofs.Naturals
import Applesoft.Proofs.Nesting
import Applesoft.Proofs.NextLists
import Applesoft.Proofs.Obstacles
import Applesoft.Proofs.Outcomes
import Applesoft.Proofs.Patterns
import Applesoft.Proofs.Precedence
import Applesoft.Proofs.Quotes
import Applesoft.Proofs.References
import Applesoft.Proofs.Restart
import Applesoft.Proofs.Reuse.Decoder
import Applesoft.Proofs.Reuse.Histories
import Applesoft.Proofs.Reuse.Sessions
import Applesoft.Proofs.RoundTrip
import Applesoft.Proofs.Sections
import Applesoft.Proofs.Spelling
import Applesoft.Proofs.Stretches
import Applesoft.Session
