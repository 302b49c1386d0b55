import BytePattern.Main
import BytePattern.Library.Session
import BytePattern.Proofs.Pattern.Ledger
import BytePattern.Proofs.Match.FirstWay
import BytePattern.Proofs.Match.Simulation
import BytePattern.Proofs.Match.Span
import BytePattern.Proofs.Match.Walk
import BytePattern.Proofs.Match.Preferred
import BytePattern.Proofs.Pattern.WellFormed
import BytePattern.Proofs.Search.Naive
import BytePattern.Proofs.Pattern.Grammar
import BytePattern.Proofs.Search.Limit
import BytePattern.Proofs.Search.Stale
import BytePattern.Proofs.Search.Inside
import BytePattern.Proofs.Replace.Template
import BytePattern.Proofs.Replace.Assembly
import BytePattern.Proofs.Replace.Cutoff
import BytePattern.Proofs.Library.Kept
import BytePattern.Proofs.Library.Limit
import BytePattern.Proofs.Match.Bounds
import BytePattern.Proofs.Safety
import BytePattern.Proofs.Byte.Set
import BytePattern.Proofs.Pattern.Canonical
import BytePattern.Proofs.Search.Literal
import BytePattern.Proofs.Library.Quoting
import BytePattern.Proofs.Match.Halting
import BytePattern.Proofs.Library.Compiles
import BytePattern.Proofs.Termination
import BytePattern.Proofs.Library.Sessions
import BytePattern.Proofs.Search.Nesting
import BytePattern.Proofs.Library.Replacing
import BytePattern.Proofs.Command.Lines
import BytePattern.Proofs.Library.Offset
import BytePattern.Proofs.Library.Agreement
import BytePattern.Proofs.Match.Footprint
import BytePattern.Proofs.Match.History
import BytePattern.Proofs.Match.Window
import BytePattern.Proofs.Search.Window
import BytePattern.Proofs.Pattern.Enclosed
import BytePattern.Proofs.Search.Enclosed
import BytePattern.Proofs.Text.Number
import BytePattern.Proofs.Search.Anchored
import BytePattern.Proofs.Pattern.Bracket
import BytePattern.Proofs.Search.Equivalent
import BytePattern.Proofs.Pattern.Ceiling
import BytePattern.Proofs.Search.Unrolled
import BytePattern.Proofs.Match.Restored
import BytePattern.Proofs.Command.Spelling
import BytePattern.Proofs.Command.Outcomes
