import BlockScope.Main
import BlockScope.Proofs.Program.Forest
import BlockScope.Proofs.Program.Literals
import BlockScope.Proofs.Runs
import BlockScope.Proofs.Outcomes
import BlockScope.Proofs.Program.Parsing
import BlockScope.Proofs.Program.Events
import BlockScope.Proofs.Scope.Chain
import BlockScope.Proofs.Scope.Update
import BlockScope.Proofs.Scope.Growth
import BlockScope.Proofs.Scope.Wellformed
import BlockScope.Proofs.Scope.Opening
import BlockScope.Proofs.Analysis.Steps
import BlockScope.Proofs.Analysis.Simulation
import BlockScope.Proofs.Analysis.Methods
import BlockScope.Proofs.Analysis.Outline
import BlockScope.Proofs.Analysis.Linking
import BlockScope.Proofs.Analysis.Tables
import BlockScope.Proofs.Analysis.Levels
import BlockScope.Proofs.Analysis.Resolved
import BlockScope.Proofs.Analysis.Conversion
import BlockScope.Proofs.Analysis.Converted
import BlockScope.Proofs.Analysis.RemoteAccess
import BlockScope.Proofs.Analysis.Captures
import BlockScope.Proofs.Analysis.Lexical
import BlockScope.Proofs.Program.Reached
import BlockScope.Proofs.Analysis.Coverage
import BlockScope.Proofs.Scope.Listing
import BlockScope.Proofs.Analysis.Promotion
import BlockScope.Proofs.Scope.Leaving
import BlockScope.Proofs.Analysis.Returns
import BlockScope.Proofs.Program.Declaring
import BlockScope.Proofs.Analysis.Receivers
import BlockScope.Proofs.Program.Visited
import BlockScope.Proofs.Analysis.Validity
import BlockScope.Proofs.Analysis.Hierarchy
import BlockScope.Proofs.Analysis.Cycles
import BlockScope.Proofs.Analysis.Progress
import BlockScope.Proofs.Analysis.Acceptance
import BlockScope.Proofs.Scope.Owners
import BlockScope.Proofs.Analysis.Kept
import BlockScope.Proofs.Analysis.Creation
import BlockScope.Proofs.Analysis.Ownership
import BlockScope.Proofs.Analysis.InlinedSlots
import BlockScope.Proofs.Program.Occurrences
import BlockScope.Proofs.Analysis.Inlining
import BlockScope.Proofs.Layout.Frames
import BlockScope.Proofs.Layout.References
import BlockScope.Proofs.Analysis.Stability
import BlockScope.Proofs.Analysis.Idempotence
import BlockScope.Proofs.Layout.Naming
import BlockScope.Proofs.Scope.Twins
import BlockScope.Proofs.Scope.TwinUpdates
import BlockScope.Proofs.Analysis.Lockstep
import BlockScope.Proofs.Analysis.Independence
import BlockScope.Proofs.Analysis.Reordering
import BlockScope.Proofs.Layout.Order
import BlockScope.Proofs.Token.Tiling
import BlockScope.Proofs.Program.PostOrder
import BlockScope.Proofs.Program.Cascades
import BlockScope.Proofs.Program.RoundTrip
import BlockScope.Proofs.Layout.Slots
import BlockScope.Proofs.Token.Lookahead
import BlockScope.Proofs.Token.Stepwise
import BlockScope.Proofs.Token.Comments
import BlockScope.Proofs.Text.Encoding
import BlockScope.Proofs.Token.Spelling
import BlockScope.Proofs.Token.Numerals
import BlockScope.Proofs.Token.Scanned
import BlockScope.Proofs.Token.Decoding
import BlockScope.Proofs.Text.Boundaries
import BlockScope.Proofs.Token.Verbatim
import BlockScope.Proofs.Program.Consuming
import BlockScope.Proofs.Program.Unbounded
import BlockScope.Proofs.Program.Termination
import BlockScope.Proofs.Program.Coupling
import BlockScope.Proofs.Program.Commentless
import BlockScope.Proofs.Program.LexicalErrors
import BlockScope.Proofs.Program.Grouping
import BlockScope.Proofs.Program.OperatorMethods
import BlockScope.Proofs.Program.Streaming
import BlockScope.Proofs.Program.Placing
import BlockScope.Proofs.Program.Spanning
import BlockScope.Proofs.Program.Nesting
import BlockScope.Proofs.Analysis.Blame
import BlockScope.Proofs.Analysis.Locations
import BlockScope.Proofs.Analysis.History
import BlockScope.Proofs.Layout.SlotNames
import BlockScope.Proofs.Layout.Selectors
import BlockScope.Proofs.Program.Drawing
import BlockScope.Proofs.Program.Stopping
import BlockScope.Proofs.Analysis.Dumped
import BlockScope.Proofs.Token.Streamed
