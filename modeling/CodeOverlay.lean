import CodeOverlay.Config.Basic
import CodeOverlay.Config.Printer
import CodeOverlay.Config.Reader
import CodeOverlay.Document.Node
import CodeOverlay.Document.Printer
import CodeOverlay.Document.Replacement
import CodeOverlay.Document.Revision
import CodeOverlay.Document.Traversal
import CodeOverlay.Highlight.Painting
import CodeOverlay.Highlight.StyleTable
import CodeOverlay.Json.Number
import CodeOverlay.Json.Text
import CodeOverlay.Json.Value
import CodeOverlay.Measured
import CodeOverlay.Overlay.Cache
import CodeOverlay.Overlay.Decorations
import CodeOverlay.Overlay.LanguageRule
import CodeOverlay.Overlay.ParserTable
import CodeOverlay.Overlay.Pass
import CodeOverlay.Overlay.Render
import CodeOverlay.Overlay.Session
import CodeOverlay.Overlay.Target
import CodeOverlay.Position.Route
import CodeOverlay.Position.Shift
import CodeOverlay.Proofs.Lookup
import CodeOverlay.Proofs.Splicing
import CodeOverlay.Proofs.Tokens
import CodeOverlay.Syntax.Grammar
import CodeOverlay.Syntax.Languages
import CodeOverlay.Syntax.Parser
import CodeOverlay.Syntax.Tree
import CodeOverlay.Text.Blank
import CodeOverlay.Text.Bytes
import CodeOverlay.Text.Description
import CodeOverlay.Text.Difference
import CodeOverlay.Text.Hidden
import CodeOverlay.Text.Place
import CodeOverlay.Text.Quoted
import CodeOverlay.Proofs.Surroundings
import CodeOverlay.Proofs.Targets
import CodeOverlay.Proofs.Carrying
import CodeOverlay.Proofs.Coherence
import CodeOverlay.Proofs.Strokes
import CodeOverlay.Proofs.Fitting
import CodeOverlay.Proofs.Following
import CodeOverlay.Proofs.Tracking
import CodeOverlay.Proofs.Words
import CodeOverlay.Proofs.Cells
import CodeOverlay.Proofs.Walking
import CodeOverlay.Proofs.Passes
import CodeOverlay.Proofs.Reparsing
import CodeOverlay.Proofs.Sweeping
import CodeOverlay.Proofs.Colouring
import CodeOverlay.Proofs.Replaying
import CodeOverlay.Proofs.Reading
import CodeOverlay.Proofs.Naming
import CodeOverlay.Proofs.Layout
import CodeOverlay.Proofs.Addressing
import CodeOverlay.Proofs.Arriving
import CodeOverlay.Proofs.Handling
import CodeOverlay.Proofs.Repeating
import CodeOverlay.Proofs.Boundaries
import CodeOverlay.Proofs.Refusing
import CodeOverlay.Proofs.Ordering
import CodeOverlay.Proofs.Drifting
import CodeOverlay.Proofs.Differing
import CodeOverlay.Proofs.Trimming
import CodeOverlay.Proofs.Placing
import CodeOverlay.Proofs.Descending
import CodeOverlay.Proofs.Touring
import CodeOverlay.Proofs.Outermost
import CodeOverlay.Proofs.Filing
import CodeOverlay.Proofs.Consuming
import CodeOverlay.Proofs.Fields
import CodeOverlay.Proofs.Restoring
import CodeOverlay.Proofs.Shortening
import CodeOverlay.Proofs.Seeking
