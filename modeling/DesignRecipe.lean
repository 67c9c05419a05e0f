import DesignRecipe.Text.Basic
import DesignRecipe.Text.Blank
import DesignRecipe.Text.Digit
import DesignRecipe.Text.Printable
import DesignRecipe.Text.Integer
import DesignRecipe.Text.Numeral
import DesignRecipe.Text.Quoted
import DesignRecipe.Text.LineEnding
import DesignRecipe.Text.Utf8
import DesignRecipe.Text.Utf16
import DesignRecipe.Text.ByteOrder
import DesignRecipe.Number.Binary64
import DesignRecipe.Number.Shortest
import DesignRecipe.Json.Basic
import DesignRecipe.Json.Encoding
import DesignRecipe.Json.Reader
import DesignRecipe.Json.Writer
import DesignRecipe.Token.Alphabet
import DesignRecipe.Token.Rule
import DesignRecipe.Token.Span
import DesignRecipe.Token.Race
import DesignRecipe.Form.Basic
import DesignRecipe.Form.Reader
import DesignRecipe.Trace
import DesignRecipe.Form.Call
import DesignRecipe.Recipe.Signature
import DesignRecipe.Recipe.Definition
import DesignRecipe.Recipe.Warning
import DesignRecipe.Recipe.Design
import DesignRecipe.Recipe.Review
import DesignRecipe.Recipe.Locals
import DesignRecipe.Recipe.Threshold
import DesignRecipe.Recipe.Assessment
import DesignRecipe.Recipe.Listing
import DesignRecipe.CommandLine.Grammar
import DesignRecipe.CommandLine.Usage
import DesignRecipe.CommandLine.Request
import DesignRecipe.Files
import DesignRecipe.FileCheck
import DesignRecipe.Session
import DesignRecipe.Program
import DesignRecipe.Service
import DesignRecipe.Main
import DesignRecipe.Proofs.Token.Number
import DesignRecipe.Proofs.Token.Comment
import DesignRecipe.Proofs.Token.Scan
import DesignRecipe.Proofs.Token.Extent
import DesignRecipe.Proofs.Token.Stream
import DesignRecipe.Proofs.Form.Writing
import DesignRecipe.Proofs.Form.Progress
import DesignRecipe.Proofs.Form.Brackets
import DesignRecipe.Proofs.Form.Tiling
import DesignRecipe.Proofs.Form.Replay
import DesignRecipe.Proofs.Form.Within
import DesignRecipe.Proofs.Form.RoundTrip
import DesignRecipe.Proofs.Form.Calls
import DesignRecipe.Proofs.Form.CallPlaces
import DesignRecipe.Proofs.Form.LocalDepth
import DesignRecipe.Proofs.Recipe.Segmentation
import DesignRecipe.Proofs.Recipe.Blockwise
import DesignRecipe.Proofs.Recipe.Inspection
import DesignRecipe.Proofs.Recipe.Verdict
import DesignRecipe.Proofs.Recipe.LocalPlaces
import DesignRecipe.Proofs.Recipe.Ledger
import DesignRecipe.Proofs.Recipe.Phases
import DesignRecipe.Proofs.Recipe.PhaseOrder
import DesignRecipe.Proofs.Recipe.Concatenation
import DesignRecipe.Proofs.Token.LineBreak
import DesignRecipe.Proofs.Form.LineBreak
import DesignRecipe.Proofs.Session.Dialogue
import DesignRecipe.Proofs.Session.Exit
import DesignRecipe.Proofs.Recipe.Moments
import DesignRecipe.Proofs.Recipe.Settled
import DesignRecipe.Proofs.Text.Utf8
import DesignRecipe.Proofs.Text.LineEnding
import DesignRecipe.Proofs.Token.LineEnding
import DesignRecipe.Proofs.Form.AtomText
import DesignRecipe.Proofs.Form.LineEnding
import DesignRecipe.Proofs.Recipe.AtomText
import DesignRecipe.Proofs.Recipe.LineEnding
import DesignRecipe.Proofs.Service.Agreement
import DesignRecipe.Proofs.Form.Bracketed
import DesignRecipe.Proofs.Text.Occurrence
import DesignRecipe.Proofs.Recipe.SignatureText
import DesignRecipe.Proofs.Recipe.WrittenSignature
import DesignRecipe.Proofs.Recipe.Exemption
import DesignRecipe.Proofs.Recipe.NestedLocals
import DesignRecipe.Proofs.Token.BlockComment
import DesignRecipe.Proofs.Json.Escape
import DesignRecipe.Proofs.Json.RoundTrip
import DesignRecipe.Proofs.Token.Layout
import DesignRecipe.Proofs.Form.Layout
import DesignRecipe.Proofs.Form.SkippedQuote
import DesignRecipe.Proofs.Recipe.Nesting
