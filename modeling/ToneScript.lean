import ToneScript.Activation.Session
import ToneScript.CommandLine.Desk
import ToneScript.Main
import ToneScript.Scope.Listing
import ToneScript.Syntax.Formula
import ToneScript.Token.Stream
import ToneScript.Proofs.Arithmetic.Derivation
import ToneScript.Proofs.Arithmetic.Juxtaposition
import ToneScript.Proofs.Arithmetic.PartialEvaluation
import ToneScript.Proofs.Arithmetic.Rearrangement
import ToneScript.Proofs.Arithmetic.Sentinel
import ToneScript.Proofs.Arithmetic.Walk
import ToneScript.Proofs.CommandLine.Recognition
import ToneScript.Proofs.Compilation.Annotated
import ToneScript.Proofs.Compilation.Captured
import ToneScript.Proofs.Compilation.Determinate
import ToneScript.Proofs.Compilation.Gates
import ToneScript.Proofs.Compilation.Keys
import ToneScript.Proofs.Compilation.Once
import ToneScript.Proofs.Depth.Bindings
import ToneScript.Proofs.Folding.Outcome
import ToneScript.Proofs.Json.IssueLines
import ToneScript.Proofs.Json.RecordLines
import ToneScript.Proofs.Log.Thresholds
import ToneScript.Proofs.Outline.Progress
import ToneScript.Proofs.Phrase.Reading
import ToneScript.Proofs.Reference.Agreement
import ToneScript.Proofs.Rendering.RoundTrip
import ToneScript.Proofs.Run.BoundValues
import ToneScript.Proofs.Run.Lexical
import ToneScript.Proofs.Run.Values
import ToneScript.Proofs.Scope.Frames
import ToneScript.Proofs.Scope.Visibility
import ToneScript.Proofs.Suggestion.Metric
import ToneScript.Proofs.Suggestion.Nearest
import ToneScript.Proofs.Syntax.CallSites
import ToneScript.Proofs.Syntax.Derivation
import ToneScript.Proofs.Syntax.Isolation
import ToneScript.Proofs.Text.Partners
import ToneScript.Proofs.Text.Positions
import ToneScript.Proofs.Text.Spacing
import ToneScript.Proofs.Text.Streams

