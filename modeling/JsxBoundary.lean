import JsxBoundary.Main
import JsxBoundary.Storage.FileTree
import JsxBoundary.Proofs.Decision
import JsxBoundary.Proofs.Derivation
import JsxBoundary.Proofs.Exchange
import JsxBoundary.Proofs.Replacement
import JsxBoundary.Proofs.Coverage
import JsxBoundary.Proofs.Suppression
import JsxBoundary.Proofs.Comparison
import JsxBoundary.Proofs.Stability
import JsxBoundary.Proofs.Pipeline
import JsxBoundary.Proofs.TextEdit
import JsxBoundary.Proofs.Printing
import JsxBoundary.Proofs.DeferralText
import JsxBoundary.Proofs.RewriteText
import JsxBoundary.Proofs.Completion
import JsxBoundary.Proofs.ImportText
import JsxBoundary.Proofs.Plans
import JsxBoundary.Proofs.Reading
import JsxBoundary.Proofs.Legible
import JsxBoundary.Proofs.Preservation
import JsxBoundary.Proofs.Printable
import JsxBoundary.InPlace.Heap
import JsxBoundary.InPlace.Replacement
import JsxBoundary.InPlace.Traversal
import JsxBoundary.InPlace.Reading
import JsxBoundary.InPlace.Import
import JsxBoundary.Proofs.InPlace.Holds
import JsxBoundary.Proofs.InPlace.Sight
import JsxBoundary.Proofs.InPlace.Building
import JsxBoundary.Proofs.InPlace.Deferral
import JsxBoundary.Proofs.InPlace.Decision
import JsxBoundary.Proofs.InPlace.Traversal
import JsxBoundary.Proofs.InPlace.Loading
import JsxBoundary.Proofs.InPlace.Refinement
import JsxBoundary.Proofs.InPlace.Safety
import JsxBoundary.Proofs.Bindings
import JsxBoundary.Proofs.Phases
import JsxBoundary.Proofs.Records
import JsxBoundary.Proofs.Failure
import JsxBoundary.Proofs.ReadPaths
import JsxBoundary.Proofs.Exemption
import JsxBoundary.Proofs.ThunkText
import JsxBoundary.Proofs.Assembly
import JsxBoundary.Proofs.InPlace.Layouts
import JsxBoundary.Proofs.InPlace.Upkeep
import JsxBoundary.Proofs.InPlace.Reading
import JsxBoundary.Proofs.InPlace.Waiting
import JsxBoundary.Proofs.InPlace.Import
import JsxBoundary.Proofs.InPlace.Representation
import JsxBoundary.Proofs.Origins
import JsxBoundary.Proofs.Broadening
import JsxBoundary.Proofs.Storage.Trees
import JsxBoundary.Storage.Guarded
import JsxBoundary.Proofs.Storage.Writing
import JsxBoundary.Proofs.Storage.Agreement
import JsxBoundary.Proofs.CommandLine.Jobs
import JsxBoundary.Proofs.CommandLine.Files
import JsxBoundary.Proofs.CommandLine.Batches
import JsxBoundary.Proofs.CommandLine.Console
import JsxBoundary.Proofs.CommandLine.Isolation
import JsxBoundary.Proofs.CommandLine.Delivery
import JsxBoundary.Proofs.Accounts
import JsxBoundary.Proofs.Enlargement
import JsxBoundary.Proofs.Sparing
import JsxBoundary.Proofs.Survival
import JsxBoundary.Proofs.Relocation
import JsxBoundary.Proofs.Enclosure
import JsxBoundary.InPlace.Injection
import JsxBoundary.Proofs.InPlace.Standing
import JsxBoundary.Proofs.InPlace.Injection
import JsxBoundary.Proofs.Placement
import JsxBoundary.Proofs.Prologue
import JsxBoundary.Proofs.ImportLine
import JsxBoundary.Proofs.Quoting
import JsxBoundary.Proofs.ImportReading
import JsxBoundary.Proofs.ImportRoundTrip
import JsxBoundary.Search
import JsxBoundary.Proofs.ReadSearch
import JsxBoundary.Proofs.NormalizedText
import JsxBoundary.Proofs.Resolution
import JsxBoundary.InPlace.Substitution
import JsxBoundary.Proofs.InPlace.Substitution
import JsxBoundary.Trace.Calls
import JsxBoundary.Proofs.Decoding
import JsxBoundary.Proofs.Rejection
import JsxBoundary.Proofs.CommandLine.Traces
import JsxBoundary.Proofs.InPlace.Turns
import JsxBoundary.Stack
import JsxBoundary.Tree.Emission
import JsxBoundary.Proofs.Hiding
import JsxBoundary.Proofs.Emission
import JsxBoundary.Concrete.Search
import JsxBoundary.Proofs.FirstFault
