import ContentModels.Json.Printer
import ContentModels.Main
import ContentModels.Schema.Document
import ContentModels.Proofs.Emission.Qualified
import ContentModels.Proofs.Emission.Ledger
import ContentModels.Proofs.Emission.Plan
import ContentModels.Proofs.Emission.Traversal
import ContentModels.Proofs.Registry
import ContentModels.Proofs.Emission.Placement
import ContentModels.Proofs.Emission.Provenance
import ContentModels.Proofs.Emission.Closure
import ContentModels.Proofs.Emission.Uniqueness
import ContentModels.Proofs.Emission.Coverage
import ContentModels.Proofs.Emission.Success
import ContentModels.Proofs.Spelling.Declarations
import ContentModels.Proofs.Emission.Members
import ContentModels.Proofs.Emission.Dispatch
import ContentModels.Proofs.Emission.Identity
import ContentModels.Proofs.Emission.Extent
import ContentModels.Proofs.Emission.Mirror
import ContentModels.Proofs.Emission.Policy
import ContentModels.Proofs.Emission.Independence
import ContentModels.Proofs.Emission.Order
import ContentModels.Proofs.Config
import ContentModels.Proofs.Naming.Candidate
import ContentModels.Proofs.FileTree
import ContentModels.Proofs.Emission.Validity
import ContentModels.Proofs.Naming.Lettercase
import ContentModels.Proofs.Naming.Words
import ContentModels.Proofs.Naming.FirstFree
import ContentModels.Proofs.Naming.Placeholder
import ContentModels.Proofs.Emission.WireKeys
import ContentModels.Proofs.Emission.Embedding
import ContentModels.Proofs.Emission.Namespaces
import ContentModels.Proofs.Emission.Visibility
import ContentModels.Proofs.Spelling.Literal
import ContentModels.Proofs.Emission.Repetition
import ContentModels.Proofs.Source
import ContentModels.Proofs.FileTree.Growth
import ContentModels.Proofs.Writer.Session
import ContentModels.Proofs.Writer.Consent
import ContentModels.Proofs.Spelling.Types
import ContentModels.Proofs.Emission.OwnNames
import ContentModels.Proofs.Writer.Forecast
import ContentModels.Proofs.Run
import ContentModels.Proofs.Writer.Stopping
import ContentModels.Proofs.Schema.RoundTrip
import ContentModels.Proofs.Registry.History
import ContentModels.Proofs.Resolution
import ContentModels.Proofs.Emission.Reports
import ContentModels.Proofs.Json.Records
import ContentModels.Proofs.Schema.Layouts
import ContentModels.Proofs.Schema.Rewriting
import ContentModels.Proofs.SchemaVersion
import ContentModels.Proofs.Code
import ContentModels.Proofs.Code.Reading
import ContentModels.Proofs.Code.Blocks
import ContentModels.Proofs.Code.Texts
import ContentModels.Proofs.Spelling.Characters
import ContentModels.Proofs.Spelling.Layout
import ContentModels.Proofs.Spelling.Recovery
