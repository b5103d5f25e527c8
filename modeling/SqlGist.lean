import SqlGist.Main
import SqlGist.Proofs.Token.Partition
import SqlGist.Proofs.Tree.Grammar
import SqlGist.Proofs.FirstStatement
import SqlGist.Proofs.Tree.Lossless
import SqlGist.Proofs.Tree.Relabel
import SqlGist.Proofs.Extraction.Placeless
import SqlGist.Proofs.Token.Spelling
import SqlGist.Proofs.Token.Words
import SqlGist.Proofs.Extraction.Spelled
import SqlGist.Proofs.Filter.Spelling
import SqlGist.Proofs.Filter.Reading
import SqlGist.Proofs.Extraction.Stages
import SqlGist.Proofs.Filter.RoundTrip
import SqlGist.Proofs.Definitions.Spelling
import SqlGist.Proofs.Definitions.Leaves
import SqlGist.Proofs.Definitions.Gathering
import SqlGist.Proofs.Definitions.Owning
import SqlGist.Proofs.Definitions.RoundTrip
import SqlGist.Proofs.Tree.Shapes
import SqlGist.Proofs.Filter.Accounting
import SqlGist.Proofs.Writes.RoundTrip
import SqlGist.Proofs.Constraints.Columns
import SqlGist.Proofs.Definitions.Items
import SqlGist.Proofs.Writes.Inserting
import SqlGist.Proofs.Dispatch
import SqlGist.Proofs.Token.Terminator
import SqlGist.Proofs.Tree.Depth
import SqlGist.Proofs.Tree.Outside
import SqlGist.Proofs.Tree.ConditionRange
import SqlGist.Proofs.Tree.OuterItems
import SqlGist.Proofs.Remainder
import SqlGist.Proofs.Constraints.NotNull
import SqlGist.Proofs.Caseless
import SqlGist.Proofs.Reprint
import SqlGist.Proofs.Extraction.Condition
import SqlGist.Proofs.Definitions.Addition
import SqlGist.Proofs.Token.BlankRuns
import SqlGist.Proofs.Token.Scanners
import SqlGist.Proofs.Token.Blanks
import SqlGist.Proofs.Extraction.Actions
import SqlGist.Proofs.Extraction.Targets
import SqlGist.Proofs.Extraction.TargetColumns
import SqlGist.Proofs.Constraints.Named
import SqlGist.Proofs.Tree.Partners
import SqlGist.Proofs.Diagnosis
import SqlGist.Proofs.Definitions.Declarations
import SqlGist.Proofs.Definitions.Columnless
import SqlGist.Proofs.Extraction.Projection
import SqlGist.Proofs.Token.Quoting
import SqlGist.Proofs.Constraints.Defaults
import SqlGist.Proofs.Definitions.CallTypes
import SqlGist.Proofs.Extraction.Defaulting
import SqlGist.Proofs.Json.Entities
import SqlGist.Proofs.Token.Numbers
import SqlGist.Proofs.Tree.Greedy
import SqlGist.Proofs.Tree.Flattening
