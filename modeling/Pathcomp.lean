import Pathcomp.Bytes
import Pathcomp.Buffer
import Pathcomp.Config
import Pathcomp.Values
import Pathcomp.Attributes
import Pathcomp.Composers
import Pathcomp.Evaluation
import Pathcomp.Odometer
import Pathcomp.Purity
import Pathcomp.Wheels
import Pathcomp.Reachability
import Pathcomp.Iteration
import Pathcomp.Growth
import Pathcomp.Search
import Pathcomp.FiniteDescent
import Pathcomp.Traversal
import Pathcomp.Resolution
import Pathcomp.Overriding
import Pathcomp.Scanner
import Pathcomp.RoundTrip
import Pathcomp.HighBytes
import Pathcomp.Safety
import Pathcomp.Additions
import Pathcomp.Truncation
import Pathcomp.Concatenation
import Pathcomp.Tracing
import Pathcomp.Provenance
import Pathcomp.Directories
import Pathcomp.Observations
import Pathcomp.History
import Pathcomp.Lifetimes
import Pathcomp.Cells
import Pathcomp.RawBuffer
import Pathcomp.Capacity
import Pathcomp.ByteString
import Pathcomp.Files
import Pathcomp.Heaps
import Pathcomp.Memory
import Pathcomp.Placement
import Pathcomp.PlacedComposers
import Pathcomp.PlacedEvaluation
import Pathcomp.Clones
import Pathcomp.CommandLine
import Pathcomp.LuaValues
import Pathcomp.Standalone
import Pathcomp.MkdirCalls
import Pathcomp.Progress
import Pathcomp.Reading
import Pathcomp.Denotation
import Pathcomp.Lifecycle
import Pathcomp.Ownership
import Pathcomp.Ancestors
import Pathcomp.Commutation
import Pathcomp.Parents
import Pathcomp.Arguments
import Pathcomp.Leaks
import Pathcomp.ListClients
import Pathcomp.Readable
import Pathcomp.ChangingFiles
import Pathcomp.Dump
import Pathcomp.Streams
