import Freestanding.Binding
import Freestanding.Block
import Freestanding.Build
import Freestanding.CallGraph
import Freestanding.Collector.Allocation
import Freestanding.Collector.Elimination
import Freestanding.Collector.Residue
import Freestanding.Collector.Scaffolding
import Freestanding.Container.Creation
import Freestanding.Container.Dereference
import Freestanding.Container.Idiom
import Freestanding.Container.Lowering
import Freestanding.Cut
import Freestanding.Decimal.Shortest
import Freestanding.Error
import Freestanding.FileTree
import Freestanding.Heap.Image
import Freestanding.Heap.Json
import Freestanding.Heap.Object
import Freestanding.Host.Json
import Freestanding.Host.Recording
import Freestanding.Host.Signature
import Freestanding.Json.Basic
import Freestanding.Json.Decoder
import Freestanding.Json.Number
import Freestanding.Json.Parser
import Freestanding.Json.Printer
import Freestanding.Line
import Freestanding.Listing
import Freestanding.Listing.Definition
import Freestanding.Listing.Dump
import Freestanding.Listing.TopLevel
import Freestanding.Name
import Freestanding.Name.Compiled
import Freestanding.Output
import Freestanding.Path
import Freestanding.Policy
import Freestanding.Program.Basic
import Freestanding.Program.Callee
import Freestanding.Program.Link
import Freestanding.Region
import Freestanding.Renaming
import Freestanding.Routine
import Freestanding.Scope
import Freestanding.Scope.Json
import Freestanding.Scope.Path
import Freestanding.Settings
import Freestanding.Text.Basic
import Freestanding.Text.Digit
import Freestanding.Text.Number
import Freestanding.Text.Utf8
import Freestanding.Text.Word
import Freestanding.Token
import Freestanding.Value
import Freestanding.Value.Constant
import Freestanding.Value.Json
import Freestanding.Warning
import Freestanding.Proofs.Attempt
import Freestanding.Proofs.Build.Closure
import Freestanding.Proofs.Build.Stages
import Freestanding.Proofs.CallGraph.Names
import Freestanding.Proofs.CallGraph.Reachability
import Freestanding.Proofs.Listing.Lines
import Freestanding.Proofs.Listing.Passes
import Freestanding.Proofs.Program.Resolution
import Freestanding.Proofs.Build.Policies
import Freestanding.Proofs.CallGraph.Rerun
import Freestanding.Proofs.FileTree.Writing
import Freestanding.Proofs.Name.Plain
import Freestanding.Proofs.Output.Emission
import Freestanding.Proofs.Build.Rerun
import Freestanding.Proofs.Binding.Origin
import Freestanding.Proofs.Program.Separation
import Freestanding.Proofs.Collector.Renaming
import Freestanding.Proofs.Binding.Residue
import Freestanding.Proofs.Build.SelfContained
import Freestanding.Proofs.Heap.Bytes
import Freestanding.Proofs.Heap.Recording
import Freestanding.Proofs.Routine.OutputNames
import Freestanding.Proofs.Listing.Respelling
import Freestanding.Proofs.Listing.NewNames
import Freestanding.Proofs.Listing.Page
import Freestanding.Proofs.Listing.Reread
import Freestanding.Proofs.Listing.RoundTrip
import Freestanding.Proofs.Program.Assembly
import Freestanding.Proofs.Program.EachOnce
import Freestanding.Proofs.Host.Handles
import Freestanding.Proofs.Program.Grouping
import Freestanding.Proofs.Collector.Stripping
import Freestanding.Proofs.Collector.Concealment
import Freestanding.Proofs.Collector.Substitution
import Freestanding.Proofs.Collector.Repetition
import Freestanding.Proofs.Collector.QuotedComments
import Freestanding.Proofs.Container.Silence
import Freestanding.Proofs.Container.Sites
import Freestanding.Proofs.Container.Blanking
import Freestanding.Proofs.Container.Rewriting
import Freestanding.Proofs.Container.Exactness
import Freestanding.Proofs.Container.Runs
import Freestanding.Proofs.Container.Branches
import Freestanding.Proofs.Line.Code
import Freestanding.Proofs.Container.Locals
import Freestanding.Proofs.Container.Rounds
import Freestanding.Proofs.Listing.Addresses
import Freestanding.Proofs.Listing.Slices
import Freestanding.Proofs.Block.Partition
import Freestanding.Proofs.Token.Homomorphism
import Freestanding.Proofs.Region.Depth
import Freestanding.Proofs.Text.Octets
import Freestanding.Proofs.Region.Exact
import Freestanding.Proofs.Listing.ConstantPool
import Freestanding.Proofs.Heap.Overwriting
import Freestanding.Proofs.Heap.Extension
import Freestanding.Proofs.Heap.Endless
import Freestanding.Proofs.Heap.Ranges
import Freestanding.Proofs.Value.ByteArrays
import Freestanding.Proofs.Build.Directory
import Freestanding.Proofs.Binding.Scan
import Freestanding.Proofs.Host.Loading
import Freestanding.Proofs.Json.Reading
import Freestanding.Proofs.Json.Records
import Freestanding.Proofs.Scope.Snapshots
import Freestanding.Proofs.Heap.Snapshots
import Freestanding.Proofs.Token.Joining
import Freestanding.Proofs.Name.Compiled
import Freestanding.Proofs.Program.Parameters
