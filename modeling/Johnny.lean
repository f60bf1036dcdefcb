import Johnny.Library.Cursor
import Johnny.Library.Custody
import Johnny.Library.Delimited
import Johnny.Library.Extents
import Johnny.Library.FlatMemory
import Johnny.Library.Interleaving
import Johnny.Library.Leases
import Johnny.Library.Loop
import Johnny.Library.Machine
import Johnny.Library.Matching
import Johnny.Library.Memory
import Johnny.Library.Paths
import Johnny.Library.ProbablePrimes
import Johnny.Library.Reading
import Johnny.Library.Refinement
import Johnny.Library.Scatter
import Johnny.Library.Tokenizer
import Johnny.Library.Words
import Johnny.Global
import Johnny.Server
import Johnny.Service
import Johnny.Hash.BucketTables
import Johnny.Hash.Chd
import Johnny.Hash.ChdPacked
import Johnny.Hash.CmphNew
import Johnny.Hash.CompressedRank
import Johnny.Hash.CompressedSeq
import Johnny.Hash.Construction
import Johnny.Hash.Dumped
import Johnny.Hash.Jenkins
import Johnny.Hash.Mapping
import Johnny.Hash.Packed
import Johnny.Hash.Placing
import Johnny.Hash.Primality
import Johnny.Hash.SearchTables
import Johnny.Hash.SortedTables
import Johnny.Hash.Trials
import Johnny.Setup.BaseNames
import Johnny.Setup.Delimiting
import Johnny.Setup.Encoding
import Johnny.Setup.FileNames
import Johnny.Setup.Files
import Johnny.Setup.Keys
import Johnny.Setup.Packing
import Johnny.Setup.Responses
import Johnny.Setup.Slurp
import Johnny.Setup.Table
import Johnny.Setup.Traversals
import Johnny.Setup.Tree
import Johnny.Worker.Accounting
import Johnny.Worker.Allocation
import Johnny.Worker.Answers
import Johnny.Worker.Batches
import Johnny.Worker.Buffers
import Johnny.Worker.Confinement
import Johnny.Worker.Conversations
import Johnny.Worker.Events
import Johnny.Worker.Framing
import Johnny.Worker.HalfClose
import Johnny.Worker.Headers
import Johnny.Worker.Holdings
import Johnny.Worker.LastCalls
import Johnny.Worker.Layouts
import Johnny.Worker.LifeCycle
import Johnny.Worker.LiveContexts
import Johnny.Worker.Operations
import Johnny.Worker.OrderlyClose
import Johnny.Worker.Parsing
import Johnny.Worker.Phases
import Johnny.Worker.Progress
import Johnny.Worker.RequestStream
import Johnny.Worker.Requests
import Johnny.Worker.ResponseCursor
import Johnny.Worker.ResponseStream
import Johnny.Worker.Slots
import Johnny.Worker.Threads
import Johnny.Worker.Wakeups
