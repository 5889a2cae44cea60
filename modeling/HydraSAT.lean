import HydraSAT.Lib.Transition
import HydraSAT.Lib.Pool
import HydraSAT.Master.TaskManager
import HydraSAT.Master.Trackers
import HydraSAT.Lib.Decimal
import HydraSAT.Master.Server
import HydraSAT.Master.Ids
import HydraSAT.Master.Ledger
import HydraSAT.Master.Completion
import HydraSAT.Lib.Counting
import HydraSAT.Master.ModelCount
import HydraSAT.Lib.Scan
import HydraSAT.Worker.Parser
import HydraSAT.Worker.Solve
import HydraSAT.Master.Settlement
import HydraSAT.Lib.BinaryHeap
import HydraSAT.CubeGenerator.Threads
import HydraSAT.CubeGenerator.Blocking
import HydraSAT.CubeGenerator.Partition
import HydraSAT.CubeGenCli.Propagator
import HydraSAT.CubeGenCli.Generator
import HydraSAT.CubeGenCli.Partition
import HydraSAT.Cluster.Delivery
import HydraSAT.Master.Timeouts
import HydraSAT.Master.Bookkeeping
import HydraSAT.Master.Wakeup
import HydraSAT.Master.Broadcaster
import HydraSAT.Master.Streams
import HydraSAT.CubeGenCli.Watches
import HydraSAT.Cluster.Clients
import HydraSAT.Cluster.Agreement
import HydraSAT.Cluster.Cap
import HydraSAT.Cluster.Progress
import HydraSAT.Cluster.Origin
import HydraSAT.Master.Growth
import HydraSAT.Cluster.Capacity
import HydraSAT.Lib.Numeral
import HydraSAT.Lib.Words
import HydraSAT.Lib.DimacsText
import HydraSAT.Lib.InputStream
import HydraSAT.CubeGenCli.Reader
import HydraSAT.Master.CNFParser
import HydraSAT.CubeGenerator.Reader
import HydraSAT.Readers
import HydraSAT.Worker.Formula
import HydraSAT.Master.Batch
import HydraSAT.Lib.UnitClosure
import HydraSAT.CubeGenCli.Fixpoint
import HydraSAT.CubeGenCli.Reload
import HydraSAT.Lib.Frontier
import HydraSAT.CubeGenCli.Termination
import HydraSAT.Worker.Listener
import HydraSAT.Worker.Retry
import HydraSAT.Master.Branching
import HydraSAT.CubeGenCli.MinDegree
import HydraSAT.CubeGenCli.TrailVector
import HydraSAT.CubeGenCli.TrailCopies
import HydraSAT.Master.Labels
import HydraSAT.Cluster.EndToEnd
import HydraSAT.CubeGenCli.Output
import HydraSAT.CubeGenerator.Order
import HydraSAT.CubeGenerator.Reducer
import HydraSAT.CubeGenerator.ReducerPropagation
import HydraSAT.CubeGenerator.ReducerBuild
import HydraSAT.CubeGenerator.Assertions
import HydraSAT.CubeGenerator.Vendored
import HydraSAT.Master.ExactlyOnce
import HydraSAT.Master.Effort
import HydraSAT.Master.TimeoutBounds
import HydraSAT.Cluster.Finish
