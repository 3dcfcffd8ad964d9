import Laconic.Lib.Checked
import Laconic.Lib.Block
import Laconic.Lib.Chain
import Laconic.Lib.Csr
import Laconic.Lib.Levels
import Laconic.Lib.Neighbour
import Laconic.Lib.Probing
import Laconic.Lib.Splice
import Laconic.Lib.Slp
import Laconic.Lib.PairScan
import Laconic.Lib.PairTurn
import Laconic.Lib.TrueDiv
import Laconic.Lib.LittleEndian
import Laconic.Lib.SlpSum
import Laconic.Lib.Propagate
import Laconic.Lib.Threads
import Laconic.Lib.Mutex
import Laconic.Grammar
import Laconic.RePair.Basics
import Laconic.RePair.Hash
import Laconic.RePair.Heap
import Laconic.RePair.Records
import Laconic.RePair.Compress
import Laconic.RePair.CompressCsr
import Laconic.RePair.HashInv
import Laconic.RePair.HeapInv
import Laconic.RePair.OccOps
import Laconic.RePair.Representation
import Laconic.RePair.RoundTrip
import Laconic.RePair.Shape
import Laconic.RePair.Greedy
import Laconic.Filter.Model
import Laconic.Filter.Preserve
import Laconic.Filter.Agree
import Laconic.Filter.Complete
import Laconic.Filter.Exact
import Laconic.Graph.Check
import Laconic.Graph.SelfLoopCoo
import Laconic.Graph.Splice
import Laconic.Graph.Reorder
import Laconic.Graph.ReadFile
import Laconic.Graph.CheckCoo
import Laconic.DepthFilter.Transpose
import Laconic.RePair.Calls
import Laconic.RePair.DeletionMarks
import Laconic.Graph.Norm
import Laconic.Graph.VertexOrder
import Laconic.Graph.CscOrder
import Laconic.DepthFilter.Preserve
import Laconic.Graph.FusionProgress
import Laconic.Serial.Partition
import Laconic.Serial.MergeRun
import Laconic.Serial.Pipeline
import Laconic.Parallel.Model
import Laconic.Parallel.Collect
import Laconic.Parallel.Split
import Laconic.Parallel.FirstTurn
import Laconic.Parallel.Ids
import Laconic.Parallel.Rewrite
import Laconic.Parallel.Check
import Laconic.Parallel.Phases
import Laconic.Filter.Closed
import Laconic.Graph.Masks
import Laconic.Graph.Propagate
import Laconic.Graph.ReorderGrammar
import Laconic.Graph.ConvertThreads
import Laconic.Graph.OutDegree
import Laconic.Graph.WriteFile
import Laconic.Serial.Files
import Laconic.Serial.Drivers
