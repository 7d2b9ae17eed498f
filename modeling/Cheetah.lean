import Cheetah.Lib.Splits
import Cheetah.Lib.Pruning
import Cheetah.Lib.History
import Cheetah.Lib.Maxima
import Cheetah.Lib.Ascending
import Cheetah.Lib.Records
import Cheetah.Lib.Largest
import Cheetah.Lib.Distinct
import Cheetah.Lib.Recency
import Cheetah.Lib.Buffer
import Cheetah.Lib.Insertion
import Cheetah.Lib.ChainedTable
import Cheetah.Lib.Release
import Cheetah.Lib.Loop
import Cheetah.Lib.Transition
import Cheetah.Lib.Bytes
import Cheetah.Lib.BitFields
import Cheetah.Lib.SharedQueue
import Cheetah.Lib.CString
import Cheetah.Lib.Scanf
import Cheetah.Lib.Decimal
import Cheetah.DataPlane.Tofino
import Cheetah.DataPlane.Groupby
import Cheetah.DataPlane.GroupbySketch
import Cheetah.DataPlane.GroupbyCoverage
import Cheetah.DataPlane.Distinct
import Cheetah.DataPlane.DistinctCache
import Cheetah.DataPlane.DistinctMarks
import Cheetah.DataPlane.DistinctPairs
import Cheetah.DataPlane.DistinctLru
import Cheetah.DataPlane.Skyline
import Cheetah.DataPlane.SkylineBest
import Cheetah.DataPlane.Topn
import Cheetah.DataPlane.Join
import Cheetah.DataPlane.JoinFilters
import Cheetah.DataPlane.Extract
import Cheetah.DataPlane.Filtering
import Cheetah.Host.Mbuf
import Cheetah.Host.PacketCrafter
import Cheetah.Host.FastPacketStream
import Cheetah.Host.FastPacketSend
import Cheetah.Host.MemorySim
import Cheetah.Host.ControlFlow
import Cheetah.Host.PartialSend
import Cheetah.Host.PacketCodec
import Cheetah.Host.PacketHeaders
import Cheetah.Host.PacketBatch
import Cheetah.Host.PacketTrim
import Cheetah.Host.PacketStream
import Cheetah.Host.InFlight
import Cheetah.Host.FieldStores
import Cheetah.Host.SendBursts
import Cheetah.Host.WireFrames
import Cheetah.Host.StreamReceiver
import Cheetah.Host.ControlMessage
import Cheetah.Host.ControlLinks
import Cheetah.Host.DatasetLoad
import Cheetah.Host.DatasetText
import Cheetah.Host.Hsearch
import Cheetah.Host.TopnStore
import Cheetah.Host.GroupbyStore
import Cheetah.Host.DistinctStore
import Cheetah.Host.StoreCapacity
import Cheetah.Host.StackKeys
import Cheetah.Host.Teardown
import Cheetah.Host.JoinOutput
import Cheetah.Host.Join
import Cheetah.Host.JoinBins
import Cheetah.Host.Master
import Cheetah.Query.WireFormat
import Cheetah.Query.Frames
import Cheetah.Query.Groupby
import Cheetah.Query.Distinct
import Cheetah.Query.DistinctOrder
import Cheetah.Query.Topn
import Cheetah.Query.TopnOrder
import Cheetah.Query.Join
import Cheetah.Query.JoinOrder
import Cheetah.System.Protocol
import Cheetah.System.Deployment
import Cheetah.System.Conservation
import Cheetah.System.Rows
import Cheetah.System.ControlPlane
import Cheetah.System.Completion
import Cheetah.System.GroupbyAnswer
import Cheetah.System.FilterAnswer
import Cheetah.System.TopnAnswer
import Cheetah.System.SkylineAnswer
import Cheetah.System.DistinctAnswer
import Cheetah.System.JoinAnswer
import Cheetah.System.Outcomes
import Cheetah.System.Workload
import Cheetah.System.Schedules
