import NetBricks.Lib.Outcome
import NetBricks.Lib.Word
import NetBricks.Lib.Circular
import NetBricks.Lib.Machine
import NetBricks.Common
import NetBricks.State.RingBuffer
import NetBricks.State.RingFifo
import NetBricks.State.DpMergeable
import NetBricks.State.Mergeable
import NetBricks.Queues.Mpsc
import NetBricks.Queues.MpscInv
import NetBricks.Queues.MpscSafety
import NetBricks.State.ReorderedBuffer
import NetBricks.State.SegmentCover
import NetBricks.State.ReorderedStream
import NetBricks.State.ReorderedSafety
import NetBricks.Interface.Packet
import NetBricks.Interface.World
import NetBricks.Lib.Judgment
import NetBricks.Lib.RawVec
import NetBricks.Operators.PacketBatch
import NetBricks.Operators.Batch
import NetBricks.Operators.Iteration
import NetBricks.Operators.Ownership
import NetBricks.Operators.Denotation
import NetBricks.Queues.MpscProducer
import NetBricks.Operators.GroupBy
import NetBricks.State.CpMergeable
import NetBricks.State.ReorderedFifo
import NetBricks.Queues.MpscFifo
import NetBricks.Headers.Ip
import NetBricks.Headers.IpLayout
import NetBricks.Utils.FlowBytes
import NetBricks.Lib.Scatter
import NetBricks.Utils.FlowStamp
import NetBricks.Lib.OnesComplement
import NetBricks.Utils.FlowChecksum
import NetBricks.Headers.IpFlow
import NetBricks.Interface.Frame
import NetBricks.Headers.HeaderType
import NetBricks.Headers.Chain
import NetBricks.Lib.WireFields
import NetBricks.Headers.TcpFields
import NetBricks.Headers.Vlan
import NetBricks.Utils.Ipv4Prefix
import NetBricks.Interface.Metadata
import NetBricks.Interface.Payload
import NetBricks.Operators.RestoreHeader
import NetBricks.Operators.Handover
import NetBricks.Lib.Recoding
import NetBricks.State.SegmentMirror
import NetBricks.State.RingMirror
import NetBricks.State.ReorderedMirror
import NetBricks.State.ReorderedShift
import NetBricks.State.ReorderedRing
import NetBricks.State.ReorderedReset
import NetBricks.State.ReorderedSync
import NetBricks.Lib.PostOrder
import NetBricks.Lib.Traced
import NetBricks.Scheduler.Embedded
import NetBricks.Scheduler.Standalone
import NetBricks.Scheduler.StandaloneRuns
import NetBricks.Lib.SortDedup
import NetBricks.Lib.Turns
import NetBricks.Operators.MergeBatch
import NetBricks.Interface.HeaderStack
import NetBricks.Lib.Handles
import NetBricks.State.ClonedHandles
import NetBricks.State.MergeableSizes
import NetBricks.Lib.Ranges
import NetBricks.State.SegmentRanges
import NetBricks.State.SegmentTidy
import NetBricks.State.SegmentStray
import NetBricks.State.SegmentUnion
import NetBricks.State.ReorderedNoTrace
import NetBricks.Operators.BatchDrops
import NetBricks.Operators.BatchLedger
import NetBricks.State.RingPlacement
import NetBricks.State.ReorderedReport
import NetBricks.Lib.SerialRanges
import NetBricks.State.SegmentConsume
import NetBricks.State.ReorderedConsume
import NetBricks.Control.Epoll
import NetBricks.Nf.LpmRounds
import NetBricks.Nf.LpmBlocks
import NetBricks.Nf.Maglev
import NetBricks.Nf.AddressTranslation
import NetBricks.SharedState.Pages
import NetBricks.SharedState.Directory
import NetBricks.Interface.PmdPort
import NetBricks.Config.Faithful
import NetBricks.Scheduler.Context
import NetBricks.Utils.Rounding
import NetBricks.Lib.FixedWidth
import NetBricks.Lib.Window
import NetBricks.Native.MBuf
import NetBricks.Native.Mempool
import NetBricks.Operators.BatchAlloc
import NetBricks.State.SegmentMerge
import NetBricks.Lib.DoublyLinked
import NetBricks.State.SegmentLinks
import NetBricks.State.SegmentWellFormed
import NetBricks.Nf.AclFw
import NetBricks.Nf.TcpPayload
