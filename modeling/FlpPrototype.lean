import FlpPrototype.Lib.Ring
import FlpPrototype.Lib.CInt
import FlpPrototype.Lib.Bytes
import FlpPrototype.Lib.Run
import FlpPrototype.Lib.Lines
import FlpPrototype.Lib.CString
import FlpPrototype.Lib.Decimal
import FlpPrototype.Lib.Places
import FlpPrototype.Lib.Turns
import FlpPrototype.Lib.Agree
import FlpPrototype.Lib.Promise
import FlpPrototype.Lib.ByteMemory
import FlpPrototype.Lib.FixedWidth
import FlpPrototype.Lib.Answers
import FlpPrototype.Lib.Scan
import FlpPrototype.PermFifo.Table
import FlpPrototype.PermFifo.Format
import FlpPrototype.PermFifo.Clean
import FlpPrototype.PermFifo.Fifo
import FlpPrototype.PermFifo.CleanCrash
import FlpPrototype.PermFifo.Loops
import FlpPrototype.PermFifo.Invariant
import FlpPrototype.PermFifo.Operations
import FlpPrototype.PermFifo.Consume
import FlpPrototype.PermFifo.Session
import FlpPrototype.PermFifo.Delivery
import FlpPrototype.PermFifo.Torn
import FlpPrototype.PermFifo.Restart
import FlpPrototype.PermFifo.CrashSave
import FlpPrototype.PermFifo.Reach
import FlpPrototype.PermFifo.FailedWrite
import FlpPrototype.Message.Protocol
import FlpPrototype.Message.Encode
import FlpPrototype.Message.Record
import FlpPrototype.Message.Decode
import FlpPrototype.Message.RoundTrip
import FlpPrototype.Message.Memory
import FlpPrototype.Message.Truncate
import FlpPrototype.Message.Versions
import FlpPrototype.Message.WellFormed
import FlpPrototype.InfoLoggerD.Framing
import FlpPrototype.InfoLoggerD.DispatchBrowser
import FlpPrototype.InfoLoggerD.Dispatch
import FlpPrototype.InfoLoggerD.ServerLoop
import FlpPrototype.InfoLoggerD.ServerRuns
import FlpPrototype.InfoLoggerD.DispatchSQL
import FlpPrototype.Rorc.SuperpageQueue
import FlpPrototype.Rorc.SuperpageRuns
import FlpPrototype.Rorc.CrorcDmaChannel
import FlpPrototype.Rorc.CrorcInvariant
import FlpPrototype.Rorc.CrorcSteps
import FlpPrototype.Rorc.CrorcRuns
import FlpPrototype.Rorc.DmaBench
import FlpPrototype.Rorc.DmaBenchRuns
import FlpPrototype.Rorc.BusAddress
import FlpPrototype.Rorc.CrorcTrace
import FlpPrototype.Rorc.CrorcAddresses
import FlpPrototype.Rorc.CrorcTickets
import FlpPrototype.Rorc.CrorcArrivals
import FlpPrototype.Rorc.CrorcPages
import FlpPrototype.Rorc.CruDmaChannel
import FlpPrototype.Rorc.CruRuns
import FlpPrototype.Rorc.DmaTargets
import FlpPrototype.Rorc.CruCounters
import FlpPrototype.Rorc.PushSuperpage
import FlpPrototype.Rorc.PdaBar
import FlpPrototype.Rorc.LinkMask
import FlpPrototype.Rorc.DmaBenchCheck
import FlpPrototype.Common.Fifo
import FlpPrototype.Common.FifoRuns
import FlpPrototype.Common.FifoClear
import FlpPrototype.Common.FifoCalls
import FlpPrototype.Common.SuffixNumber
import FlpPrototype.Common.LineBuffer
import FlpPrototype.Utility.Fifo
import FlpPrototype.Utility.LineBuffer
import FlpPrototype.MemPool.Pool
import FlpPrototype.MemPool.Alone
import FlpPrototype.MemPool.Ownership
import FlpPrototype.MemPool.Scan
import FlpPrototype.Readout.Aggregator
import FlpPrototype.Readout.AggregatorRuns
import FlpPrototype.Readout.AggregatorMin
import FlpPrototype.Readout.AggregatorTimer
import FlpPrototype.Readout.RorcPages
import FlpPrototype.Readout.RorcConserved
import FlpPrototype.Readout.MemoryHandler
import FlpPrototype.Readout.ConsumerDataChecker
import FlpPrototype.Readout.FileRecorder
import FlpPrototype.Transport.Files
import FlpPrototype.Transport.Client
import FlpPrototype.Transport.ClientWire
import FlpPrototype.Transport.ClientAcks
import FlpPrototype.Transport.Server
import FlpPrototype.Transport.Connections
import FlpPrototype.Transport.Messages
import FlpPrototype.Transport.Proxy
import FlpPrototype.Transport.Reception
import FlpPrototype.Control.Commands
import FlpPrototype.Control.HandOff
import FlpPrototype.Control.Lifecycle
import FlpPrototype.Control.System
import FlpPrototype.Control.Handled
import FlpPrototype.Control.Watch
import FlpPrototype.Control.Delivery
import FlpPrototype.Alf.Publish
import FlpPrototype.QualityControl.ObjectsQueue
import FlpPrototype.QualityControl.Statement
import FlpPrototype.Transport.System
import FlpPrototype.Transport.SystemLinks
import FlpPrototype.Transport.SystemAcks
import FlpPrototype.Transport.EndToEnd
import FlpPrototype.Transport.MessagesEndToEnd
import FlpPrototype.Transport.FirstReceipt
import FlpPrototype.InfoLoggerD.Chain
import FlpPrototype.InfoLoggerD.Daemon
import FlpPrototype.Message.Log
import FlpPrototype.InfoLoggerD.Logging
import FlpPrototype.InfoLoggerD.Programs
