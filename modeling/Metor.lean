import Metor.Proof.Arrow.Export
import Metor.Proof.CancelToken
import Metor.Proof.Client
import Metor.Proof.Component.Order
import Metor.Proof.Db.Atomic
import Metor.Proof.Db.Sink
import Metor.Proof.Disruptor.InRange
import Metor.Proof.Disruptor.Lossless
import Metor.Proof.Editor.Packets
import Metor.Proof.Editor.Replies
import Metor.Proof.Eql.Elements
import Metor.Proof.Eql.Names
import Metor.Proof.Eql.Reads
import Metor.Proof.Fft
import Metor.Proof.FieldTable.BitVec
import Metor.Proof.FieldTable.Contents
import Metor.Proof.FixedRate.Scrub
import Metor.Proof.FixedStream.Decode
import Metor.Proof.Frame.Chunks
import Metor.Proof.Frame.Returns
import Metor.Proof.Framing
import Metor.Proof.GetTimeSeries
import Metor.Proof.IoBuf
import Metor.Proof.MsgLog.GetMsgs
import Metor.Proof.MsgLog.Sorted
import Metor.Proof.MsgLog.Storage
import Metor.Proof.MsgStream
import Metor.Proof.Nox.Broadcast
import Metor.Proof.Nox.Concat
import Metor.Proof.Nox.Map
import Metor.Proof.Nox.Storage
import Metor.Proof.OwnedTimeSeries
import Metor.Proof.Packet
import Metor.Proof.Plot.Collect
import Metor.Proof.Plot.History
import Metor.Proof.Plot.Indices
import Metor.Proof.Plot.Leaks
import Metor.Proof.Polling
import Metor.Proof.Postcard.Clean
import Metor.Proof.RangeQuery
import Metor.Proof.RealTime
import Metor.Proof.Stages.ExactMean
import Metor.Proof.Stages.Meaning
import Metor.Proof.Streams
import Metor.Proof.Task.Asserts
import Metor.Proof.Task.Runs
import Metor.Proof.TimeBounds
import Metor.Proof.TimeSeries.Nearest
import Metor.Proof.TimeSeries.Push
import Metor.Proof.TimeSeries.Range
import Metor.Proof.TimeSeries.Reopen
import Metor.Proof.Timeout
import Metor.Proof.Timer.Advance
import Metor.Proof.Timer.Alarms
import Metor.Proof.Timer.Rotation
import Metor.Proof.UringOps
import Metor.Proof.VTable.Agree
import Metor.Proof.VTable.Terminates
import Metor.Proof.Visitor.Describes
import Metor.Proof.WaitQueue.Users
