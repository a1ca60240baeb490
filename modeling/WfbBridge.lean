import WfbBridge.ActivePorts
import WfbBridge.Block
import WfbBridge.Bridge.Channel
import WfbBridge.Bridge.Congestion
import WfbBridge.Bridge.Delivery
import WfbBridge.Bridge.Eventually
import WfbBridge.Bridge.Link
import WfbBridge.Bridge.Links
import WfbBridge.Bridge.Lossy
import WfbBridge.Bridge.Pipeline
import WfbBridge.Bridge.Recovery
import WfbBridge.Bridge.Refinement
import WfbBridge.Bridge.Rest
import WfbBridge.Bridge.Resync
import WfbBridge.Bridge.Threads
import WfbBridge.Bridge.Totals
import WfbBridge.Bridge.Tun
import WfbBridge.Decoder.Basic
import WfbBridge.Decoder.Buffers
import WfbBridge.Decoder.Counters
import WfbBridge.Decoder.Delivery
import WfbBridge.Decoder.Integrity
import WfbBridge.Decoder.Limits
import WfbBridge.Decoder.Losses
import WfbBridge.Decoder.OutputLength
import WfbBridge.Decoder.Phase
import WfbBridge.Decoder.PlainLosses
import WfbBridge.Decoder.Prompt
import WfbBridge.Decoder.Rebuild
import WfbBridge.Decoder.Recovery
import WfbBridge.Decoder.Repeats
import WfbBridge.Decoder.Safety
import WfbBridge.Decoder.SequenceCount
import WfbBridge.Decoder.Stream
import WfbBridge.Decoder.Unrecovered
import WfbBridge.Decoder.WorkingSet
import WfbBridge.DeviceLoop
import WfbBridge.DeviceMode
import WfbBridge.Encoder.Basic
import WfbBridge.Encoder.Batch
import WfbBridge.Encoder.Batches
import WfbBridge.Encoder.Buffer
import WfbBridge.Encoder.Format
import WfbBridge.Encoder.Plain
import WfbBridge.Fec.Arith
import WfbBridge.Fec.Code
import WfbBridge.Fec.InvertMat
import WfbBridge.Fec.Recover
import WfbBridge.Gf.Field
import WfbBridge.Gf.Tables
import WfbBridge.Library.Cauchy
import WfbBridge.Library.Checked
import WfbBridge.Library.Drops
import WfbBridge.Library.Exchange
import WfbBridge.Library.Forall2
import WfbBridge.Library.Istream
import WfbBridge.Library.Loop
import WfbBridge.Library.Pool
import WfbBridge.Library.Run
import WfbBridge.Library.Settle
import WfbBridge.Library.SortedMap
import WfbBridge.LogThread
import WfbBridge.Radio.Bounds
import WfbBridge.Radio.Frequency
import WfbBridge.Radio.Iterator
import WfbBridge.Radio.Latency
import WfbBridge.Radio.Radiotap
import WfbBridge.Radio.RadiotapLayout
import WfbBridge.Radio.Receive
import WfbBridge.Radio.Relay
import WfbBridge.Radio.Rssi
import WfbBridge.Radio.Send
import WfbBridge.Restart
import WfbBridge.RestartProgress
import WfbBridge.SharedQueue
import WfbBridge.TransferStats
import WfbBridge.Wire
