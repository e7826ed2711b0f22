import CBase.Info
import CBase.Lib.Run
import CBase.Lib.Memory
import CBase.Lib.RingBuffer
import CBase.Lib.Fifo
import CBase.Lib.LinkedHeap
import CBase.Lib.LinkedLoops
import CBase.Lib.LinkedLists
import CBase.Lib.Align
import CBase.Lib.Extent
import CBase.Lib.LittleEndian
import CBase.Lib.Blocks
import CBase.Arena.Zipper
import CBase.Arena.Regions
import CBase.Arena.Retention
import CBase.Arena.Replay
import CBase.Arena.Bounds
import CBase.Arena.Alignment
import CBase.Bytes.Buffers
import CBase.Bytes.Codec
import CBase.Bytes.Writing
import CBase.Bytes.Reading
import CBase.Sha256.Hash
import CBase.Sha256.Stream
import CBase.Sha256.Hmac
import CBase.Lib.Assoc
import CBase.Lib.Decimal
import CBase.Lib.Cursor
import CBase.Lib.Lcg
import CBase.Lib.MachineInt
import CBase.Lib.Mailbox
import CBase.Random.Pcg
import CBase.Lib.Parity
import CBase.Lib.Rejection
import CBase.Random.Bounded
import CBase.Random.Streams
import CBase.Lib.FisherYates
import CBase.Random.Shuffle
import CBase.Time.TickLoop
import CBase.Time.TickRate
import CBase.Lib.SquareRoot
import CBase.Fixed.Arith
import CBase.Fixed.Narrow
import CBase.Fixed.Mul
import CBase.Fixed.Lerp
import CBase.Fixed.Roots
import CBase.Lib.Limbs
import CBase.Fixed.SqrtMsvc
import CBase.Fixed.AddDivMsvc
import CBase.Lib.Octants
import CBase.Fixed.Atan2
import CBase.NetSim.Net
import CBase.NetSim.View
import CBase.NetSim.Calls
import CBase.NetSim.Delivery
import CBase.NetSim.Rolls
import CBase.NetSim.Integrity
import CBase.NetSim.Order
import CBase.NetSim.Accounts
import CBase.NetSim.QueueCap
import CBase.NetSim.FailedSend
import CBase.NetSim.Window
import CBase.NetSim.Statistics
import CBase.Lib.Projection
import CBase.NetSim.Replay
import CBase.Config.Entries
import CBase.Config.Grammar
import CBase.Config.Scanner
import CBase.Config.Store
import CBase.Config.Parse
import CBase.Config.Integers
import CBase.Config.EmbeddedNul
import CBase.Log.SinkLifetime
import CBase.Log.Line
import CBase.Queue.Fifo
import CBase.Lib.Wakeups
import CBase.Queue.Wakeups
import CBase.Lib.BitMix
import CBase.Random.Period
import CBase.Lib.MerkleDamgard
import CBase.Sha256.Collision
import CBase.Lib.QuarterWave
import CBase.Fixed.Sine
import CBase.Lib.TableAccuracy
import CBase.Lib.Rotation
import CBase.Fixed.SineAccuracy
import CBase.Lib.Arctangent
import CBase.Fixed.Atan2Accuracy
import CBase.Network.Socket
import CBase.Network.Descriptors
import CBase.Lib.DelayLine
import CBase.Lib.Machine
import CBase.Transport.Transport
import CBase.Transport.Lines
import CBase.Transport.Ideal
import CBase.Transport.Arrival
import CBase.Lib.Ranking
import CBase.Lib.Pool
import CBase.Queue.Phases
import CBase.Producer.App
import CBase.Producer.Shutdown
import CBase.Producer.Progress
import CBase.Config.Buffers
import CBase.Config.Ledger
import CBase.Lib.LinkedShape
import CBase.NetSim.Memory
