import Rant.Lib.Run
import Rant.Lib.Tiling
import Rant.Lib.Ring
import Rant.Lib.Fragment
import Rant.Lib.Endian
import Rant.Transport.Types
import Rant.Transport.Writer
import Rant.Transport.Reader
import Rant.Transport.ReaderInv
import Rant.Transport.ReaderStep
import Rant.Transport.WriterInv
import Rant.Transport.Link
import Rant.Transport.Join
import Rant.Serialize.Types
import Rant.Serialize.Compile
import Rant.Serialize.Message
import Rant.Serialize.Layout
import Rant.Serialize.Place
import Rant.Serialize.Table
import Rant.Serialize.Read
import Rant.Serialize.Path
import Rant.Serialize.Accept
import Rant.Serialize.Match
import Rant.Serialize.Twin
import Rant.Serialize.Mirror
import Rant.Serialize.Rebase
import Rant.Serialize.Evolve
import Rant.Serialize.Evolution
import Rant.Lib.Sort
import Rant.Transport.Topics
import Rant.Transport.Interest
import Rant.Lib.Bitmap
import Rant.Transport.Want
import Rant.Transport.Meets
import Rant.Transport.WantFilter
import Rant.Discovery.Records
import Rant.Discovery.Store
import Rant.Discovery.DueQueue
import Rant.Discovery.Core
import Rant.Discovery.Handlers
import Rant.Discovery.Life
import Rant.Discovery.Writes
import Rant.Discovery.Moves
import Rant.Discovery.Quiet
import Rant.Discovery.Walk
import Rant.Discovery.Steps
import Rant.Discovery.Hooks
import Rant.Discovery.Judges
import Rant.Discovery.Wrap
import Rant.Discovery.Deadlines
import Rant.Discovery.Edits
import Rant.Lib.Window
import Rant.Transport.Nack
import Rant.Transport.Table
import Rant.Shm.Chunk
import Rant.Patterns.Variable
import Rant.Patterns.Owner
import Rant.Patterns.Accessor
import Rant.Transport.Directed
import Rant.Patterns.Requests
import Rant.Patterns.DirectedCalls
import Rant.Patterns.RequestChannel
import Rant.Patterns.DirectedRuns
import Rant.Common.Clients
import Rant.Patterns.Defers
import Rant.Transport.DetailCodec
import Rant.Node.Paging
import Rant.Node.Assembly
import Rant.Lib.Keyed
import Rant.Node.SchemaGate
import Rant.Node.Admitted
import Rant.Transport.ReaderLane
import Rant.Transport.ReaderSlots
import Rant.Transport.NackEmit
import Rant.Transport.AckTiming
import Rant.Transport.Reassembly
import Rant.Transport.InterestCodec
import Rant.Transport.DetailExchange
import Rant.Transport.PeerVerdicts
import Rant.Transport.Rematch
import Rant.Transport.InterestApply
import Rant.Transport.StampFlags
import Rant.Transport.DetailRounds
import Rant.Lib.Tally
import Rant.Transport.Unresolved
import Rant.Node.Unresolved
import Rant.Node.ShmSend
import Rant.Serialize.Names
import Rant.Serialize.Grammar
import Rant.Serialize.WireTree
import Rant.Serialize.Canonical
import Rant.Serialize.Emit
import Rant.Serialize.Flat
import Rant.Serialize.PlaceTree
import Rant.Serialize.DefaultTree
import Rant.Serialize.WireCheck
import Rant.Serialize.Minimum
import Rant.Serialize.Default
import Rant.Serialize.DefaultRead
import Rant.Serialize.DefaultValue
import Rant.Serialize.Preorder
import Rant.Lib.Wp
import Rant.Serialize.Dsl
import Rant.Serialize.Registry
import Rant.Serialize.Atomic
import Rant.Serialize.EnumText
import Rant.Serialize.EnumRun
import Rant.Serialize.EnumSchema
import Rant.Serialize.EnumCompile
import Rant.Serialize.EnumExact
import Rant.Discovery.Codec
import Rant.Patterns.Reference
import Rant.Patterns.Answers
import Rant.Lib.Linked
import Rant.Patterns.Cancels
import Rant.Patterns.Reap
import Rant.Discovery.Targeted
import Rant.Discovery.Sources
import Rant.Patterns.Flushes
import Rant.Patterns.FlushRuns
import Rant.Node.PollWait
import Rant.Shm.Segment
import Rant.Common.Memory
import Rant.Common.Layout
import Rant.Common.Moves
import Rant.Common.Grants
import Rant.Common.MemoryRuns
import Rant.Common.Sound
import Rant.Common.Guard
import Rant.Node.Reflect
import Rant.Node.ReflectPick
import Rant.Node.ReflectFold
import Rant.Node.ReflectRuns
import Rant.Lib.Records
import Rant.Node.Queue
import Rant.Node.QueueLayout
import Rant.Node.QueuePush
import Rant.Node.Framing
import Rant.Node.QueueRuns
import Rant.Patterns.Headers
import Rant.Transport.Rtt
import Rant.Lib.Incremental
import Rant.Tunnel.Wire
import Rant.Tunnel.Client
import Rant.Tunnel.ClientRuns
import Rant.Tunnel.Bridge
import Rant.Tunnel.Streams
import Rant.Lib.Blocks
import Rant.Tunnel.Hash
import Rant.Tunnel.Digest
import Rant.Tunnel.Batches
import Rant.Tunnel.Inbox
import Rant.Tunnel.Datagrams
import Rant.Serialize.RowTable
import Rant.Transport.Datagram
