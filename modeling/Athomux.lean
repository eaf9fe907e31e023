import Athomux.Lib.Run
import Athomux.Lib.Ring
import Athomux.Lib.Links
import Athomux.Args
import Athomux.Pipe.Spec
import Athomux.Pipe.Proofs
import Athomux.Queue.Spec
import Athomux.Queue.Proofs
import Athomux.LockNative.Words
import Athomux.LockType
import Athomux.LockList.Spec
import Athomux.LockList.Rep
import Athomux.LockList.Cut
import Athomux.LockList.Proofs
import Athomux.LockList.Natives
import Athomux.LockMutex.Spec
import Athomux.LockMutex.Proofs
import Athomux.LockMutex.Stack
import Athomux.LockMutex.Balance
import Athomux.LockMelt.Spec
import Athomux.LockMelt.Inv
import Athomux.LockMelt.Loop
import Athomux.LockMelt.Run
import Athomux.LockMelt.First
import Athomux.LockMelt.Remove
import Athomux.LockMelt.Safety
import Athomux.LockCache.Spec
import Athomux.LockCache.Melt
import Athomux.LockCache.Steps
import Athomux.LockCache.InFlight
import Athomux.LockCache.Exclusion
import Athomux.LockCache.Ownership
import Athomux.LockCache.WellFormed
import Athomux.LockMand.Spec
import Athomux.LockMand.Melt
import Athomux.LockMand.Exclusion
import Athomux.Lib.Holdings
import Athomux.LockUlinux.Spec
import Athomux.LockUlinux.Proofs
import Athomux.Lib.Arrays
import Athomux.MapDummy.Spec
import Athomux.MapDummy.Permutation
import Athomux.MapDummy.Move
import Athomux.Heap.Spec
import Athomux.Heap.Proofs
import Athomux.Heap.Safety
import Athomux.Lib.ByteMem
import Athomux.PacketStream.Spec
import Athomux.PacketStream.Proofs
import Athomux.PacketStream.RoundTrip
import Athomux.LockProtect.Spec
import Athomux.LockProtect.Proofs
import Athomux.Lib.Regions
import Athomux.Lib.PartialStore
import Athomux.Lib.ByteStore
import Athomux.DirSimple.Spec
import Athomux.DirSimple.Layout
import Athomux.DirSimple.Length
import Athomux.DirSimple.Names
import Athomux.DirSimple.Isolation
import Athomux.Lib.Filed
import Athomux.FsSimple.Spec
import Athomux.FsSimple.Proofs
import Athomux.FsSimple.Hashes
import Athomux.FsSimple.PathSteps
import Athomux.DeviceMem.Spec
import Athomux.DeviceMem.Proofs
import Athomux.DefaultOps.Spec
import Athomux.DefaultOps.Proofs
import Athomux.Remote.Spec
import Athomux.Remote.Bounds
import Athomux.Remote.RoundTrip
import Athomux.Lib.Ledger
import Athomux.PtrCache.Spec
import Athomux.PtrCache.Proofs
import Athomux.PtrCache.Balance
import Athomux.PtrCache.Coherence
import Athomux.PtrCache.Masks
import Athomux.CopyOnWrite.Spec
import Athomux.CopyOnWrite.Proofs
import Athomux.CopyOnWrite.Privacy
import Athomux.Lib.Segments
import Athomux.Lib.Sorted
import Athomux.IoQueue.Spec
import Athomux.IoQueue.Storage
import Athomux.IoSched.Elevator
import Athomux.IoSched.Order
import Athomux.IoSched.Search
import Athomux.IoSched.Sides
import Athomux.LockUlinux.Cells
import Athomux.Multiplex.Spec
import Athomux.Multiplex.Delivery
import Athomux.BinStrat.Spec
import Athomux.BinStrat.Print
import Athomux.BinStrat.RoundTrip
import Athomux.BinStrat.Logaddr
import Athomux.BinStrat.Shape
import Athomux.BinStrat.Contract
import Athomux.BinStrat.Flags
import Athomux.Lib.Footprint
import Athomux.Nest.Window
import Athomux.MapSplit.Isolation
import Athomux.MapSelect.Inside
import Athomux.Lib.LinkedRing
import Athomux.RingList.Spec
import Athomux.RingList.View
import Athomux.RingList.Fetch
import Athomux.RingList.Refine
import Athomux.RingList.Contract
import Athomux.Lib.Elimination
import Athomux.NetTransparent.Removal
import Athomux.Elf.Spec
import Athomux.Elf.Tables
import Athomux.Elf.Regular
import Athomux.Pre.InForce
import Athomux.Pre.Dispatch
import Athomux.Pre.Forward
import Athomux.Pre.Types
import Athomux.Pre.Layout
import Athomux.Pre.TypeTables
import Athomux.Pre.Macros
import Athomux.Pre.Capture
import Athomux.StratNative.Spec
import Athomux.StratNative.Tables
import Athomux.NetConnect.Params
import Athomux.NetConnect.Merge
import Athomux.NetConnect.Rewire
import Athomux.NetConnect.Moves
import Athomux.NetConnect.Groups
import Athomux.NetConnect.Merging
import Athomux.StratText.Reader
import Athomux.StratText.Walk
import Athomux.StratText.Memory
import Athomux.StratMerge.Spec
import Athomux.StratMerge.Balance
import Athomux.NetConnect.Memory
import Athomux.NetConnect.Balance
import Athomux.StratText.Balance
import Athomux.LockMelt.Removal
import Athomux.LockCache.Unlock
import Athomux.LockCache.Cut
import Athomux.LockUlinux.Sleepers
import Athomux.LockMelt.Exact
import Athomux.LockMelt.Strength
import Athomux.LockCache.Pointwise
import Athomux.LockMand.Pointwise
import Athomux.Lib.RoundRobin
import Athomux.X86Tasks.Spec
import Athomux.X86Tasks.Ring
import Athomux.X86Tasks.Steps
import Athomux.X86Tasks.Rounds
import Athomux.X86Tasks.ExecStack
import Athomux.LockCache.Place
import Athomux.Keyboard.Proofs
import Athomux.AdaptStrmw.Balance
import Athomux.FileSyscalls.ReadWrite
import Athomux.LockNative.Slots
import Athomux.MapDelta.Isect
import Athomux.MapDelta.Translation
import Athomux.MapDelta.Tiling
import Athomux.LockUlinux.Unlock
import Athomux.LockMutex.Counting
import Athomux.MapDummy.Indices
import Athomux.MapDummy.Variants
import Athomux.Heap.Padr
import Athomux.LockCache.Failure
import Athomux.MapDelta.Pieces
import Athomux.MapDelta.Merge
import Athomux.RingList.Blocks
import Athomux.RingList.BlockRing
import Athomux.RingList.RemoveIsect
import Athomux.LrpcServer.Spec
import Athomux.LrpcServer.Marshal
import Athomux.AdaptComplete.Spec
import Athomux.AdaptComplete.Loop
import Athomux.AdaptLimit.Requests
import Athomux.AdaptStrmr.Spec
import Athomux.AdaptStrmr.Order
import Athomux.Heap.Failure
import Athomux.AdaptMeta.Spec
import Athomux.AdaptMeta.Sections
import Athomux.Params.Inside
import Athomux.Params.Lookup
import Athomux.StratMerge.Routing
import Athomux.Lib.Malloc
import Athomux.ControlSimple.Spec
import Athomux.ControlSimple.Atomic
import Athomux.ControlSimple.TypeConnect
import Athomux.ControlSimple.Lookup
import Athomux.ProcessImage.Inside
import Athomux.AthStdio.Spec
import Athomux.AthStdio.Bounds
import Athomux.Strat.Scan
import Athomux.Strat.Inside
import Athomux.Strat.Connector
