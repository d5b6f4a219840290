import PathOram.AcceptedIds
import PathOram.Access
import PathOram.Bandwidth
import PathOram.Batches
import PathOram.Batching
import PathOram.BlockIds
import PathOram.BulkLoad
import PathOram.CacheSpec
import PathOram.Calls
import PathOram.Checks
import PathOram.Codec
import PathOram.Correctness
import PathOram.DefaultOram
import PathOram.Definitions
import PathOram.Events
import PathOram.Eviction
import PathOram.Failures
import PathOram.FileSystem
import PathOram.Frame
import PathOram.Guards
import PathOram.InMemory
import PathOram.InnerRequests
import PathOram.Interruption
import PathOram.Invariant
import PathOram.LeafRanges
import PathOram.Lib.BlockModes
import PathOram.Lib.Bytes
import PathOram.Lib.Crowds
import PathOram.Lib.Crowns
import PathOram.Lib.Draws
import PathOram.Lib.Greedy
import PathOram.Lib.Lockstep
import PathOram.Lib.Prog
import PathOram.Lib.Redraw
import PathOram.Lib.Rehearsal
import PathOram.Lib.Shadow
import PathOram.Lib.Shuffle
import PathOram.Lib.Simulation
import PathOram.Lib.Survivors
import PathOram.Lib.Tree
import PathOram.Lib.UnorderedMap
import PathOram.Load
import PathOram.LoadTrace
import PathOram.Obliviousness
import PathOram.Observer
import PathOram.Optimality
import PathOram.Oram
import PathOram.OramPositionMap
import PathOram.Outline
import PathOram.Overflow
import PathOram.Packing
import PathOram.Payloads
import PathOram.Persistence
import PathOram.PositionMapAdapter
import PathOram.PositionMapSpec
import PathOram.Providers
import PathOram.Recursion
import PathOram.Rejection
import PathOram.Restart
import PathOram.Runs
import PathOram.Sampling
import PathOram.Shuffling
import PathOram.StashAdapter
import PathOram.StashCapacity
import PathOram.StashFiles
import PathOram.StashRoundTrip
import PathOram.StashSizing
import PathOram.StashTail
import PathOram.StorageAdapter
import PathOram.StorageSpec
import PathOram.Tapes
import PathOram.Texts
import PathOram.Trace
import PathOram.TreeSizes
import PathOram.Twins
import PathOram.Uniqueness
import PathOram.Uploads
import PathOram.Utility
import PathOram.View
import PathOram.WriteBack
