import Holt.Journal.Durability
import Holt.Tree.WritesLinearizable
import Holt.Checkpoint.TruncationSafety
import Holt.Checkpoint.VersionTokens
import Holt.Tree.ListCoherenceSafety
import Holt.Store.ReadAccelerator
import Holt.Journal.RingStream
import Holt.Journal.AnchorSlots
import Holt.Tree.BatchReplay
import Holt.Tree.BatchGates
import Holt.Checkpoint.ChildFirst
import Holt.Db.CheckpointImage
import Holt.Store.DirtyRetirement
import Holt.Store.SnapshotOrphans
import Holt.Store.VacuumSafety
import Holt.Concurrency.Gate
import Holt.Concurrency.HybridLatch
import Holt.Db.ConsistentCuts
import Holt.Db.TreeIdentity
import Holt.Tree.DeltaOverlay
import Holt.Engine.Spillover
import Holt.Engine.InsertMap
