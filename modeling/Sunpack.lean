import Sunpack.Journal.Durability
import Sunpack.Cleanup.Safety
import Sunpack.AsyncWork.Safety
import Sunpack.SpaceGate.Safety
import Sunpack.Wal.Recovery
import Sunpack.Relations.Partition
import Sunpack.ExtractCallback.SameMembers
import Sunpack.AsyncWork.RequestFifo
import Sunpack.Runner.Backpressure
import Sunpack.Runner.JobState
import Sunpack.Runner.ParkedJobs
import Sunpack.OutputPaths.AllocatedPaths
import Sunpack.Reservation.Safety
import Sunpack.Reservation.Transparent
import Sunpack.PathLease.Safety
import Sunpack.Relations.SharedCarrier
import Sunpack.Relations.Numeric.Order
import Sunpack.WorkerLine.Bounds
import Sunpack.WorkerLine.Json
import Sunpack.WatchStore.Identities
import Sunpack.Enc.Decrypt
import Sunpack.Usn.Recovery
import Sunpack.Relations.Assignment.View
import Sunpack.Replay.OutStream
import Sunpack.SpaceMonitor.Sampling
import Sunpack.CpuBudget.Safety
import Sunpack.Executor.Wakeups
import Sunpack.ArchiveState.DamagedOffsets
import Sunpack.ArchiveState.HardLinkSizes
import Sunpack.PathMaps.Agreement
import Sunpack.SourceClaims.Safety
import Sunpack.Scan.CatalogRuns
import Sunpack.ArchiveRegistry.Leases
import Sunpack.Postprocess.PromotionSafety
import Sunpack.Postprocess.FlattenSafety
import Sunpack.ArchiveState.EndOfDirectory
import Sunpack.ArchiveState.Zip64Search
import Sunpack.ResourceScope.Safety
import Sunpack.Lz4.Streams
import Sunpack.MergeRoots
import Sunpack.NativeMemory.Ledger
import Sunpack.Usn.FileId
import Sunpack.DisplayStore.Safety
import Sunpack.Scratch.Storage
import Sunpack.PasswordLoop.Publication
import Sunpack.CatalogCache.Runs
import Sunpack.Tar.PaxRecords
import Sunpack.Usn.EndToEnd
import Sunpack.Usn.Readers
import Sunpack.Usn.Stopping
