import RingStore.Bench
import RingStore.Proofs.BootScan
import RingStore.Proofs.CrashSafety
import RingStore.Proofs.Faithful
import RingStore.Proofs.MapRefinement
import RingStore.Proofs.NewestCopy
import RingStore.Proofs.Peek
import RingStore.Proofs.PowerLoss
import RingStore.Proofs.TornAppend
import RingStore.Proofs.TornTombstone
import RingStore.Proofs.Engine.Peek
import RingStore.Proofs.Engine.Rescan
import RingStore.Proofs.Engine.Allocate
import RingStore.Proofs.FaultFree
import RingStore.Proofs.OutOfSpace
import RingStore.Proofs.FreedSpace
import RingStore.Proofs.TypedWrites
import RingStore.Proofs.Ledger
import RingStore.Proofs.Reboots
import RingStore.Proofs.Bounds
import RingStore.Proofs.ExactWrites
import RingStore.Proofs.Frame
import RingStore.Proofs.Reload
import RingStore.Proofs.SecondBoot
import RingStore.Proofs.Engine.Cope
import RingStore.Proofs.Engine.CopeUpdate
import RingStore.Proofs.Corruption
import RingStore.Proofs.Geometry
import RingStore.Proofs.Fine
import RingStore.Proofs.Engine.Fine
import RingStore.Proofs.Granularity
import RingStore.Proofs.Removal
import RingStore.Proofs.Sweep
import RingStore.Proofs.UsageReport
import RingStore.Proofs.Compaction
import RingStore.Proofs.Containment
import RingStore.Proofs.Readings
import RingStore.Proofs.TypedRecords
import RingStore.Proofs.Instant
import RingStore.Proofs.ScanMarker
import RingStore.Proofs.Warrant
import RingStore.Proofs.Engine.Warrant
import RingStore.Proofs.TornErase
import RingStore.Proofs.Rounding
import RingStore.Proofs.Burst
import RingStore.Proofs.Repetition
import RingStore.Proofs.History
