import Kist.Lib.Bytes
import Kist.Lib.Cbor
import Kist.Lib.CborItem
import Kist.Lib.CborRecord
import Kist.Lib.CborShape
import Kist.Lib.Checked
import Kist.Lib.Dict
import Kist.Lib.PathPattern
import Kist.Lib.Reachable
import Kist.Lib.Related
import Kist.Lib.Runs
import Kist.Lib.SortedTable
import Kist.Format.Config
import Kist.Format.Index
import Kist.Format.Cbor
import Kist.Format.IndexBlob
import Kist.Format.Tree
import Kist.Format.Snapshot
import Kist.Chunker.GearTable
import Kist.Chunker.Boundary
import Kist.Chunker.Stream
import Kist.Chunker.Failing
import Kist.Index
import Kist.IndexObject
import Kist.Cache
import Kist.Content
import Kist.Filter
import Kist.Filter.Glob
import Kist.Filter.Reference
import Kist.FsMeta
import Kist.Storage
import Kist.Repo
import Kist.Reach
import Kist.Ideal
import Kist.Backup.State
import Kist.Backup.File
import Kist.Backup.FileHistory
import Kist.Backup.FastPath
import Kist.Backup.Walk
import Kist.Backup.Loop
import Kist.Backup.SourceTree
import Kist.Backup.WalkSpec
import Kist.Backup.Segments
import Kist.Backup.Plan
import Kist.Backup.Selection
import Kist.Backup.Prepare
import Kist.Backup.PrepareSpec
import Kist.Backup.Outcome
import Kist.Backup.Told
import Kist.Backup.Valid
import Kist.Backup.Hears
import Kist.Replica
import Kist.Backup.Covered
import Kist.Backup.Steady
import Kist.Restore.Select
import Kist.Restore.Target
import Kist.Restore.Walk
import Kist.Restore.Plan
import Kist.Restore.Items
import Kist.Restore.TargetSpec
import Kist.Restore.Leaf
import Kist.Restore.Mirror
import Kist.Restore.Calls
import Kist.Restore.CallSpec
import Kist.Restore.MetaCalls
import Kist.Restore.FileCalls
import Kist.Restore.DirCalls
import Kist.Restore.Survive
import Kist.Restore.Follow
import Kist.Lib.Panics
import Kist.Retention
import Kist.Forget
import Kist.DateRange
import Kist.Prune.Canonical
import Kist.Prune.Plan
import Kist.Prune.Execute
import Kist.Prune.Crash
import Kist.Prune.Orphans
import Kist.Prune.Loss
import Kist.Format.CborDecode
import Kist.Format.TreeCodec
import Kist.Format.Pack
import Kist.PackFile
import Kist.Backup.Advance
import Kist.Distinct
import Kist.Lib.Erasure
import Kist.Format.Parity
import Kist.Format.Shapes
import Kist.Mount.Lru
import Kist.Mount.Offsets
import Kist.Lib.Text
import Kist.Lib.Decimal
import Kist.Location
import Kist.KeyTime
import Kist.TableFile
import Kist.Backup.LocalPlan
import Kist.Backup.Accounting
import Kist.Restore.Unmatched
import Kist.Mount.VirtualRoot
import Kist.Mount.FsCore
import Kist.Mount.Inodes
import Kist.Mount.ReadFile
import Kist.Restore.Places
import Kist.Restore.Exact
import Kist.Restore.Tidy
import Kist.Restore.Outcome
import Kist.RoundTrip.Recorded
import Kist.RoundTrip.Identity
import Kist.Restore.Twin
import Kist.Restore.Confined
import Kist.Check.Run
import Kist.Check.Visits
import Kist.Check.Sound
import Kist.Check.Rebuild
import Kist.Lifetime.Packs
import Kist.Lifetime.Uploads
import Kist.Lifetime.Contents
import Kist.Lifetime.Intact
import Kist.Lifetime.Changes
import Kist.Lifetime.Sweeps
import Kist.Lifetime.Clients
