import Cidl.Base.History
import Cidl.Base.Intervals
import Cidl.Base.Leaks
import Cidl.Base.Rounds
import Cidl.Base.Transfer
import Cidl.Base.Writes
import Cidl.Compare.Agreement
import Cidl.Compare.Loads
import Cidl.Compare.Long
import Cidl.Compare.Short
import Cidl.Compare.Vectors
import Cidl.Lib.Alarm
import Cidl.Lib.Ascending
import Cidl.Lib.Frontier
import Cidl.Lib.Intervals
import Cidl.Lib.Loop
import Cidl.Lib.Mask
import Cidl.Lib.Run
import Cidl.Lib.SearchTree
import Cidl.Lib.SlabPool
import Cidl.Mappings.Agreement
import Cidl.Mappings.Attribution
import Cidl.Mappings.Closing
import Cidl.Mappings.Effects
import Cidl.Mappings.Failures
import Cidl.Mappings.Identity
import Cidl.Mappings.Ledger
import Cidl.Mappings.Liveness
import Cidl.Mappings.Nodes
import Cidl.Mappings.Provenance
import Cidl.Mappings.Reads
import Cidl.Mappings.Reclaims
import Cidl.Mappings.Recollection
import Cidl.Mappings.Survival
import Cidl.Model.Accesses
import Cidl.Model.Addr
import Cidl.Model.Api
import Cidl.Model.Base
import Cidl.Model.FileMap
import Cidl.Model.Insert
import Cidl.Model.Memcmp
import Cidl.Model.Opens
import Cidl.Model.Paging
import Cidl.Model.Read
import Cidl.Model.RecTree
import Cidl.Model.Reclaim
import Cidl.Model.Transfer
import Cidl.Model.Write
import Cidl.Records.Accesses
import Cidl.Records.Advance
import Cidl.Records.Apart
import Cidl.Records.Ascent
import Cidl.Records.Bounds
import Cidl.Records.Capacity
import Cidl.Records.Compaction
import Cidl.Records.CopyLoop
import Cidl.Records.CopyPages
import Cidl.Records.Counts
import Cidl.Records.Frame
import Cidl.Records.History
import Cidl.Records.InPlace
import Cidl.Records.Invariant
import Cidl.Records.Keeping
import Cidl.Records.Kept
import Cidl.Records.Lively
import Cidl.Records.MoveCalls
import Cidl.Records.MoveLoop
import Cidl.Records.Order
import Cidl.Records.Ownership
import Cidl.Records.PageSizes
import Cidl.Records.Pages
import Cidl.Records.Pools
import Cidl.Records.Reclaim
import Cidl.Records.Refinement
import Cidl.Records.Rest
import Cidl.Records.Runs
import Cidl.Records.Shape
import Cidl.Records.Traced
import Cidl.Records.Walk
import Cidl.Writes.Accesses
import Cidl.Writes.Credit
import Cidl.Writes.Exact
import Cidl.Writes.FileCopy
import Cidl.Writes.Gather
import Cidl.Writes.Grow
import Cidl.Writes.Inside
import Cidl.Writes.NotFound
import Cidl.Writes.Parts
import Cidl.Writes.Relocate
import Cidl.Writes.Scanners
import Cidl.Writes.Visits
