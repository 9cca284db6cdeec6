import Aibrix.Modelclaim.Placement
import Aibrix.TokenLoad.Runs
import Aibrix.PodStats.Accounting
import Aibrix.RunningRequests.Cap
import Aibrix.DecodeLedger.Publication
import Aibrix.SyncHash.IndexRuns
import Aibrix.SyncHash.Chain
import Aibrix.Preble.Window
import Aibrix.StateSync.Push
import Aibrix.StateSync.Convergence
import Aibrix.Vtc.Window
import Aibrix.Queue.SimpleQueue
import Aibrix.KvCache.Conservation
import Aibrix.KvCache.GroupAcquire
import Aibrix.KvCache.AllocatorRuns
import Aibrix.KvCache.S3FifoRuns
import Aibrix.KvCache.RollingKeys
import Aibrix.KvCache.Placement
import Aibrix.RoleSet.InPlace
import Aibrix.RoleSet.Draining
import Aibrix.RoleSet.StatefulRuns
import Aibrix.PodAutoscaler.Convergence
import Aibrix.ScalingTargets
import Aibrix.ExternalRouter.Circuit
import Aibrix.KvEvents.Restart
import Aibrix.Batch.Partition
import Aibrix.Batch.Ownership
import Aibrix.RateLimit.Requests
import Aibrix.Planner.Provisions
import Aibrix.RunningRequests.Drift
import Aibrix.PodSet.Recreate
import Aibrix.ModelAdapter.Endpoints
