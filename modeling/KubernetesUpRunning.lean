import KubernetesUpRunning.AssocMap
import KubernetesUpRunning.CallProgram
import KubernetesUpRunning.WorkerPool
import KubernetesUpRunning.VersionedStore
import KubernetesUpRunning.GoJson
import KubernetesUpRunning.KubeObjects
import KubernetesUpRunning.ApiServer
import KubernetesUpRunning.Reconcile
import KubernetesUpRunning.ReconcileRun
import KubernetesUpRunning.ReconcileEffect
import KubernetesUpRunning.ProxyView
import KubernetesUpRunning.ServerSteps
import KubernetesUpRunning.Conduct
import KubernetesUpRunning.ProxyShape
import KubernetesUpRunning.ClusterRuns
import KubernetesUpRunning.Bookkeeping
import KubernetesUpRunning.Interference
import KubernetesUpRunning.Leftovers
import KubernetesUpRunning.Idempotence
import KubernetesUpRunning.FixedPoint
import KubernetesUpRunning.VirtualHosts
import KubernetesUpRunning.OperatorPool
import KubernetesUpRunning.UserEdits
import KubernetesUpRunning.ProxyPool
import KubernetesUpRunning.WorkQueue
import KubernetesUpRunning.QueueWorkers
import KubernetesUpRunning.Linearizability
import KubernetesUpRunning.MemqBroker
import KubernetesUpRunning.MemqClients
import KubernetesUpRunning.TwoParties
import KubernetesUpRunning.ProxyMoves
import KubernetesUpRunning.TwoReconciles
import KubernetesUpRunning.SerialWorkers
import KubernetesUpRunning.ValidityMarks
import KubernetesUpRunning.RouteMoves
import KubernetesUpRunning.FaultyServer
import KubernetesUpRunning.FaultyReconcile
import KubernetesUpRunning.FaultyBranches
import KubernetesUpRunning.RepairAgrees
import KubernetesUpRunning.StatusTruth
import KubernetesUpRunning.FinalizerCleanup
import KubernetesUpRunning.MemqStats
import KubernetesUpRunning.StatsSnapshot
import KubernetesUpRunning.MemqWorker
import KubernetesUpRunning.MemqJob
import KubernetesUpRunning.KeygenWorkers
import KubernetesUpRunning.KeygenExit
import KubernetesUpRunning.Primos
import KubernetesUpRunning.DebugProbe
import KubernetesUpRunning.KeygenStory
import KubernetesUpRunning.KeygenHistory
import KubernetesUpRunning.ReplicaCount
import KubernetesUpRunning.ProxyPanics
import KubernetesUpRunning.Notifications
import KubernetesUpRunning.LexicalPath
import KubernetesUpRunning.FileBrowser
import KubernetesUpRunning.AsciiText
import KubernetesUpRunning.UrlText
import KubernetesUpRunning.QueueNames
import KubernetesUpRunning.JsonText
import KubernetesUpRunning.MessageBody
import KubernetesUpRunning.FairRounds
import KubernetesUpRunning.Neighbours
import KubernetesUpRunning.Convergence
import KubernetesUpRunning.Polling
import KubernetesUpRunning.RemainingWrites
import KubernetesUpRunning.EventLoop
import KubernetesUpRunning.EventRest
import KubernetesUpRunning.RouteTaken
import KubernetesUpRunning.Unwinding
import KubernetesUpRunning.Namespaces
import KubernetesUpRunning.ClusterRole
import KubernetesUpRunning.RoleMarks
import KubernetesUpRunning.Recovery
import KubernetesUpRunning.RemoteQueues
import KubernetesUpRunning.DecimalText
import KubernetesUpRunning.JsonValue
import KubernetesUpRunning.RemoteStats
import KubernetesUpRunning.JsNumber
import KubernetesUpRunning.JsText
import KubernetesUpRunning.MultiplicaApp
import KubernetesUpRunning.OwnChildren
import KubernetesUpRunning.Published
import KubernetesUpRunning.MemqPage
