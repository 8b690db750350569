import ClusterScheduler.Cull.UniqueTable
import ClusterScheduler.Cull.Readers
import ClusterScheduler.Sched.BindingDiagram
import ClusterScheduler.Consumables.GrantedMaps
import ClusterScheduler.Qmaster.HostGroupCaches
import ClusterScheduler.Qmaster.HostGroupChanges
import ClusterScheduler.Qmaster.ArrayDependencies
import ClusterScheduler.Events.Replication
import ClusterScheduler.Events.Sessions
import ClusterScheduler.Events.TotalUpdate
import ClusterScheduler.Sched.PeSlots
import ClusterScheduler.Sched.ParallelGrants
import ClusterScheduler.Sched.QuotaSlots
import ClusterScheduler.Sched.SequentialOptimum
import ClusterScheduler.Qmaster.HoldRequests
import ClusterScheduler.Qmaster.JobDependencies
import ClusterScheduler.Qmaster.SlotwiseSuspend
import ClusterScheduler.Qmaster.RescheduleUnknown
import ClusterScheduler.Qmaster.TightIntegration
import ClusterScheduler.Qmaster.QueueWiseSubordination
import ClusterScheduler.Qmaster.JobModification
import ClusterScheduler.Sched.EarliestWindow
import ClusterScheduler.Cull.DescrRegistry
import ClusterScheduler.Qmaster.ReservationTimers
import ClusterScheduler.Qmaster.ReservationErrors
import ClusterScheduler.Cull.WireRoundTrip
import ClusterScheduler.Sched.QueueEndTimes
import ClusterScheduler.Sgeobj.RsmapParams
import ClusterScheduler.Sgeobj.RangeMove
import ClusterScheduler.Sgeobj.RangeRoundTrip
import ClusterScheduler.Sgeobj.PackedUnits
import ClusterScheduler.Consumables.ReservationRuns
import ClusterScheduler.Consumables.DryRun
import ClusterScheduler.Qmaster.DependencyRanges
import ClusterScheduler.Qmaster.FinishedUsage
import ClusterScheduler.Sgeobj.HoldIdLists
import ClusterScheduler.Cull.PackMemory
import ClusterScheduler.Cull.SelectionRoundTrip
import ClusterScheduler.Sgeobj.WeekDayLists
import ClusterScheduler.Uti.FifoTryLock
import ClusterScheduler.Events.DynamicIds
import ClusterScheduler.Qmaster.RescheduleTimer
import ClusterScheduler.Consumables.RunningJobs
import ClusterScheduler.Sgeobj.QuotaFilters
import ClusterScheduler.Sched.ClusterQueueMatch
import ClusterScheduler.Sched.ConsumableChecks
import ClusterScheduler.Sched.QuotaReservations
import ClusterScheduler.Sched.LoadAlarms
import ClusterScheduler.Sgeobj.UnenrolledIds
import ClusterScheduler.Qmaster.DependencyCycles
import ClusterScheduler.Sgeobj.ContextChanges
import ClusterScheduler.Qmaster.ReservationChecks
import ClusterScheduler.Sgeobj.DaytimeRanges
import ClusterScheduler.Sgeobj.AttributeText
