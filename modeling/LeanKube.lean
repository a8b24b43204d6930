import LeanKube.InformerRelist
import LeanKube.InformerHandlers
import LeanKube.WorkQueueDelivery
import LeanKube.EtcdCacherAgreement
import LeanKube.CacherTriggers
import LeanKube.SchedulerSnapshot
import LeanKube.SchedulerHostPorts
import LeanKube.SchedulerImages
import LeanKube.SchedulingQueueNominations
import LeanKube.InterPodAffinityPaths
import LeanKube.SchedulerTreeAgreement
import LeanKube.SchedulerFits
import LeanKube.SchedulerVictims
import LeanKube.EtcdStoreSuggestions
import LeanKube.EtcdListSnapshot
import LeanKube.RbacCoverage
import LeanKube.NodeGraphAuthorization
import LeanKube.EncryptionRotation
import LeanKube.RegistryDeletionTime
import LeanKube.RegistryFinalizers
import LeanKube.EtcdAllocatorGrants
import LeanKube.ServiceIPRange
import LeanKube.NodeCidrSetExact
import LeanKube.QuotaAccounting
import LeanKube.DisruptionInvariant
import LeanKube.ControllerExpectations
import LeanKube.HorizontalAutoscaler
import LeanKube.FieldSelectorParse
import LeanKube.GarbageCollectorOwned
import LeanKube.NestedPendingOperations
import LeanKube.VolumeAssumeCache
import LeanKube.PodStatusCache
