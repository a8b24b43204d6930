import LeanKube.SchedulerAccounting
import Mathlib.Algebra.Order.BigOperators.Group.List

/-! The resource predicate of the scheduler. A pod is admitted by its request, which counts its init
containers, and is then accounted for by the sum of its containers only; both in `int64`. A node is
not over-committed as long as neither makes a difference. -/

namespace LeanKube.Scheduler
open List Int64 Resource ResourceList

variable (result : Resource) (container : Container)

def Resource.addContainer : Resource :=
  result.add container.requests

def Resource.maxContainer : Resource :=
  result.setMaxResource container.requests

variable (pod : Pod)

def getResourceRequest : Resource :=
  pod.initContainers.foldl Resource.maxContainer (pod.containers.foldl Resource.addContainer {})

structure InsufficientResourceError where
  resourceName : String
  requested : Int64
  used : Int64
  capacity : Int64
deriving DecidableEq

structure PredicateMetadata where
  podRequest : Resource
  ignoredExtendedResources : Option (Finset String)
deriving DecidableEq

def insufficient (podRequest : Resource) (nodeInfo : NodeInfo) (d : Dimension) : List InsufficientResourceError :=
  if nodeInfo.allocatableResource.amount d <
      podRequest.amount d + nodeInfo.requestedResource.amount d then
    [{ resourceName := d.resourceName
       requested := podRequest.amount d
       used := nodeInfo.requestedResource.amount d
       capacity := nodeInfo.allocatableResource.amount d }]
  else
    []

def insufficientPods (nodeInfo : NodeInfo) : List InsufficientResourceError :=
  let allowedPodNumber := nodeInfo.allocatableResource.allowedPodNumber
  if (nodeInfo.pods.length : Int) + 1 > allowedPodNumber.toInt then
    [{ resourceName := resourcePods
       requested := 1
       used := Int64.ofNat nodeInfo.pods.length
       capacity := allowedPodNumber }]
  else
    []

/-- The predicate failures, none if the pod fits; `order` is the order in which the scalar resources
of the request are visited. -/
def podFitsResources (metadata : Option PredicateMetadata) (nodeInfo : NodeInfo)
    (order : List String) : Except String (List InsufficientResourceError) :=
  match nodeInfo.node with
  | none => .error "node not found"
  | some _ =>
    let podRequest := (metadata.map PredicateMetadata.podRequest).getD (getResourceRequest pod)
    let ignoredExtendedResources := (metadata.bind PredicateMetadata.ignoredExtendedResources).getD ∅
    if podRequest.milliCPU = 0 ∧ podRequest.memory = 0 ∧ podRequest.ephemeralStorage = 0 ∧
        podRequest.scalarResources = ∅ then
      .ok (insufficientPods nodeInfo)
    else
      .ok (insufficientPods nodeInfo ++ insufficient podRequest nodeInfo .milliCPU ++
        insufficient podRequest nodeInfo .memory ++
        insufficient podRequest nodeInfo .ephemeralStorage ++
        order.flatMap fun rName =>
          if isExtendedResourceName rName ∧ rName ∈ ignoredExtendedResources then []
          else insufficient podRequest nodeInfo (.scalar rName))

def fits : Except String (List InsufficientResourceError) → Bool
  | .ok failures => failures = []
  | .error _ => false

/-! ### Admissions -/

variable (rl : ResourceList)

def ResourceList.nonNegative : Bool := rl.entries.all fun entry => 0 ≤ entry.2.unscaled.1

def Pod.nonNegative : Bool :=
  (pod.containers ++ pod.initContainers).all fun container => container.requests.nonNegative

inductive NodeOp where
  | schedule (pod : Pod) (metadata : Option PredicateMetadata) (order : List String)
  | remove (pod : Pod)
deriving DecidableEq

variable (ignored : Finset String)

/-- The pod is one the API admits, its metadata is the one computed for it under the configured
ignored resources, and it passes the predicate. A removal is of an object that agrees with the pods
of its UID on the requests. -/
def NodeOp.possible (n : NodeInfo) : NodeOp → Bool
  | .schedule pod metadata order => pod.nonNegative ∧ (metadata.all fun m => m.podRequest = getResourceRequest pod ∧
        m.ignoredExtendedResources.all (· = ignored)) ∧
      (getResourceRequest pod).scalarResources.Ranges order ∧
      fits (podFitsResources pod metadata n order)
  | .remove pod => (n.pods.all fun other => other.uid = pod.uid → other.requests = pod.requests) ∧
      (n.removePod pod (n.generation + 1)).state?.isSome

def NodeOp.apply (n : NodeInfo) : NodeOp → NodeInfo
  | .schedule pod _ _ => n.addPod pod (n.generation + 1)
  | .remove pod => (n.removePod pod (n.generation + 1)).state?.getD n

def admissionSystem : System NodeInfo NodeOp :=
  System.ofFun (fun n op => op.possible ignored n) NodeOp.apply

def emptyNodeInfo (node : Node) : NodeInfo := (newNodeInfo 1).setNode node 2

/-! ### Exact requests -/

/-- The amount that a list has for a dimension, whether or not it fits into an `int64`. -/
def ResourceList.exact (d : Dimension) : Int := (rl.quantity? d).elim 0 (·.exact d.scale)

def containersTotal (d : Dimension) (pod : Pod) : Int :=
  (pod.containers.map fun container => container.requests.exact d).sum

/-- What `GetResourceRequest` computes, in exact arithmetic. -/
def exactRequest (d : Dimension) (pod : Pod) : Int :=
  pod.initContainers.foldl (fun request container => max request (container.requests.exact d)) (containersTotal d pod)

def Dimension.isIgnored : Dimension → Bool
  | .scalar name => isExtendedResourceName name && name ∈ ignored
  | _ => false

/-- The exact requests of the pods together do not exceed what the node has, in any dimension that is not ignored. -/
def NotOvercommitted (node : Node) (n : NodeInfo) : Prop :=
  ∀ d, d.isIgnored ignored = false → (n.pods.map (exactRequest d)).sum ≤ node.allocatable.exact d

/-! ### Sums that do not wrap around -/

theorem toInt_zero : (0 : Int64).toInt = 0 := rfl

theorem toInt_ofInt_of_fits {x : Int} (hnn : 0 ≤ x) (hfits : x < 2 ^ 63) : (Int64.ofInt x).toInt = x :=
  toInt_ofInt_of_le (by omega) hfits

theorem toInt_max (a b : Int64) : (max a b).toInt = max a.toInt b.toInt := by
  have hmax : max a b = if a ≤ b then b else a := rfl
  rw [hmax]
  split_ifs with hle
  · exact (max_eq_right (le_iff_toInt_le.mp hle)).symm
  · exact (max_eq_left (Int64.le_iff_toInt_le.mp (Int64.le_of_lt (Int64.not_le.mp hle)))).symm

variable {d : Dimension}

theorem ResourceList.quantity?_nonneg {rl : ResourceList} (h : rl.nonNegative = true) {q : Quantity}
    (hq : rl.quantity? d = some q) : 0 ≤ q.unscaled.1 := by
  obtain ⟨entry, hfind, rfl⟩ := Option.map_eq_some_iff.mp hq
  exact of_decide_eq_true (all_eq_true.mp h entry (mem_of_find?_eq_some hfind))

section
variable {rl : ResourceList} (h : rl.nonNegative = true) (d : Dimension)
include h

theorem ResourceList.exact_nonneg : 0 ≤ rl.exact d := by
  rw [exact]
  cases hq : rl.quantity? d with
  | none => exact Int.le_refl 0
  | some => exact Quantity.exact_nonneg (quantity?_nonneg h hq) _

theorem ResourceList.toInt_amount (hfits : rl.exact d < 2 ^ 63) : ((rl.amount? d).getD 0).toInt = rl.exact d := by
  rw [exact] at hfits ⊢
  rw [amount?]
  cases hq : rl.quantity? d with
  | none => rfl
  | some =>
    rw [hq] at hfits
    exact Quantity.toInt_scaledValue (quantity?_nonneg h hq) hfits

theorem ResourceList.toInt_amount_le : ((rl.amount? d).getD 0).toInt ≤ rl.exact d := by
  rw [exact, amount?]
  cases hq : rl.quantity? d with
  | none => exact Int.le_refl 0
  | some => exact Quantity.toInt_scaledValue_le (quantity?_nonneg h hq)

end

theorem amount_addContainer (r : Resource) (container : Container) (d : Dimension) :
    (r.addContainer container).amount d = r.amount d + (container.requests.amount? d).getD 0 := by
  rw [Resource.addContainer, amount_add]
  cases container.requests.amount? d with
  | none => exact (Int64.add_zero _).symm
  | some => rfl

theorem fst_calculateResource : (calculateResource pod).1 = pod.containers.foldl addContainer {} := by
  have hfst : ∀ (containers : List Container) (total : Resource × Int64 × Int64),
      (containers.foldl (fun total c => (total.1.add c.requests, total.2.1 + (getNonzeroRequests c.requests).1,
        total.2.2 + (getNonzeroRequests c.requests).2)) total).1 =
      containers.foldl addContainer total.1 := by
    intro containers
    induction containers with
    | nil => intro total; rfl
    | cons _ _ ih => intro total; exact ih _
  exact hfst pod.containers _

variable {pod : Pod} {n : NodeInfo} {ignored : Finset String} {node : Node}

theorem Pod.requests_nonneg (h : pod.nonNegative = true) {container : Container}
    (hcontainer : container ∈ pod.containers ++ pod.initContainers) : container.requests.nonNegative = true :=
  all_eq_true.mp h container hcontainer

theorem containersTotal_nonneg (h : pod.nonNegative = true) (d : Dimension) : 0 ≤ containersTotal d pod := by
  refine sum_nonneg ?_
  intro amount hamount
  obtain ⟨_, hcontainer, rfl⟩ := mem_map.mp hamount
  exact ResourceList.exact_nonneg (Pod.requests_nonneg h (mem_append_left _ hcontainer)) d

theorem foldl_max_ge {α : Type} (f : α → Int) (xs : List α) (start : Int) :
    start ≤ xs.foldl (fun acc x => max acc (f x)) start := by
  induction xs generalizing start with
  | nil => exact Int.le_refl start
  | cons x _ ih => exact Int.le_trans (Int.le_max_left ..) (ih (max start (f x)))

theorem containersTotal_le_exactRequest (d : Dimension) (pod : Pod) : containersTotal d pod ≤ exactRequest d pod :=
  foldl_max_ge _ _ _

theorem exactRequest_eq (h : ∀ container ∈ pod.initContainers, container.requests.exact d ≤ containersTotal d pod) :
    exactRequest d pod = containersTotal d pod := by
  rw [exactRequest]
  generalize pod.initContainers = containers at h
  induction containers with
  | nil => rfl
  | cons container _ ih =>
    rw [foldl_cons, max_eq_left (h container mem_cons_self)]
    exact ih fun other hother => h other (mem_cons_of_mem container hother)

/-- The sum of the containers is exact if it fits. -/
theorem toInt_amount_containers (h : pod.nonNegative = true) (hfits : containersTotal d pod < 2 ^ 63) :
    ((pod.containers.foldl addContainer {}).amount d).toInt = containersTotal d pod := by
  have hnn : ∀ container ∈ pod.containers, container.requests.nonNegative = true := fun container hcontainer =>
    Pod.requests_nonneg h (mem_append_left _ hcontainer)
  rw [containersTotal] at hfits ⊢
  generalize pod.containers = containers at hnn hfits
  induction containers using reverseRecOn with
  | nil => exact congrArg toInt (amount_empty d)
  | append_singleton before container ih =>
    have hbefore : 0 ≤ (before.map fun container => container.requests.exact d).sum := by
      refine sum_nonneg ?_
      intro amount hamount
      obtain ⟨_, hother, rfl⟩ := mem_map.mp hamount
      exact ResourceList.exact_nonneg (hnn _ (mem_append_left _ hother)) d
    have hlast := hnn container (mem_append_right _ (mem_singleton_self _))
    have hlastnn := ResourceList.exact_nonneg hlast d
    rw [map_append, sum_append, map_singleton, sum_singleton] at hfits ⊢
    have ih := ih (fun other hother => hnn other (mem_append_left _ hother)) (by omega)
    rw [foldl_append, foldl_cons, foldl_nil, amount_addContainer, toInt_add, ih,
      ResourceList.toInt_amount hlast d (by omega)]
    exact Int.bmod_eq_of_le (by omega) (by omega)

theorem toInt_amount_getResourceRequest (h : pod.nonNegative = true)
    (hfits : exactRequest d pod < 2 ^ 63) : ((getResourceRequest pod).amount d).toInt = exactRequest d pod := by
  have hstart := toInt_amount_containers h (Int.lt_of_le_of_lt (containersTotal_le_exactRequest d pod) hfits)
  have hnn := containersTotal_nonneg h d
  have hinit : ∀ container ∈ pod.initContainers, container.requests.nonNegative = true := fun container hcontainer =>
    Pod.requests_nonneg h (mem_append_right _ hcontainer)
  rw [exactRequest] at hfits ⊢
  rw [getResourceRequest]
  generalize pod.containers.foldl Resource.addContainer {} = r at hstart
  generalize containersTotal d pod = total at hstart hnn hfits
  generalize pod.initContainers = containers at hinit hfits
  -- the running maxima of the two loops agree, and are not negative
  induction containers generalizing r total with
  | nil => exact hstart
  | cons container rest ih =>
    rw [foldl_cons] at hfits
    have hle := foldl_max_ge (fun other => other.requests.exact d) rest (max total (container.requests.exact d))
    have hmax : ((r.maxContainer container).amount d).toInt = max total (container.requests.exact d) := by
      have hread := ResourceList.toInt_amount (hinit container mem_cons_self) d (by omega)
      rw [← hread, Resource.maxContainer, amount_setMaxResource, ← hstart]
      cases container.requests.amount? d with
      | none => exact (max_eq_left (hstart ▸ hnn)).symm
      | some => exact toInt_max _ _
    exact ih _ _ hmax (Int.le_trans hnn (Int.le_max_left ..))
      (fun other hother => hinit other (mem_cons_of_mem _ hother)) hfits

theorem amount_newResource (d : Dimension) : (newResource rl).amount d = (rl.amount? d).getD 0 := by
  rw [newResource, amount_add, amount_empty]
  cases rl.amount? d with
  | none => rfl
  | some quantity => exact Int64.zero_add quantity

/-! ### What the predicate checks -/

theorem le_of_insufficient_eq_nil {podRequest : Resource} (h : insufficient podRequest n d = []) :
    podRequest.amount d + n.requestedResource.amount d ≤ n.allocatableResource.amount d := by
  rw [insufficient] at h
  split_ifs at h with hlt
  exact Int64.not_lt.mp hlt

theorem amount_of_fits {metadata : Option PredicateMetadata} {order : List String}
    (hmetadata : (metadata.all fun m => m.podRequest = getResourceRequest pod ∧
      m.ignoredExtendedResources.all (· = ignored)) = true)
    (hord : (getResourceRequest pod).scalarResources.Ranges order)
    (hfits : fits (podFitsResources pod metadata n order) = true) {d : Dimension}
    (hd : d.isIgnored ignored = false) :
    (getResourceRequest pod).amount d = 0 ∨ (getResourceRequest pod).amount d + n.requestedResource.amount d ≤
        n.allocatableResource.amount d := by
  have hreq : (metadata.map PredicateMetadata.podRequest).getD (getResourceRequest pod) = getResourceRequest pod := by
    cases metadata with
    | none => rfl
    | some => exact (of_decide_eq_true hmetadata).1
  have hignored : ∀ name, name ∈ (metadata.bind PredicateMetadata.ignoredExtendedResources).getD ∅ →
        name ∈ ignored := by
    intro name hname
    cases metadata with
    | none => cases hname
    | some m =>
      have hall := (of_decide_eq_true hmetadata).2
      rw [Option.bind_some] at hname
      cases hset : m.ignoredExtendedResources with
      | none => rw [hset] at hname; cases hname
      | some =>
        rw [hset] at hname hall
        rw [← of_decide_eq_true hall]
        exact hname
  unfold podFitsResources at hfits
  cases hnode : n.node with
  | none => simp only [hnode] at hfits; cases hfits
  | some =>
    simp only [hnode, hreq] at hfits
    split_ifs at hfits with hzero
    · -- nothing is asked for, so that nothing was compared
      obtain ⟨hcpu, hmem, hstor, hscalar⟩ := hzero
      refine .inl ?_
      cases d with
      | milliCPU => exact hcpu
      | memory => exact hmem
      | ephemeralStorage => exact hstor
      | scalar =>
        rw [Resource.amount, Resource.scalar, hscalar]
        rfl
    · have hnil := of_decide_eq_true hfits
      simp only [append_eq_nil_iff, flatMap_eq_nil_iff] at hnil
      obtain ⟨⟨⟨⟨_, hcpu⟩, hmem⟩, hstor⟩, hscalars⟩ := hnil
      cases d with
      | milliCPU => exact .inr (le_of_insufficient_eq_nil hcpu)
      | memory => exact .inr (le_of_insufficient_eq_nil hmem)
      | ephemeralStorage => exact .inr (le_of_insufficient_eq_nil hstor)
      | scalar name =>
        by_cases hname : name ∈ (getResourceRequest pod).scalarResources
        · have hcheck := hscalars name ((hord.2 name).mpr hname)
          rw [if_neg] at hcheck
          · exact .inr (le_of_insufficient_eq_nil hcheck)
          · rintro ⟨hextended, hskipped⟩
            rw [Dimension.isIgnored, hextended, decide_eq_true (hignored name hskipped)] at hd
            cases hd
        · rw [← Finmap.lookup_eq_none] at hname
          rw [amount, scalar, hname]
          exact .inl rfl

/-! ### Runs -/

variable (ignored)

/-- The admission compares exact amounts: no pod on the node has an init container that asks for more
than its containers together, and the sum of the check fits into an `int64`. -/
def NodeOp.Accountable (n : NodeInfo) : NodeOp → Prop
  | .schedule pod _ _ => ∀ d, d.isIgnored ignored = false → (∀ other ∈ n.pods, ∀ container ∈ other.initContainers,
        container.requests.exact d ≤ containersTotal d other) ∧
      (n.pods.map (containersTotal d)).sum + exactRequest d pod < 2 ^ 63
  | .remove _ => True

/-- Admissions that compare exact amounts. -/
def accountableSystem : System NodeInfo NodeOp where
  step n op n' := (admissionSystem ignored).step n op n' ∧ op.Accountable ignored n

variable {ignored}

/-- What admissions keep: the aggregates are those of the node and of its pods, which do not over-commit it. -/
structure Admitting (ignored : Finset String) (node : Node) (n : NodeInfo) : Prop where
  capacity : node.allocatable.nonNegative = true
  allocatable : n.allocatableResource = newResource node.allocatable
  requested : RequestedTotal n
  nonNegative : ∀ pod ∈ n.pods, pod.nonNegative = true
  notOvercommitted : NotOvercommitted ignored node n

/-- A total that fits into an `int64` is the one that the node info has. -/
theorem RequestedTotal.amount_eq (h : RequestedTotal n) (hnn : ∀ pod ∈ n.pods, pod.nonNegative = true) {d : Dimension}
    (hfits : (n.pods.map (containersTotal d)).sum < 2 ^ 63) :
    n.requestedResource.amount d = Int64.ofInt (n.pods.map (containersTotal d)).sum := by
  have hone : ∀ pod ∈ n.pods, containersTotal d pod ≤ (n.pods.map (containersTotal d)).sum := by
    refine fun pod hpod => single_le_sum ?_ _ (mem_map_of_mem hpod)
    intro amount hamount
    obtain ⟨other, hother, rfl⟩ := mem_map.mp hamount
    exact containersTotal_nonneg (hnn other hother) d
  rw [show n.requestedResource.amount d = _ from h d, totalOf]
  congr 2
  refine map_congr_left fun pod hpod => ?_
  rw [fst_calculateResource]
  exact toInt_amount_containers (hnn pod hpod) (Int.lt_of_le_of_lt (hone pod hpod) hfits)

theorem exactRequest_nonneg (h : pod.nonNegative = true) (d : Dimension) : 0 ≤ exactRequest d pod :=
  Int.le_trans (containersTotal_nonneg h d) (containersTotal_le_exactRequest d pod)

section
variable (h : Admitting ignored node n)
include h

theorem Admitting.schedule {metadata : Option PredicateMetadata} {order : List String}
    (hposs : (NodeOp.schedule pod metadata order).possible ignored n = true)
    (haccountable : (NodeOp.schedule pod metadata order).Accountable ignored n) :
    NotOvercommitted ignored node (n.addPod pod (n.generation + 1)) := by
  obtain ⟨hnn, hmetadata, hord, hfits⟩ := of_decide_eq_true hposs
  intro d hd
  obtain ⟨hinit, _⟩ := haccountable d hd
  have hbefore := h.notOvercommitted d hd
  have hpods : (n.pods.map (exactRequest d)).sum = (n.pods.map (containersTotal d)).sum := by
    congr 1
    exact map_congr_left fun other hother => exactRequest_eq (hinit other hother)
  have hon : 0 ≤ (n.pods.map (containersTotal d)).sum := by
    refine sum_nonneg ?_
    intro amount hamount
    obtain ⟨other, hother, rfl⟩ := mem_map.mp hamount
    exact containersTotal_nonneg (h.nonNegative other hother) d
  have hreq := exactRequest_nonneg hnn d
  have hexact : ((getResourceRequest pod).amount d).toInt = exactRequest d pod :=
    toInt_amount_getResourceRequest hnn (by omega)
  rw [NodeInfo.pods_addPod, map_append, sum_append, map_singleton, sum_singleton]
  rcases amount_of_fits hmetadata hord hfits hd with hzero | hle
  · rw [hzero, toInt_zero] at hexact
    omega
  · -- both summands of the check, and their sum, are the exact amounts
    have hsum : ((getResourceRequest pod).amount d + n.requestedResource.amount d).toInt =
        exactRequest d pod + (n.pods.map (containersTotal d)).sum := by
      calc ((getResourceRequest pod).amount d + n.requestedResource.amount d).toInt
          = (Int64.ofInt (exactRequest d pod) + Int64.ofInt (n.pods.map (containersTotal d)).sum).toInt := by
            rw [← hexact, ofInt_toInt, h.requested.amount_eq h.nonNegative (by omega)]
        _ = (Int64.ofInt (exactRequest d pod + (n.pods.map (containersTotal d)).sum)).toInt := by
            rw [ofInt_add]
        _ = exactRequest d pod + (n.pods.map (containersTotal d)).sum :=
            toInt_ofInt_of_fits (by omega) (by omega)
    have hcheck := le_iff_toInt_le.mp hle
    have hnode := ResourceList.toInt_amount_le h.capacity d
    rw [h.allocatable, amount_newResource] at hcheck
    omega

theorem Admitting.remove {n' : NodeInfo}
    (hagree : ∀ other ∈ n.pods, other.uid = pod.uid → other.requests = pod.requests)
    {generation : Int64} (hstate : (n.removePod pod generation).state? = some n') : Admitting ignored node n' := by
  rcases removePod_state hstate with rfl | ⟨_, ⟨found, rest, huid, hperm, rfl⟩ | ⟨_, rfl⟩⟩
  · exact h
  · have hfound : found ∈ n.pods := hperm.mem_iff.mpr mem_cons_self
    have hcalc : calculateResource pod = calculateResource found :=
      calculateResource_congr (hagree found hfound huid).symm
    refine ⟨h.capacity, h.allocatable, h.requested.subtractPod hperm hcalc _ _, ?_, ?_⟩
    · intro other hother
      exact h.nonNegative other (hperm.mem_iff.mpr (mem_cons_of_mem found hother))
    · intro d hd
      have hbefore := h.notOvercommitted d hd
      rw [(hperm.map (exactRequest d)).sum_eq, map_cons, sum_cons] at hbefore
      have hgone := exactRequest_nonneg (h.nonNegative found hfound) d
      show (rest.map (exactRequest d)).sum ≤ node.allocatable.exact d
      omega
  · exact ⟨h.capacity, h.allocatable, h.requested, h.nonNegative, h.notOvercommitted⟩

theorem Admitting.step {n' : NodeInfo} {op : NodeOp}
    (hstep : (accountableSystem ignored).step n op n') : Admitting ignored node n' := by
  obtain ⟨⟨hposs, rfl⟩, haccountable⟩ := hstep
  cases op with
  | schedule pod =>
    refine ⟨h.capacity, h.allocatable, h.requested.addPod pod _, ?_, h.schedule hposs haccountable⟩
    intro other hother
    rw [NodeOp.apply, NodeInfo.pods_addPod, mem_append, mem_singleton] at hother
    rcases hother with hother | rfl
    · exact h.nonNegative other hother
    · exact (of_decide_eq_true hposs).1
  | remove =>
    obtain ⟨hagree, hsome⟩ := of_decide_eq_true hposs
    obtain ⟨_, hn'⟩ := Option.isSome_iff_exists.mp hsome
    rw [NodeOp.apply, hn', Option.getD_some]
    refine h.remove ?_ hn'
    intro other hother
    exact of_decide_eq_true (all_eq_true.mp hagree other hother)

end

theorem admitting_empty (ignored : Finset String) (hnode : node.allocatable.nonNegative = true) :
    Admitting ignored node (emptyNodeInfo node) := by
  have hdata : (emptyNodeInfo node).podData = (newNodeInfo 1).podData := NodeInfo.podData_setNode _ _ _
  have hpods : (emptyNodeInfo node).pods = [] := congrArg Prod.fst hdata
  have hreq : (emptyNodeInfo node).requestedResource = {} := congrArg (·.2.2.1) hdata
  have hallocatable : (emptyNodeInfo node).allocatableResource = newResource node.allocatable :=
    NodeInfo.foldl_setCondition NodeInfo.allocatableResource
      (fun n _ => by rw [NodeInfo.setCondition]; split <;> rfl) node.conditions _
  refine ⟨hnode, hallocatable, ?_, ?_, ?_⟩
  · intro d
    rw [hpods, hreq]
    exact amount_empty d
  · rw [hpods]
    intro pod hpod
    cases hpod
  · intro d _
    rw [hpods]
    exact ResourceList.exact_nonneg hnode d

/-- **Accountable admissions never over-commit a node.** -/
theorem admissions_notOvercommitted {ignored : Finset String} {node : Node}
    (hnode : node.allocatable.nonNegative = true) {ops : List NodeOp} {n : NodeInfo}
    (hrun : (accountableSystem ignored).Run (emptyNodeInfo node) ops n) :
    n.allocatableResource = newResource node.allocatable ∧ NotOvercommitted ignored node n := by
  have h := hrun.invariant (Admitting ignored node) (fun _ _ _ hstep h => h.step hstep) (admitting_empty ignored hnode)
  exact ⟨h.allocatable, h.notOvercommitted⟩

def nodeWith (rName : String) (quantity : Quantity) (h : rName ≠ resourcePods) : Node :=
  { bareNode "a" with
    allocatable := ⟨[(rName, quantity), (resourcePods, .int64Amount 3 0)], by simpa using h⟩ }

def podWith (uid rName : String) (quantity initQuantity : Quantity) : Pod :=
  { name := uid, uid, nodeName := "a", affinity := none
    containers := [{ requests := .single rName quantity, ports := [] }]
    initContainers := [{ requests := .single rName initQuantity, ports := [] }] }

def milliCPUs (milli : Int64) : Quantity := .int64Amount milli (-3)
def petabytes (number : Int64) : Quantity := .int64Amount number 15

/-- Two pods whose init containers need the whole node are admitted next to each other; so is a pod whose
memory makes the sum of the check negative; and so is a pod whose CPUs wrap around to 384 thousandths. -/
theorem admissions_overcommit : (∃ n, (admissionSystem ∅).Run
        (emptyNodeInfo (nodeWith resourceCPU (milliCPUs 1000) (by decide)))
        [.schedule (podWith "first" resourceCPU (milliCPUs 100) (milliCPUs 1000)) none [],
          .schedule (podWith "second" resourceCPU (milliCPUs 100) (milliCPUs 900)) none []] n ∧
      ¬NotOvercommitted ∅ (nodeWith resourceCPU (milliCPUs 1000) (by decide)) n) ∧
    (∃ n, (admissionSystem ∅).Run
        (emptyNodeInfo (nodeWith resourceMemory (petabytes 4000) (by decide)))
        [.schedule (podWith "first" resourceMemory (petabytes 4000) (petabytes 0)) none [],
          .schedule (podWith "second" resourceMemory (petabytes 9000) (petabytes 0)) none []] n ∧
      ¬NotOvercommitted ∅ (nodeWith resourceMemory (petabytes 4000) (by decide)) n) ∧
    ∃ n, (admissionSystem ∅).Run
        (emptyNodeInfo (nodeWith resourceCPU (milliCPUs 1000) (by decide)))
        [.schedule (podWith "first" resourceCPU (.int64Amount 18446744073709552 0) (milliCPUs 0)) none []] n ∧
      ¬NotOvercommitted ∅ (nodeWith resourceCPU (milliCPUs 1000) (by decide)) n := by
  refine ⟨⟨_, System.run_foldl (by decide), fun h => ?_⟩, ⟨_, System.run_foldl (by decide), fun h => ?_⟩, _,
    System.run_foldl (by decide), fun h => ?_⟩
  · exact absurd (h .milliCPU rfl) (by decide)
  · exact absurd (h .memory rfl) (by decide)
  · exact absurd (h .milliCPU rfl) (by decide)

theorem podWith_cpu_other (uid : String) (quantity initQuantity : Quantity) {d : Dimension}
    (hd : d ≠ .milliCPU) : containersTotal d (podWith uid resourceCPU quantity initQuantity) = 0 ∧
      exactRequest d (podWith uid resourceCPU quantity initQuantity) = 0 := by
  cases d with
  | milliCPU => exact absurd rfl hd
  | _ => exact ⟨rfl, rfl⟩

/-- A node with one CPU, and two pods that share it: the init container of the second one needs more
than its container. -/
def oneCPU : Node := nodeWith resourceCPU (milliCPUs 1000) (by decide)
def firstPod : Pod := podWith "first" resourceCPU (milliCPUs 400) (milliCPUs 300)
def secondPod : Pod := podWith "second" resourceCPU (milliCPUs 500) (milliCPUs 600)

theorem admissions_notOvercommitted_cpu : ∃ n, (accountableSystem ∅).Run (emptyNodeInfo oneCPU)
        [.schedule firstPod none [], .schedule secondPod none []] n ∧
      n.pods = [firstPod, secondPod] ∧ NotOvercommitted ∅ oneCPU n := by
  have hfirst : (accountableSystem ∅).step (emptyNodeInfo oneCPU) (.schedule firstPod none [])
      (NodeOp.apply (emptyNodeInfo oneCPU) (.schedule firstPod none [])) := by
    have hpods : (emptyNodeInfo oneCPU).pods = [] := rfl
    refine ⟨⟨by decide, rfl⟩, fun d _ => ?_⟩
    rw [hpods, map_nil, sum_nil, Int.zero_add]
    refine ⟨fun _ hother => absurd hother not_mem_nil, ?_⟩
    by_cases hd : d = .milliCPU
    · subst hd
      decide
    · rw [firstPod, (podWith_cpu_other _ _ _ hd).2]
      decide
  have hsecond : (accountableSystem ∅).step
      (NodeOp.apply (emptyNodeInfo oneCPU) (.schedule firstPod none [])) (.schedule secondPod none [])
      (NodeOp.apply (NodeOp.apply (emptyNodeInfo oneCPU) (.schedule firstPod none []))
        (.schedule secondPod none [])) := by
    have hpods : (NodeOp.apply (emptyNodeInfo oneCPU) (.schedule firstPod none [])).pods = [firstPod] := rfl
    refine ⟨⟨by decide, rfl⟩, fun d _ => ?_⟩
    rw [hpods, map_singleton, sum_singleton]
    by_cases hd : d = .milliCPU
    · subst hd
      decide
    · rw [firstPod, (podWith_cpu_other _ _ _ hd).1, secondPod, (podWith_cpu_other _ _ _ hd).2]
      refine ⟨?_, by decide⟩
      intro other hother container hcontainer
      rw [mem_singleton.mp hother] at hcontainer ⊢
      rw [(podWith_cpu_other _ _ _ hd).1, mem_singleton.mp hcontainer]
      cases d with
      | milliCPU => exact absurd rfl hd
      | _ => exact Int.le_refl 0
  have hrun := (System.Run.single hfirst).snoc hsecond
  exact ⟨_, hrun, rfl, (admissions_notOvercommitted (by decide) hrun).2⟩

end LeanKube.Scheduler
