import LeanKube.SchedulerAccounting

/-! The host ports that the pods of a node occupy. They are kept as a set of triples of address,
protocol and port: adding a pod adds its triples and removing a pod removes them, whether or not
another pod has them too. -/

namespace LeanKube.Scheduler
open List HostPortInfo NodeInfo ContainerPort
variable (h : HostPortInfo) (ip protocol : String)

def HostPortInfo.checkConflict (port : Int32) : Bool :=
  if port ≤ 0 then false
  else
    let pp := newProtocolPort (sanitizeProtocol protocol) port
    if sanitizeIP ip = defaultBindAllHostIP then
      decide (∃ key ∈ h.keys, pp ∈ (h.lookup key).getD ∅)
    else
      [defaultBindAllHostIP, sanitizeIP ip].any fun key => (h.lookup key).any fun m => pp ∈ m

/-! ### Triples -/

structure HostPort where
  ip : String
  protocol : String
  port : Int32
deriving DecidableEq

variable (podPort : ContainerPort)

def ContainerPort.triple? : Option HostPort :=
  if podPort.hostPort ≤ 0 then none
  else some ⟨sanitizeIP podPort.hostIP, sanitizeProtocol podPort.protocol, podPort.hostPort⟩

def Pod.hostPorts (pod : Pod) : List HostPort :=
  (pod.containers.flatMap Container.ports).filterMap ContainerPort.triple?

def HostPortInfo.portsAt (ip : String) : Finset ProtocolPort := (h.lookup ip).getD ∅

variable (t : HostPort)

def HostPortInfo.Has : Prop := ⟨t.protocol, t.port⟩ ∈ h.portsAt t.ip

theorem newProtocolPort_sanitize (protocol : String) (port : Int32) :
    newProtocolPort (sanitizeProtocol protocol) port = ⟨sanitizeProtocol protocol, port⟩ := by
  have hne : sanitizeProtocol protocol ≠ "" := by
    rw [sanitizeProtocol]
    split_ifs with h
    · decide
    · exact h
  rw [newProtocolPort, if_neg hne]

variable {port : Int32} {pod : Pod} {n : NodeInfo} (h : HostPortInfo) (ip protocol : String)

theorem portsAt_add (hport : ¬port ≤ 0) (ip' : String) :
    (h.add ip protocol port).portsAt ip' =
      if ip' = sanitizeIP ip then insert ⟨sanitizeProtocol protocol, port⟩ (h.portsAt ip') else h.portsAt ip' := by
  rw [add, if_neg hport]
  simp only [newProtocolPort_sanitize, portsAt]
  by_cases hip : ip' = sanitizeIP ip
  · subst hip
    rw [if_pos rfl]
    cases h.lookup (sanitizeIP ip) with
    | none | some => rw [Finmap.lookup_insert]; rfl
  · rw [if_neg hip]
    split <;> rw [Finmap.lookup_insert_of_ne _ hip]

theorem portsAt_remove (hport : ¬port ≤ 0) (ip' : String) :
    (h.remove ip protocol port).portsAt ip' =
      if ip' = sanitizeIP ip then (h.portsAt ip').erase ⟨sanitizeProtocol protocol, port⟩ else h.portsAt ip' := by
  rw [remove, if_neg hport]
  simp only [newProtocolPort_sanitize, portsAt]
  by_cases hip : ip' = sanitizeIP ip
  · subst hip
    cases hm : h.lookup (sanitizeIP ip) with
    | none => simp only [hm]; rfl
    | some =>
      -- an address without pairs is deleted, which reads the same as an empty set
      simp only [Option.getD_some]
      split_ifs with hempty
      · rw [Finmap.lookup_erase, hempty]
        rfl
      · rw [Finmap.lookup_insert]
        rfl
  · rw [if_neg hip]
    split
    · rfl
    · split_ifs
      · rw [Finmap.lookup_erase_ne hip]
      · rw [Finmap.lookup_insert_of_ne _ hip]

theorem triple?_eq_some {podPort : ContainerPort} (hport : ¬podPort.hostPort ≤ 0) (t : HostPort) :
    podPort.triple? = some t ↔ t.ip = sanitizeIP podPort.hostIP ∧ (⟨t.protocol, t.port⟩ : ProtocolPort) =
        ⟨sanitizeProtocol podPort.protocol, podPort.hostPort⟩ := by
  rw [triple?, if_neg hport, Option.some.injEq]
  constructor
  · rintro rfl
    exact ⟨rfl, rfl⟩
  · obtain ⟨_, _, _⟩ := t
    rintro ⟨rfl, hpair⟩
    cases hpair
    rfl

theorem has_add :
    (h.add podPort.hostIP podPort.protocol podPort.hostPort).Has t ↔ h.Has t ∨ podPort.triple? = some t := by
  by_cases hport : podPort.hostPort ≤ 0
  · rw [add, if_pos hport, triple?, if_pos hport]
    exact (or_iff_left (Option.some_ne_none t).symm).symm
  · rw [HostPortInfo.Has, portsAt_add h _ _ hport, triple?_eq_some hport, HostPortInfo.Has]
    split_ifs with hip
    · rw [Finset.mem_insert, or_comm]
      exact or_congr_right (and_iff_right hip).symm
    · exact (or_iff_left fun hboth => hip hboth.1).symm

theorem has_remove :
    (h.remove podPort.hostIP podPort.protocol podPort.hostPort).Has t ↔ h.Has t ∧ podPort.triple? ≠ some t := by
  by_cases hport : podPort.hostPort ≤ 0
  · rw [remove, if_pos hport, triple?, if_pos hport]
    exact (and_iff_left (Option.some_ne_none t).symm).symm
  · rw [HostPortInfo.Has, portsAt_remove h _ _ hport, ne_eq, triple?_eq_some hport, HostPortInfo.Has]
    split_ifs with hip
    · rw [Finset.mem_erase, and_comm]
      exact and_congr_right fun _ => not_congr (and_iff_right hip).symm
    · exact (and_iff_left fun hboth => hip hboth.1).symm

theorem has_updateUsedPorts_add (pod : Pod) (t : HostPort) :
    (updateUsedPorts h pod true).Has t ↔ h.Has t ∨ t ∈ pod.hostPorts := by
  rw [updateUsedPorts, Pod.hostPorts]
  generalize pod.containers.flatMap Container.ports = ports
  induction ports generalizing h with
  | nil => exact (or_iff_left not_mem_nil).symm
  | cons _ _ ih =>
    rw [foldl_cons, ih, if_pos rfl, has_add, or_assoc]
    simp only [mem_filterMap, mem_cons, exists_eq_or_imp]

theorem has_updateUsedPorts_remove (pod : Pod) (t : HostPort) :
    (updateUsedPorts h pod false).Has t ↔ h.Has t ∧ t ∉ pod.hostPorts := by
  rw [updateUsedPorts, Pod.hostPorts]
  generalize pod.containers.flatMap Container.ports = ports
  induction ports generalizing h with
  | nil => exact (and_iff_left not_mem_nil).symm
  | cons _ _ ih =>
    rw [foldl_cons, ih, if_neg Bool.false_ne_true, has_remove, and_assoc]
    simp only [mem_filterMap, mem_cons, exists_eq_or_imp, not_or, ne_eq]

theorem port_pos_of_mem_hostPorts {t : HostPort} (h : t ∈ pod.hostPorts) : ¬t.port ≤ 0 := by
  obtain ⟨_, _, htriple⟩ := mem_filterMap.mp h
  rw [triple?] at htriple
  split_ifs at htriple with hport
  cases htriple
  exact hport

/-! ### Conflicts -/

/-- The triple `t` is in the way of the port on the address: the addresses are the same, or one of
them stands for all addresses. -/
def HostPort.Blocks (port : Int32) : Prop :=
  t.protocol = sanitizeProtocol protocol ∧ t.port = port ∧
    (t.ip = sanitizeIP ip ∨ t.ip = defaultBindAllHostIP ∨ sanitizeIP ip = defaultBindAllHostIP)

theorem checkConflict_iff (hport : ¬port ≤ 0) :
    h.checkConflict ip protocol port = true ↔ ∃ t, h.Has t ∧ t.Blocks ip protocol port := by
  rw [checkConflict, if_neg hport]
  simp only [newProtocolPort_sanitize]
  -- what the loops look for, address by address
  have hHas : (∃ t, h.Has t ∧ t.Blocks ip protocol port) ↔ ∃ key, (key = sanitizeIP ip ∨ key = defaultBindAllHostIP ∨
        sanitizeIP ip = defaultBindAllHostIP) ∧
        (⟨sanitizeProtocol protocol, port⟩ : ProtocolPort) ∈ h.portsAt key := by
    constructor
    · rintro ⟨⟨key, _, _⟩, hhas, rfl, rfl, haddress⟩
      exact ⟨key, haddress, hhas⟩
    · rintro ⟨key, haddress, hhas⟩
      exact ⟨⟨key, _, _⟩, hhas, rfl, rfl, haddress⟩
  rw [hHas]
  split_ifs with hall
  · rw [decide_eq_true_eq]
    constructor
    · rintro ⟨key, _, hmem⟩
      exact ⟨key, .inr (.inr hall), hmem⟩
    · rintro ⟨key, _, hmem⟩
      refine ⟨key, ?_, hmem⟩
      rw [Finmap.mem_keys, GoMap.mem_iff_lookup_ne_none]
      intro hnone
      rw [portsAt, hnone] at hmem
      exact absurd hmem (Finset.notMem_empty _)
  · have hany : ∀ key, ((h.lookup key).any fun m =>
        decide ((⟨sanitizeProtocol protocol, port⟩ : ProtocolPort) ∈ m)) = true ↔
        (⟨sanitizeProtocol protocol, port⟩ : ProtocolPort) ∈ h.portsAt key := by
      intro key
      rw [portsAt]
      cases h.lookup key <;> simp
    simp only [any_cons, any_nil, Bool.or_false, Bool.or_eq_true, hany, hall, or_false]
    constructor
    · rintro (hmem | hmem)
      · exact ⟨_, .inr rfl, hmem⟩
      · exact ⟨_, .inl rfl, hmem⟩
    · rintro ⟨key, rfl | rfl, hmem⟩
      · exact .inr hmem
      · exact .inl hmem

/-! ### The pods of a node -/

def PortsOfPods (n : NodeInfo) : Prop := ∀ t, n.usedPorts.Has t ↔ ∃ pod ∈ n.pods, t ∈ pod.hostPorts

theorem portsOfPods_new (generation : Int64) : PortsOfPods (newNodeInfo generation) := by
  intro t
  refine iff_of_false (Finset.notMem_empty _) ?_
  rintro ⟨_, hpod, _⟩
  cases hpod

theorem PortsOfPods.addPod (h : PortsOfPods n) (pod : Pod) (generation : Int64) :
    PortsOfPods (n.addPod pod generation) := by
  intro t
  rw [pods_addPod]
  refine (has_updateUsedPorts_add n.usedPorts pod t).trans ?_
  simp only [h t, mem_append, mem_singleton, or_and_right, exists_or, exists_eq_left]

/-- The pod that a removal deletes is the only one to have the ports that the removal releases, and
those that it does not release are in use by another pod. -/
def ReleasesOwn (n : NodeInfo) (pod : Pod) : Prop :=
  ∀ found ∈ n.pods.find? (hasKey pod.uid), (∀ other ∈ n.pods.erase found, ∀ t ∈ pod.hostPorts, t ∉ other.hostPorts) ∧
    ∀ t ∈ found.hostPorts, t ∈ pod.hostPorts ∨ ∃ other ∈ n.pods.erase found, t ∈ other.hostPorts

instance releasesOwnDecidable (n : NodeInfo) (pod : Pod) : Decidable (ReleasesOwn n pod) :=
  inferInstanceAs (Decidable (∀ found ∈ n.pods.find? (hasKey pod.uid), _ ∧ _))

theorem removePod_present (hpres : ∃ other ∈ n.pods, other.uid = pod.uid) (generation : Int64) :
    (n.removePod pod generation).state? = some n ∧ n.pods.find? (hasKey pod.uid) = none ∨
    ∃ found rest, n.pods.find? (hasKey pod.uid) = some found ∧ n.pods.Perm (found :: rest) ∧
      (n.removePod pod generation).state? = some (subtractPod { n with
        podsWithAffinity := dropKey pod.uid n.podsWithAffinity, pods := rest }
        pod generation) := by
  by_cases hkey : pod.uid = ""
  · refine .inl ⟨by rw [removePod, getPodKey, if_pos hkey]; rfl, ?_⟩
    rw [List.find?_eq_none]
    intro other _
    rw [hasKey, getPodKey, hkey]
    split_ifs with hother
    · exact not_false
    · exact fun hbeq => hother (beq_iff_eq.mp hbeq).symm
  · obtain ⟨other, hother, huid⟩ := hpres
    obtain ⟨found, rest, hrem, _, hperm⟩ := exists_removeFirst_hasKey hkey hother huid
    refine .inr ⟨found, rest, find?_of_removeFirst hrem, hperm, ?_⟩
    rw [removePod_found hkey hrem]
    rfl

theorem PortsOfPods.removePod_iff {n' : NodeInfo} (h : PortsOfPods n)
    (hpres : ∃ other ∈ n.pods, other.uid = pod.uid) {generation : Int64}
    (hstate : (n.removePod pod generation).state? = some n') : PortsOfPods n' ↔ ReleasesOwn n pod := by
  rcases removePod_present hpres generation with ⟨hsame, hnone⟩ | ⟨found, rest, hfind, hperm, hok⟩
  · obtain rfl : n = _ := Option.some.inj (hsame.symm.trans hstate)
    refine iff_of_true h ?_
    rw [ReleasesOwn, hnone]
    rintro _ ⟨⟩
  · obtain rfl := Option.some.inj (hok.symm.trans hstate)
    have herase : ∀ q, q ∈ n.pods.erase found ↔ q ∈ rest := by
      intro q
      have hrest := hperm.erase found
      rw [erase_cons_head] at hrest
      exact hrest.mem_iff
    have hused : ∀ t, (updateUsedPorts n.usedPorts pod false).Has t ↔
        (t ∈ found.hostPorts ∨ ∃ q ∈ rest, t ∈ q.hostPorts) ∧ t ∉ pod.hostPorts := by
      intro t
      rw [has_updateUsedPorts_remove, h t]
      simp only [hperm.mem_iff, mem_cons, exists_eq_or_imp]
    rw [ReleasesOwn, hfind]
    simp only [Option.mem_some_iff, forall_eq', herase]
    constructor
    · intro hafter
      have hboth : ∀ t, (t ∈ found.hostPorts ∨ ∃ q ∈ rest, t ∈ q.hostPorts) ∧ t ∉ pod.hostPorts ↔
          ∃ q ∈ rest, t ∈ q.hostPorts := fun t => (hused t).symm.trans (hafter t)
      constructor
      · intro q hq t ht hqt
        exact ((hboth t).mpr ⟨q, hq, hqt⟩).2 ht
      · intro t ht
        by_cases hpod : t ∈ pod.hostPorts
        · exact .inl hpod
        · exact .inr ((hboth t).mp ⟨.inl ht, hpod⟩)
    · rintro ⟨hown, hleft⟩ t
      refine (hused t).trans ⟨?_, ?_⟩
      · rintro ⟨hfound | hrest, hpod⟩
        · exact (hleft t hfound).resolve_left hpod
        · exact hrest
      · rintro ⟨q, hq, hqt⟩
        exact ⟨.inr ⟨q, hq, hqt⟩, fun hpod => hown q hq t hpod hqt⟩

/-! ### Runs -/

inductive PortOp where
  | addPod (pod : Pod) (generation : Int64)
  | removePod (pod : Pod) (generation : Int64)

namespace PortOp
variable (n)

def present : PortOp → Prop
  | addPod _ _ => True
  | removePod pod _ => ∃ other ∈ n.pods, other.uid = pod.uid

def next : PortOp → NodeInfo
  | addPod pod generation => n.addPod pod generation
  | removePod pod generation => (n.removePod pod generation).state?.getD n

def releasesOwn : PortOp → Prop
  | addPod _ _ => True
  | removePod pod _ => ReleasesOwn n pod

variable {n}

instance presentDecidable (n : NodeInfo) (op : PortOp) : Decidable (op.present n) := by
  cases op <;> dsimp only [present] <;> infer_instance

instance releasesOwnDecidable (n : NodeInfo) (op : PortOp) : Decidable (op.releasesOwn n) := by
  cases op <;> dsimp only [releasesOwn] <;> infer_instance

end PortOp

def portSystem : System NodeInfo PortOp := System.ofFun (fun n op => op.present n) PortOp.next

def ownPortSystem : System NodeInfo PortOp :=
  System.ofFun (fun n op => op.present n ∧ op.releasesOwn n) PortOp.next

theorem PortsOfPods.step {n' : NodeInfo} {op : PortOp} (hstep : ownPortSystem.step n op n')
    (h : PortsOfPods n) : PortsOfPods n' := by
  obtain ⟨⟨hpres, hown⟩, rfl⟩ := hstep
  cases op with
  | addPod pod generation => exact h.addPod pod generation
  | removePod pod generation =>
    have hsome : (n.removePod pod generation).state? = some (PortOp.next n (.removePod pod generation)) := by
      rcases removePod_present hpres generation with ⟨hsame, _⟩ | ⟨_, _, _, _, hok⟩
      · rw [PortOp.next, hsame]; rfl
      · rw [PortOp.next, hok]; rfl
    exact (h.removePod_iff hpres hsome).mpr hown

/-- **As long as no removal releases a port that another pod has too, the ports in use are those of
the pods, and a port conflicts exactly if a pod has it on the same address or one of the addresses
stands for all.** -/
theorem usedPorts_of_pods {generation : Int64} {ops : List PortOp} {n : NodeInfo}
    (hrun : ownPortSystem.Run (newNodeInfo generation) ops n) :
    (∀ t, n.usedPorts.Has t ↔ ∃ pod ∈ n.pods, t ∈ pod.hostPorts) ∧
    ∀ ip protocol port, n.usedPorts.checkConflict ip protocol port = true ↔
      ∃ pod ∈ n.pods, ∃ t ∈ pod.hostPorts, t.Blocks ip protocol port := by
  have h : PortsOfPods n :=
    hrun.invariant PortsOfPods (fun _ _ _ => PortsOfPods.step) (portsOfPods_new generation)
  refine ⟨h, fun _ _ port => ?_⟩
  by_cases hport : port ≤ 0
  · rw [checkConflict, if_pos hport]
    refine iff_of_false Bool.false_ne_true ?_
    rintro ⟨pod, _, t, ht, _, rfl, _⟩
    exact port_pos_of_mem_hostPorts ht hport
  · rw [checkConflict_iff _ _ _ hport]
    constructor
    · rintro ⟨t, hhas, hblocks⟩
      obtain ⟨pod, hpod, ht⟩ := (h t).mp hhas
      exact ⟨pod, hpod, t, ht, hblocks⟩
    · rintro ⟨pod, hpod, t, ht, hblocks⟩
      exact ⟨t, (h t).mpr ⟨pod, hpod, ht⟩, hblocks⟩

def portPod (uid : String) (ports : List ContainerPort) : Pod :=
  { name := uid, uid, nodeName := "a", affinity := none, initContainers := []
    containers := [{ requests := .empty, ports }] }

def webPort : ContainerPort := { hostIP := "", protocol := "", hostPort := 80 }
def dnsPort : ContainerPort := { hostIP := "10.0.0.1", protocol := "UDP", hostPort := 53 }

def separatePorts : List PortOp :=
  [.addPod (portPod "web" [webPort, webPort]) 1, .addPod (portPod "dns" [dnsPort]) 2,
    .removePod (portPod "web" [webPort, webPort]) 3]

theorem usedPorts_of_pods_separate :
    let n := separatePorts.foldl PortOp.next (newNodeInfo 0)
    ownPortSystem.Run (newNodeInfo 0) separatePorts n ∧ (∀ t, n.usedPorts.Has t ↔ ∃ pod ∈ n.pods, t ∈ pod.hostPorts) ∧
      n.usedPorts.checkConflict "0.0.0.0" "UDP" 53 = true := by
  have hrun : ownPortSystem.Run (newNodeInfo 0) separatePorts
      (separatePorts.foldl PortOp.next (newNodeInfo 0)) := System.run_foldl (by decide)
  obtain ⟨hports, hconflict⟩ := usedPorts_of_pods hrun
  refine ⟨hrun, hports, (hconflict _ _ _).mpr ?_⟩
  exact ⟨portPod "dns" [dnsPort], by decide, ⟨"10.0.0.1", "UDP", 53⟩, by decide, rfl, rfl, .inr (.inr rfl)⟩

def sharedPort : List PortOp :=
  [.addPod (portPod "x" [webPort]) 1, .addPod (portPod "y" [webPort]) 2, .removePod (portPod "x" [webPort]) 3]

/-- The port of the pod that stays is free. -/
theorem usedPorts_shared_released :
    let n := sharedPort.foldl PortOp.next (newNodeInfo 0)
    portSystem.Run (newNodeInfo 0) sharedPort n ∧ n.pods = [portPod "y" [webPort]] ∧
      ⟨"0.0.0.0", "TCP", 80⟩ ∈ (portPod "y" [webPort]).hostPorts ∧
      ¬n.usedPorts.Has ⟨"0.0.0.0", "TCP", 80⟩ ∧ n.usedPorts.checkConflict "0.0.0.0" "TCP" 80 = false := by
  refine ⟨System.run_foldl (by decide), by decide, by decide, ?_, by decide⟩
  show ¬_ ∈ _
  decide

end LeanKube.Scheduler
