import LeanKube.GoMap

/-! Resource amounts of the scheduler: the resource lists of the API, the names that count as
scalar resources, and the `Resource` totals that lists are added to. All sums are `int64` sums and
wrap around. -/

namespace LeanKube.Scheduler

/-- A `resource.Quantity`: a number `value * 10 ^ scale`, or one that does not fit there, which `ParseQuantity` rounds
to billionths. -/
inductive Quantity where
  | int64Amount (value : Int64) (scale : Int)
  | infDecAmount (nanos : Int)
deriving DecidableEq

namespace Quantity

/-- The unscaled number and the power of ten of a quantity. -/
def unscaled : Quantity → Int × Int
  | int64Amount value scale => (value.toInt, scale)
  | infDecAmount nanos => (nanos, -9)

variable (q : Quantity) (scale : Int)

/-- The quantity in units of `10 ^ scale`; what is not a whole number is rounded away from zero. -/
def exact : Int :=
  if q.unscaled.2 < scale then
    let unit := 10 ^ (scale - q.unscaled.2).toNat
    q.unscaled.1.sign * ((q.unscaled.1.natAbs + (unit - 1)) / unit : Nat)
  else q.unscaled.1 * 10 ^ (q.unscaled.2 - scale).toNat

/-- `ScaledValue` for a scale above `-9`, which ignores an overflow. -/
def scaledValue : Int64 :=
  match q with
  | int64Amount _ qScale =>
    -- some powers of ten are multiplied in one step, and what is left of the product is returned
    if q.exact scale = (q.exact scale).bmod (2 ^ 64) ∨ qScale - scale ∈ [1, 2, 3, 6, 9] then Int64.ofInt (q.exact scale)
    else 0
  | infDecAmount nanos =>
    if nanos < 0 then
      let unit := Int64.ofInt (10 ^ (scale + 9).toNat)
      Int64.ofInt nanos / unit + if Int64.ofInt nanos % unit = 0 then 0 else 1
    else Int64.ofInt (q.exact scale)

def value : Int64 := q.scaledValue 0

def milliValue : Int64 := q.scaledValue (-3)

variable {q scale}

theorem exact_nonneg (h : 0 ≤ q.unscaled.1) (scale : Int) : 0 ≤ q.exact scale := by
  unfold exact
  split_ifs
  · exact Int.mul_nonneg (Int.sign_nonneg_iff.mpr h) (Int.natCast_nonneg _)
  · exact Int.mul_nonneg h (Int.le_of_lt (Int.pow_pos (by decide)))

/-- Of a quantity that is not negative, `ScaledValue` is the exact amount as an `int64`, or 0 if it does not fit. -/
theorem scaledValue_of_nonneg (h : 0 ≤ q.unscaled.1) : q.scaledValue scale = Int64.ofInt (q.exact scale) ∨
    q.scaledValue scale = 0 ∧ q.exact scale ≠ (q.exact scale).bmod (2 ^ 64) := by
  cases q with
  | int64Amount =>
    rw [scaledValue]
    split_ifs with hkept
    · exact .inl rfl
    · exact .inr ⟨rfl, fun heq => hkept (.inl heq)⟩
  | infDecAmount => exact .inl (if_neg (Int.not_lt.mpr h))

/-- A quantity that is not negative and fits is read exactly. -/
theorem toInt_scaledValue (h : 0 ≤ q.unscaled.1) (hfits : q.exact scale < 2 ^ 63) :
    (q.scaledValue scale).toInt = q.exact scale := by
  have hbmod : (q.exact scale).bmod (2 ^ 64) = q.exact scale := by
    have hnn := exact_nonneg h scale
    rw [Int.bmod_def]
    omega
  rcases scaledValue_of_nonneg h with heq | ⟨_, hne⟩
  · rw [heq, Int64.toInt_ofInt]
    exact hbmod
  · exact absurd hbmod.symm hne

/-- An overflow makes an amount smaller. -/
theorem toInt_scaledValue_le (h : 0 ≤ q.unscaled.1) : (q.scaledValue scale).toInt ≤ q.exact scale := by
  have hnn := exact_nonneg h scale
  rcases scaledValue_of_nonneg h with heq | ⟨heq, _⟩
  · rw [heq, Int64.toInt_ofInt, Int.bmod_def, Int64.size]
    omega
  · rw [heq]
    exact hnn

end Quantity

/-- A resource list in the order in which a loop ranges over it. -/
structure ResourceList where
  entries : List (String × Quantity)
  nodup : (entries.map Prod.fst).Nodup
deriving DecidableEq

def ResourceList.empty : ResourceList := ⟨[], List.nodup_nil⟩

def ResourceList.find? (rl : ResourceList) (rName : String) : Option Quantity :=
  (rl.entries.find? fun entry => entry.1 = rName).map Prod.snd

/-! ### Resource names -/

def resourceCPU : String := "cpu"
def resourceMemory : String := "memory"
def resourcePods : String := "pods"
def resourceEphemeralStorage : String := "ephemeral-storage"
def resourceDefaultNamespacePrefix : String := "kubernetes.io/"
def resourceHugePagesPrefix : String := "hugepages-"
def resourceAttachableVolumesPrefix : String := "attachable-volumes-"
def defaultResourceRequestsPrefix : String := "requests."

def isLowerAlphanumeric (c : Char) : Bool := ('a' ≤ c && c ≤ 'z') || ('0' ≤ c && c ≤ '9')

def isAlphanumeric (c : Char) : Bool := isLowerAlphanumeric c || ('A' ≤ c && c ≤ 'Z')

/-- The regular expression `(first ext*)?first`, for a class `first` within a class `ext`. -/
def matchesDelimited (first ext : Char → Bool) (text : List Char) : Bool :=
  text.all ext && text.head?.any first && text.getLast?.any first

def dns1123SubdomainMaxLength : Nat := 253

variable (value : List Char)

/-- `IsDNS1123Subdomain`: labels of lower case letters, digits and inner dashes. -/
def isDNS1123Subdomain : Bool :=
  decide (value.length ≤ dns1123SubdomainMaxLength) &&
    (value.splitOn '.').all
      (matchesDelimited isLowerAlphanumeric fun c => isLowerAlphanumeric c || c = '-')

def qualifiedNameMaxLength : Nat := 63

/-- The name part of a qualified name. -/
def isNamePart (name : List Char) : Bool :=
  decide (name.length ≤ qualifiedNameMaxLength) &&
    matchesDelimited isAlphanumeric
      (fun c => isAlphanumeric c || c = '-' || c = '_' || c = '.') name

/-- `IsQualifiedName`: a name, with or without a domain. -/
def isQualifiedName : Bool :=
  match value.splitOn '/' with
  | [name] => isNamePart name
  | [domain, name] => isDNS1123Subdomain domain && isNamePart name
  | _ => false

variable (name : String)

/-- `IsPrefixedNativeResource`, which looks for the domain anywhere in the name. -/
def isPrefixedNativeResource : Bool :=
  decide (resourceDefaultNamespacePrefix.toList <:+: name.toList)

def isNativeResource : Bool := !name.toList.contains '/' || isPrefixedNativeResource name

/-- `IsExtendedResourceName`: a name that can be a quota for requests, of a domain of its own. -/
def isExtendedResourceName : Bool :=
  if isNativeResource name || defaultResourceRequestsPrefix.toList.isPrefixOf name.toList then
    false
  else
    isQualifiedName (defaultResourceRequestsPrefix.toList ++ name.toList)

def isHugePageResourceName : Bool := resourceHugePagesPrefix.toList.isPrefixOf name.toList

def isAttachableVolumeResourceName : Bool :=
  resourceAttachableVolumesPrefix.toList.isPrefixOf name.toList

/-- `IsScalarResourceName`: the names that are counted in `ScalarResources`. -/
def isScalarResourceName : Bool :=
  isExtendedResourceName name || isHugePageResourceName name ||
    isPrefixedNativeResource name || isAttachableVolumeResourceName name

/-! ### Totals -/

/-- `Resource`: amounts that are compared and added as integers. -/
structure Resource where
  milliCPU : Int64 := 0
  memory : Int64 := 0
  ephemeralStorage : Int64 := 0
  allowedPodNumber : Int64 := 0
  scalarResources : GoMap String Int64 := ∅
deriving DecidableEq

variable (r : Resource)

def Resource.scalar : Int64 := (r.scalarResources.lookup name).getD 0

variable (quantity : Int64)

def Resource.setScalar : Resource :=
  { r with scalarResources := r.scalarResources.insert name quantity }

def Resource.addScalar : Resource :=
  r.setScalar name (r.scalar name + quantity)

variable (entry : String × Quantity)

/-- One turn of `Add`. A name that is not counted is passed. -/
def Resource.addEntry : Resource :=
  if entry.1 = resourceCPU then
    { r with milliCPU := r.milliCPU + entry.2.milliValue }
  else if entry.1 = resourceMemory then
    { r with memory := r.memory + entry.2.value }
  else if entry.1 = resourcePods then
    { r with allowedPodNumber := r.allowedPodNumber + entry.2.value }
  else if entry.1 = resourceEphemeralStorage then
    { r with ephemeralStorage := r.ephemeralStorage + entry.2.value }
  else if isScalarResourceName entry.1 then
    r.addScalar entry.1 entry.2.value
  else
    r

def Resource.add (rl : ResourceList) : Resource := rl.entries.foldl Resource.addEntry r

def newResource (rl : ResourceList) : Resource := Resource.add {} rl

/-- One turn of `SetMaxResource`, which passes the number of pods. -/
def Resource.setMaxEntry : Resource :=
  if entry.1 = resourceMemory then
    if entry.2.value > r.memory then { r with memory := entry.2.value } else r
  else if entry.1 = resourceCPU then
    if entry.2.milliValue > r.milliCPU then { r with milliCPU := entry.2.milliValue } else r
  else if entry.1 = resourceEphemeralStorage then
    if entry.2.value > r.ephemeralStorage then
      { r with ephemeralStorage := entry.2.value }
    else
      r
  else if isScalarResourceName entry.1 then
    if entry.2.value > r.scalar entry.1 then r.setScalar entry.1 entry.2.value else r
  else
    r

def Resource.setMaxResource (rl : ResourceList) : Resource :=
  rl.entries.foldl Resource.setMaxEntry r

def defaultMilliCPURequest : Int64 := 100
def defaultMemoryRequest : Int64 := 200 * 1024 * 1024

/-- `GetNonzeroRequests`: a resource that is not requested counts with a default. -/
def getNonzeroRequests (requests : ResourceList) : Int64 × Int64 :=
  ((requests.find? resourceCPU).elim defaultMilliCPURequest Quantity.milliValue,
    (requests.find? resourceMemory).elim defaultMemoryRequest Quantity.value)

/-! ### One dimension at a time -/

/-- What is compared when a pod is fitted to a node. -/
inductive Dimension where
  | milliCPU
  | memory
  | ephemeralStorage
  | scalar (name : String)
deriving DecidableEq

namespace Dimension

def resourceName : Dimension → String
  | milliCPU => resourceCPU
  | memory => resourceMemory
  | ephemeralStorage => resourceEphemeralStorage
  | scalar name => name

/-- The power of ten in which the amounts of the dimension are counted. -/
def scale : Dimension → Int
  | milliCPU => -3
  | _ => 0

def measure (d : Dimension) (quantity : Quantity) : Int64 := quantity.scaledValue d.scale

end Dimension

/-- The dimension in which a resource name is counted. -/
def dimension? (rName : String) : Option Dimension :=
  if rName = resourceCPU then some .milliCPU
  else if rName = resourceMemory then some .memory
  else if rName = resourceEphemeralStorage then some .ephemeralStorage
  else if isScalarResourceName rName then some (.scalar rName)
  else none

theorem resourceName_of_dimension? {rName : String} {d : Dimension}
    (h : dimension? rName = some d) : d.resourceName = rName := by
  unfold dimension? at h
  split_ifs at h with hcpu hmem hstor
  · cases h; exact hcpu.symm
  · cases h; exact hmem.symm
  · cases h; exact hstor.symm
  · cases h; rfl

def Resource.amount : Dimension → Int64
  | .milliCPU => r.milliCPU
  | .memory => r.memory
  | .ephemeralStorage => r.ephemeralStorage
  | .scalar name => r.scalar name

@[simp] theorem amount_empty (d : Dimension) : Resource.amount {} d = 0 := by
  cases d <;> rfl

variable (r : Resource) (entry : String × Quantity) (rl : ResourceList) (d : Dimension)

theorem amount_setScalar (d : Dimension) :
    (r.setScalar name quantity).amount d = if d = .scalar name then quantity else r.amount d := by
  cases d with
  | scalar name' =>
    have hlookup := GoMap.lookup_insert_ite r.scalarResources name name' quantity
    simp only [Resource.amount, Resource.scalar, Resource.setScalar, hlookup, Dimension.scalar.injEq]
    split_ifs <;> rfl
  | _ => rfl

/-- An entry is added in its own dimension. -/
theorem amount_addEntry : (r.addEntry entry).amount d =
      if dimension? entry.1 = some d then r.amount d + d.measure entry.2 else r.amount d := by
  unfold Resource.addEntry dimension?
  by_cases hcpu : entry.1 = resourceCPU
  · simp only [if_pos hcpu]
    cases d <;> rfl
  by_cases hmem : entry.1 = resourceMemory
  · simp only [if_neg hcpu, if_pos hmem]
    cases d <;> rfl
  by_cases hpods : entry.1 = resourcePods
  · rw [hpods]
    cases d <;> rfl
  by_cases hstor : entry.1 = resourceEphemeralStorage
  · simp only [if_neg hcpu, if_neg hmem, if_neg hpods, if_pos hstor]
    cases d <;> rfl
  simp only [if_neg hcpu, if_neg hmem, if_neg hpods, if_neg hstor]
  by_cases hscalar : isScalarResourceName entry.1
  · rw [if_pos hscalar, if_pos hscalar, Resource.addScalar, amount_setScalar]
    by_cases hd : d = .scalar entry.1
    · subst hd
      rw [if_pos rfl, if_pos rfl]
      rfl
    · rw [if_neg hd, if_neg fun h => hd (Option.some.inj h).symm]
  · rw [if_neg hscalar, if_neg hscalar]
    rfl

theorem ite_gt_eq_max (total quantity : Int64) :
    (if quantity > total then quantity else total) = max total quantity := by
  have hmax : max total quantity = if total ≤ quantity then quantity else total := rfl
  split_ifs <;> grind

/-- An entry is a maximum in its own dimension. -/
theorem amount_setMaxEntry : (r.setMaxEntry entry).amount d =
      if dimension? entry.1 = some d then max (r.amount d) (d.measure entry.2) else r.amount d := by
  unfold Resource.setMaxEntry dimension?
  by_cases hmem : entry.1 = resourceMemory
  · have hcpu : entry.1 ≠ resourceCPU := by rw [hmem]; decide
    rw [if_pos hmem, if_neg hcpu, if_pos hmem, apply_ite (fun r => Resource.amount r d)]
    cases d with
    | memory => exact ite_gt_eq_max r.memory entry.2.value
    | _ => exact ite_self _
  by_cases hcpu : entry.1 = resourceCPU
  · rw [if_neg hmem, if_pos hcpu, if_pos hcpu, apply_ite (fun r => Resource.amount r d)]
    cases d with
    | milliCPU => exact ite_gt_eq_max r.milliCPU entry.2.milliValue
    | _ => exact ite_self _
  rw [if_neg hmem, if_neg hmem, if_neg hcpu, if_neg hcpu]
  by_cases hstor : entry.1 = resourceEphemeralStorage
  · rw [if_pos hstor, if_pos hstor, apply_ite (fun r => Resource.amount r d)]
    cases d with
    | ephemeralStorage => exact ite_gt_eq_max r.ephemeralStorage entry.2.value
    | _ => exact ite_self _
  rw [if_neg hstor, if_neg hstor]
  by_cases hscalar : isScalarResourceName entry.1
  · rw [if_pos hscalar, if_pos hscalar, apply_ite (fun r => Resource.amount r d), amount_setScalar]
    by_cases hd : d = .scalar entry.1
    · subst hd
      rw [if_pos rfl, if_pos rfl]
      exact ite_gt_eq_max (r.scalar entry.1) entry.2.value
    · rw [if_neg hd, if_neg fun h => hd (Option.some.inj h).symm, ite_self]
  · rw [if_neg hscalar, if_neg hscalar]
    rfl

/-- The quantity that a list has for a dimension. -/
def ResourceList.quantity? (rl : ResourceList) (d : Dimension) : Option Quantity :=
  (rl.entries.find? fun entry => dimension? entry.1 = some d).map Prod.snd

def ResourceList.amount? (rl : ResourceList) (d : Dimension) : Option Int64 := (rl.quantity? d).map d.measure

/-- A list acts on a dimension by the one entry that the list has for it. -/
theorem amount_foldl {step : Resource → String × Quantity → Resource} {combine : Int64 → Int64 → Int64} {d : Dimension}
    (hstep : ∀ r entry, (step r entry).amount d =
      if dimension? entry.1 = some d then combine (r.amount d) (d.measure entry.2)
      else r.amount d) (rl : ResourceList) (r : Resource) :
    (rl.entries.foldl step r).amount d = (rl.amount? d).elim (r.amount d) (combine (r.amount d)) := by
  obtain ⟨entries, hnodup⟩ := rl
  unfold ResourceList.amount? ResourceList.quantity?
  induction entries generalizing r with
  | nil => rfl
  | cons entry rest ih =>
    rw [List.map_cons, List.nodup_cons] at hnodup
    rw [List.foldl_cons, ih _ hnodup.2, hstep, List.find?_cons]
    by_cases hent : dimension? entry.1 = some d
    · -- the names of the rest are other names, hence of other dimensions
      have hrest : (rest.find? fun entry => dimension? entry.1 = some d) = none := by
        rw [List.find?_eq_none]
        intro other hother hd
        have hname := (resourceName_of_dimension? hent).symm.trans (resourceName_of_dimension? (of_decide_eq_true hd))
        exact hnodup.1 (hname ▸ List.mem_map_of_mem hother)
      rw [hrest, if_pos hent, decide_eq_true hent]
      rfl
    · rw [if_neg hent, decide_eq_false hent]

theorem amount_add : (r.add rl).amount d = (rl.amount? d).elim (r.amount d) (r.amount d + ·) :=
  amount_foldl (fun r entry => amount_addEntry r entry d) rl r

theorem amount_setMaxResource : (r.setMaxResource rl).amount d = (rl.amount? d).elim (r.amount d) (max (r.amount d)) :=
  amount_foldl (fun r entry => amount_setMaxEntry r entry d) rl r

end LeanKube.Scheduler
