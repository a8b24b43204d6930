import LeanKube.RbacEscalation
import Mathlib.Algebra.Order.BigOperators.Group.List
import Mathlib.Algebra.Order.Ring.Nat

/-! `Covers` reports no right as missing that the owner holds: a part of a servant rule has a request that only an owner
rule covering the whole part can allow. Where the part has a wildcard, the request has a text longer than any text of
the owner rules. -/

namespace LeanKube.Rbac
open List GoStrings Bool

def rulesAllow (requestAttributes : Attributes) (rules : List PolicyRule) : Bool :=
  rules.any (ruleAllows requestAttributes)

def PolicyRule.Unmixed (rule : PolicyRule) : Prop :=
  rule.nonResourceURLs = [] ∨ rule.apiGroups = [] ∧ rule.resources = [] ∧ rule.resourceNames = []

structure PolicyRule.Below (rule : PolicyRule) (n : Nat) : Prop where
  verbs : ∀ s ∈ rule.verbs, s.length < n
  apiGroups : ∀ s ∈ rule.apiGroups, s.length < n
  resources : ∀ s ∈ rule.resources, s.length < n
  resourceNames : ∀ s ∈ rule.resourceNames, s.length < n
  nonResourceURLs : ∀ s ∈ rule.nonResourceURLs, s.length < n

theorem exists_length_lt (l : List String) : ∃ n, ∀ s ∈ l, s.length < n :=
  ⟨(l.map String.length).sum + 1, fun _ hs => Nat.lt_succ_of_le (le_sum_of_mem (mem_map_of_mem hs))⟩

theorem exists_below (rules : List PolicyRule) : ∃ n, ∀ rule ∈ rules, rule.Below n := by
  let texts (rule : PolicyRule) :=
    rule.verbs ++ rule.apiGroups ++ rule.resources ++ rule.resourceNames ++ rule.nonResourceURLs
  obtain ⟨n, hn⟩ := exists_length_lt (rules.flatMap texts)
  have htexts {rule : PolicyRule} (hrule : rule ∈ rules) {s : String} (hs : s ∈ texts rule) : s.length < n :=
    hn s (mem_flatMap.mpr ⟨rule, hrule, hs⟩)
  exact ⟨n, fun rule hrule => by constructor <;> intro s hs <;> exact htexts hrule (by simp [texts, hs])⟩

/-! ### The request for a part -/

def fresh (n : Nat) : String := String.ofList (List.replicate n 'a')

def probe (n : Nat) (s : String) : String := if s = "*" then fresh n else s

def resourceOf (resource : String) : String := String.ofList (resource.toList.takeWhile (· ≠ '/'))

def probePath (n : Nat) (url : String) : String :=
  if hasSuffix url "*" then url ++ String.ofList (List.replicate n '*') else url

variable {n : Nat} {s resource url : String} {l : List String} {owner : PolicyRule}

theorem length_fresh (n : Nat) : (fresh n).length = n := by
  rw [fresh, ← String.length_toList, String.toList_ofList, length_replicate]

theorem fresh_notMem (hl : ∀ s ∈ l, s.length < n) : fresh n ∉ l := fun h =>
  absurd (hl _ h) (by rw [length_fresh]; exact lt_irrefl n)

theorem has_of_any_probe (hl : ∀ s ∈ l, s.length < n) (h : l.any fun t => t = "*" || t = probe n s) :
    has l "*" || hasAll l [s] := by
  obtain ⟨t, ht, h⟩ := any_eq_true.mp h
  rw [or_eq_true, has_iff, hasAll_iff]
  rw [or_eq_true, decide_eq_true_eq, decide_eq_true_eq, probe] at h
  rcases h with rfl | rfl
  · exact .inl ht
  · split_ifs at ht with hs
    · exact absurd ht (fresh_notMem hl)
    · exact .inr (by simpa using ht)

theorem any_probe (hs : s ∈ l) : l.any fun t => t = "*" || t = probe n s := by
  refine any_eq_true.mpr ⟨s, hs, ?_⟩
  by_cases hall : s = "*" <;> simp [probe, hall]

theorem slash_notMem_probe (n : Nat) (resource : String) : '/' ∉ (probe n (resourceOf resource)).toList := by
  rw [probe]
  split_ifs
  · simp [fresh, mem_replicate]
  · rw [resourceOf, String.toList_ofList]
    exact fun h => by simpa using mem_takeWhile_imp h

theorem resourceOf_append (h : '/' ∈ resource.toList) :
    resourceOf resource ++ "/" ++ afterFirst resource '/' = resource := by
  obtain ⟨front, _, hsplit, hfront⟩ := eq_append_cons_of_mem h
  have hstop : ∀ c ∈ front, (c ≠ '/') := fun c hc hslash => hfront (hslash ▸ hc)
  rw [← String.toList_inj]
  simp only [resourceOf, afterFirst, String.toList_append, String.toList_ofList, hsplit]
  rw [takeWhile_append_of_pos (by simpa using hstop), dropWhile_append_of_pos (by simpa using hstop)]
  simp

theorem resourceOf_eq_self (h : '/' ∉ resource.toList) :
    resourceOf resource = resource ∧ afterFirst resource '/' = "" := by
  have hstop : ∀ c ∈ resource.toList, (c ≠ '/') := fun c hc hslash => h (hslash ▸ hc)
  constructor
  · rw [resourceOf, takeWhile_eq_self_iff.mpr (by simpa using hstop), String.ofList_toList]
  · rw [afterFirst, dropWhile_eq_nil_iff.mpr (by simpa using hstop)]
    rfl

def resourceProbe (n : Nat) (group resource verb name : String) : Attributes where
  user := { name := "" }
  verb := probe n verb
  apiGroup := probe n group
  resource := probe n (resourceOf resource)
  subresource := afterFirst resource '/'
  name := name

variable {group verb name : String} {names : List String} (n group verb name) in
theorem combinedResource_resourceProbe (hsub : '/' ∈ resource.toList → afterFirst resource '/' ≠ "") :
    resourceOf resource = "*" ∧ n ≤ (resourceProbe n group resource verb name).combinedResource.length ∨
      (resourceProbe n group resource verb name).combinedResource = resource := by
  have hlen : (fresh n).length = n := length_fresh n
  by_cases hslash : '/' ∈ resource.toList
  · have hpos : 0 < (afterFirst resource '/').length :=
      Nat.pos_of_ne_zero fun h => hsub hslash (String.length_eq_zero_iff.mp h)
    simp only [resourceProbe, Attributes.combinedResource, gt_iff_lt, if_pos hpos, probe]
    split_ifs with hall
    · exact .inl ⟨hall, by rw [String.length_append, String.length_append, hlen]; omega⟩
    · exact .inr (resourceOf_append hslash)
  · obtain ⟨hself, hempty⟩ := resourceOf_eq_self hslash
    simp only [resourceProbe, Attributes.combinedResource, hself, hempty, probe]
    rw [if_neg (by decide)]
    split_ifs with hall
    · exact .inl ⟨hall, hlen.ge⟩
    · exact .inr rfl

variable {rule : PolicyRule}

theorem resourceMatches_resourceProbe (hsub : '/' ∈ resource.toList → afterFirst resource '/' ≠ "")
    (hrule : resource ∈ rule.resources) : resourceMatches rule
      (resourceProbe n group resource verb name).combinedResource (afterFirst resource '/') := by
  rw [resourceMatches_iff]
  rcases combinedResource_resourceProbe n group verb name hsub with ⟨hall, -⟩ | heq
  · by_cases hslash : '/' ∈ resource.toList
    · have hresource := resourceOf_append hslash
      rw [hall] at hresource
      exact .inr (.inr ⟨fun h => hsub hslash (String.length_eq_zero_iff.mp h),
        Eq.mpr (congrArg (· ∈ rule.resources) hresource) hrule⟩)
    · rw [(resourceOf_eq_self hslash).1] at hall
      exact .inl (show "*" ∈ rule.resources from hall ▸ hrule)
  · exact .inr (.inl (heq.symm ▸ hrule))

section
variable (hbelow : owner.Below n) (hsub : '/' ∈ resource.toList → afterFirst resource '/' ≠ "")
include hbelow hsub

theorem resourceCoversAll_of_resourceProbe (h : resourceMatches owner
      (resourceProbe n group resource verb name).combinedResource (afterFirst resource '/')) :
    resourceCoversAll owner.resources [resource] := by
  rw [resourceCoversAll_iff]
  simp only [mem_singleton, forall_eq]
  rcases resourceMatches_iff.mp h with hall | hcomb | ⟨hlen, hmem⟩
  · exact .inl hall
  · rcases combinedResource_resourceProbe n group verb name hsub with ⟨-, hlong⟩ | heq
    · exact absurd (hbelow.resources _ hcomb) (not_lt.mpr hlong)
    · exact .inr (.inl (heq ▸ hcomb))
  · have hslash : '/' ∈ resource.toList := by
      by_contra hslash
      exact hlen (by rw [(resourceOf_eq_self hslash).2]; rfl)
    exact .inr (.inr ⟨hslash, hmem⟩)

/-- The owner rule that allows the request for a part on a resource covers the part. `names` is empty or has the name
of the request, which is fresh in the first case. -/
theorem ruleCovers_of_resourceProbe (hnames : names = [] ∧ name = fresh n ∨ names = [name])
    (h : ruleAllows (resourceProbe n group resource verb name) owner) :
    ruleCovers owner { apiGroups := [group], resources := [resource], verbs := [verb], resourceNames := names } := by
  simp only [ruleAllows, resourceProbe, if_true, and_eq_true] at h
  obtain ⟨⟨⟨hverb, hgroup⟩, hres⟩, hname⟩ := h
  simp only [ruleCovers, and_eq_true]
  refine ⟨⟨⟨⟨has_of_any_probe hbelow.verbs hverb, has_of_any_probe hbelow.apiGroups hgroup⟩,
    resourceCoversAll_of_resourceProbe hbelow hsub hres⟩, ?_⟩, rfl⟩
  rw [resourceNameMatches] at hname
  rcases hnames with ⟨rfl, rfl⟩ | rfl
  · by_contra hne
    rw [if_neg (by simpa using hne)] at hname
    exact fresh_notMem hbelow.resourceNames (by simpa using hname)
  · split_ifs at hname with hempty
    · simp [hempty]
    · simpa using Or.inr hname

end

theorem ruleAllows_resourceProbe (hverb : verb ∈ rule.verbs) (hgroup : group ∈ rule.apiGroups)
    (hres : resource ∈ rule.resources) (hname : rule.resourceNames = [] ∨ name ∈ rule.resourceNames)
    (hsub : '/' ∈ resource.toList → afterFirst resource '/' ≠ "") :
    ruleAllows (resourceProbe n group resource verb name) rule := by
  simp only [ruleAllows, resourceProbe, if_true, and_eq_true]
  refine ⟨⟨⟨any_probe hverb, any_probe hgroup⟩, resourceMatches_resourceProbe hsub hres⟩, ?_⟩
  rw [resourceNameMatches]
  split_ifs with hempty
  · rfl
  · simpa using hname.resolve_left fun h => hempty (by rw [h]; rfl)

/-! ### Non-resource URLs -/

theorem trimRight_append_stars (s : String) (n : Nat) :
    trimRight (s ++ String.ofList (replicate n '*')) '*' = trimRight s '*' := by
  have hstars : (s.toList ++ replicate n '*').rdropWhile (· = '*') = s.toList.rdropWhile (· = '*') := by
    induction n with
    | zero => simp
    | succ => rwa [replicate_succ', ← append_assoc, rdropWhile_concat_pos _ _ _ (by simp)]
  rw [trimRight, String.toList_append, String.toList_ofList, hstars, trimRight]

theorem hasPrefix_self_trimRight (s : String) : hasPrefix s (trimRight s '*') := by
  rw [hasPrefix_iff, toList_trimRight]
  exact rdropWhile_prefix _ _

/-- A pattern that matches the path matches the URL: its stem does not end with a star, so that it has none of the
stars that the path has more than the URL. -/
theorem hasPrefix_of_probePath {ownerURL : String} (h : hasPrefix (probePath n url) (trimRight ownerURL '*')) :
    hasPrefix url (trimRight ownerURL '*') := by
  rw [probePath] at h
  split_ifs at h
  · have htrim := hasPrefix_trimRight h
    rw [trimRight_append_stars] at htrim
    exact hasPrefix_trans (hasPrefix_self_trimRight url) htrim
  · exact h

theorem nonResourceURLsCoversAll_of_probePath (hbelow : owner.Below n)
    (h : nonResourceURLMatches owner (probePath n url)) : nonResourceURLsCoversAll owner.nonResourceURLs [url] := by
  obtain ⟨ownerURL, hmem, h⟩ := any_eq_true.mp h
  simp only [nonResourceURLsCoversAll, all_cons, all_nil, Bool.and_true]
  refine any_eq_true.mpr ⟨ownerURL, hmem, ?_⟩
  rw [nonResourceURLCovers]
  by_cases heq : ownerURL = url
  · rw [if_pos heq]
  rw [if_neg heq]
  split_ifs at h with hall hpath
  · rw [hall, and_eq_true]
    exact ⟨by decide, hasPrefix_iff.mpr nil_prefix⟩
  · have hlen := hbelow.nonResourceURLs _ hmem
    rw [probePath] at hpath
    split_ifs at hpath
    · rw [hpath, String.length_append, String.length_ofList, length_replicate] at hlen
      omega
    · exact absurd hpath heq
  · rw [and_eq_true] at h ⊢
    exact ⟨h.1, hasPrefix_of_probePath h.2⟩

theorem nonResourceURLMatches_probePath (hurl : url ∈ rule.nonResourceURLs) :
    nonResourceURLMatches rule (probePath n url) := by
  refine any_eq_true.mpr ⟨url, hurl, ?_⟩
  rw [probePath]
  by_cases hstar : hasSuffix url "*"
  · have hstem := hasPrefix_trans (hasPrefix_append url (String.ofList (replicate n '*')))
      (hasPrefix_self_trimRight url)
    rw [if_pos hstar, hstar, hstem, Bool.and_true, ite_self, ite_self]
  · rw [if_neg hstar, if_pos rfl, ite_self]

/-- **The coverage check is complete**: if the owner rules allow all requests that the servant rules allow, no part of
a servant rule is left uncovered. -/
theorem covers_complete {ownerRules servantRules : List PolicyRule} (howner : ∀ rule ∈ ownerRules, rule.Unmixed)
    (hservant : ∀ rule ∈ servantRules, ∀ resource ∈ rule.resources,
      '/' ∈ resource.toList → afterFirst resource '/' ≠ "")
    (h : ∀ a : Attributes, (a.isResourceRequest → '/' ∉ a.resource.toList) →
      rulesAllow a servantRules → rulesAllow a ownerRules) : (covers ownerRules servantRules).1 := by
  obtain ⟨n, hn⟩ := exists_below ownerRules
  have howned (rule : PolicyRule) (hrule : rule ∈ servantRules) (a : Attributes)
      (hslash : a.isResourceRequest → '/' ∉ a.resource.toList) (hallows : ruleAllows a rule) :
      ∃ owner ∈ ownerRules, ruleAllows a owner :=
    any_eq_true.mp (h a hslash (any_eq_true.mpr ⟨rule, hrule, hallows⟩))
  simp only [covers, decide_eq_true_eq, length_eq_zero_iff, filter_eq_nil_iff]
  intro part hpart
  rw [not_eq_true', not_eq_false, any_eq_true]
  obtain ⟨rule, hrule, hpart⟩ := mem_flatMap.mp hpart
  rcases mem_append.mp hpart with hpart | hpart
  · simp only [mem_flatMap] at hpart
    obtain ⟨group, hgroup, resource, hres, verb, hverb, hpart⟩ := hpart
    have hsub := hservant rule hrule resource hres
    have hcovered (names : List String) (name : String) (hnames : names = [] ∧ name = fresh n ∨ names = [name])
        (hname : rule.resourceNames = [] ∨ name ∈ rule.resourceNames) : ∃ owner ∈ ownerRules, ruleCovers owner
          { apiGroups := [group], resources := [resource], verbs := [verb], resourceNames := names } := by
      obtain ⟨owner, hmem, hallows⟩ := howned rule hrule (resourceProbe n group resource verb name)
        (fun _ => slash_notMem_probe n resource) (ruleAllows_resourceProbe hverb hgroup hres hname hsub)
      exact ⟨owner, hmem, ruleCovers_of_resourceProbe (hn owner hmem) hsub hnames hallows⟩
    split_ifs at hpart with hlen
    · obtain ⟨name, hname, rfl⟩ := mem_map.mp hpart
      exact hcovered [name] name (.inr rfl) (.inr hname)
    · cases mem_singleton.mp hpart
      exact hcovered [] (fresh n) (.inl ⟨rfl, rfl⟩) (.inl (length_eq_zero_iff.mp (by omega)))
  · simp only [mem_flatMap, mem_map] at hpart
    obtain ⟨url, hurl, verb, hverb, rfl⟩ := hpart
    let a : Attributes :=
      { user := { name := "" }, verb := probe n verb, isResourceRequest := false, path := probePath n url }
    have hallows : ruleAllows a rule := by
      rw [ruleAllows, if_neg Bool.false_ne_true, Bool.and_eq_true]
      exact ⟨any_probe hverb, nonResourceURLMatches_probePath hurl⟩
    obtain ⟨owner, hmem, hallows⟩ := howned rule hrule a (fun hreq => absurd hreq false_ne_true) hallows
    rw [ruleAllows, if_neg Bool.false_ne_true, Bool.and_eq_true] at hallows
    have hnames : owner.resourceNames = [] := by
      refine ((howner owner hmem).resolve_left fun hnone => ?_).2.2
      simp [nonResourceURLMatches, hnone] at hallows
    refine ⟨owner, hmem, ?_⟩
    simp only [ruleCovers, and_eq_true]
    exact ⟨⟨⟨⟨has_of_any_probe (hn owner hmem).verbs hallows.1, by simp⟩, by simp [resourceCoversAll]⟩,
      by simp [hnames]⟩, nonResourceURLsCoversAll_of_probePath (hn owner hmem) hallows.2⟩

theorem covers_complete_log : (covers [{ verbs := ["*"], apiGroups := ["*"], resources := ["*/log", "nodes"] }]
    [{ verbs := ["get"], apiGroups := [""], resources := ["pods/log"] }]).1 := by
  refine covers_complete ?_ ?_ fun a hslash h => ?_
  · simp [PolicyRule.Unmixed]
  · decide
  · simp only [rulesAllow, any_cons, any_nil, Bool.or_false] at h ⊢
    exact ruleAllows_of_ruleCovers hslash (by decide) h

end LeanKube.Rbac
