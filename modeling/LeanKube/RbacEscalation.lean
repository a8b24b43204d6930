import LeanKube.Rbac

/-! A user can grant only what the user may do: what `ConfirmNoEscalation` accepts, `Authorize` allows
to the same user already. -/

namespace LeanKube.Rbac
open List GoStrings AuthorizingVisitor Visit

/-! ### What the matchers accept -/

variable {set : List String} {rule sub : PolicyRule} {a : Attributes} {owner : PolicyRule} (visits : List Visit)

@[simp] theorem has_iff {ele : String} : has set ele ↔ ele ∈ set := by
  simp [has]

@[simp] theorem hasAll_iff {contains : List String} : hasAll set contains ↔ ∀ ele ∈ contains, ele ∈ set := by
  simp [hasAll]

theorem resourceMatches_iff {combined sub : String} : resourceMatches rule combined sub ↔
      resourceAll ∈ rule.resources ∨ combined ∈ rule.resources ∨ sub.length ≠ 0 ∧ "*/" ++ sub ∈ rule.resources := by
  have hsub (resource : String) :
      (resource.length = sub.length + 2 ∧ hasPrefix resource "*/" ∧ hasSuffix resource sub) ↔
        resource = "*/" ++ sub := by
    apply Iff.intro
    · intro ⟨hlen, hstart, hend⟩
      obtain ⟨front, hfront⟩ := hasSuffix_iff.mp hend
      have hfrontLength : front.length = 2 := by
        have := congrArg List.length hfront
        simp only [length_append, String.length_toList] at this
        omega
      have hstart' : "*/".toList <+: front ++ sub.toList := hfront ▸ hasPrefix_iff.mp hstart
      have hfrontEq : "*/".toList = front :=
        (prefix_of_prefix_length_le hstart' (prefix_append _ _) (by simp [hfrontLength])).eq_of_length
          (by simp [hfrontLength])
      rw [← String.toList_inj, String.toList_append, hfrontEq, hfront]
    · intro h
      rw [h, hasPrefix_iff, hasSuffix_iff, String.length_append, String.toList_append]
      exact ⟨Nat.add_comm _ _, prefix_append _ _, suffix_append _ _⟩
  rw [resourceMatches, any_eq_true]
  apply Iff.intro
  · intro ⟨resource, hmem, h⟩
    split_ifs at h with hall hcombined hlen
    · exact .inl (hall ▸ hmem)
    · exact .inr (.inl (hcombined ▸ hmem))
    · rw [Bool.and_eq_true, Bool.and_eq_true, decide_eq_true_eq, and_assoc] at h
      exact .inr (.inr ⟨hlen, (hsub resource).mp h ▸ hmem⟩)
  · intro h
    rcases h with hall | hcombined | ⟨hlen, hmem⟩
    · exact ⟨resourceAll, hall, by simp⟩
    · exact ⟨combined, hcombined, by simp⟩
    · refine ⟨"*/" ++ sub, hmem, ?_⟩
      have := (hsub ("*/" ++ sub)).mpr rfl
      simp only [this, hlen]
      simp

theorem resourceCoversAll_iff {covers : List String} : resourceCoversAll set covers ↔ resourceAll ∈ set ∨
        ∀ path ∈ covers, path ∈ set ∨ '/' ∈ path.toList ∧ "*/" ++ afterFirst path '/' ∈ set := by
  have hall : (covers.all fun path =>
        if has set path then true
        else if !contains path '/' then false
        else has set ("*/" ++ afterFirst path '/')) ↔
      ∀ path ∈ covers, path ∈ set ∨ '/' ∈ path.toList ∧ "*/" ++ afterFirst path '/' ∈ set := by
    rw [all_eq_true]
    refine forall₂_congr fun path _ => ?_
    have hcon := contains_iff (s := path) (c := '/')
    by_cases hpath : path ∈ set <;> by_cases hslash : '/' ∈ path.toList <;>
      simp_all
  rw [resourceCoversAll]
  split
  · rename_i h
    rw [Bool.or_eq_true, has_iff, hasAll_iff] at h
    exact iff_of_true rfl (h.imp_right fun h path hpath => .inl (h path hpath))
  · rename_i h
    rw [Bool.or_eq_true, has_iff, hasAll_iff, not_or] at h
    rw [hall]
    simp only [h.1, false_or]

/-! ### A rule that covers another one allows its requests -/

theorem any_of_hasAll {all requested : String} {owner sub : List String}
    (h : has owner all || hasAll owner sub) (hsub : sub.any fun s => s = all || s = requested) :
    owner.any fun s => s = all || s = requested := by
  rw [Bool.or_eq_true, has_iff, hasAll_iff] at h
  obtain ⟨s, hmem, hs⟩ := any_eq_true.mp hsub
  apply any_eq_true.mpr
  rcases h with hall | h
  · exact ⟨all, hall, by simp⟩
  · exact ⟨s, h s hmem, hs⟩

theorem resourceMatches_of_covers (hslash : '/' ∉ a.resource.toList)
    (h : resourceCoversAll owner.resources sub.resources)
    (hsub : resourceMatches sub a.combinedResource a.subresource) :
    resourceMatches owner a.combinedResource a.subresource := by
  rw [resourceMatches_iff] at hsub ⊢
  rcases resourceCoversAll_iff.mp h with hall | h
  · exact .inl hall
  rcases hsub with hall | hcombined | ⟨hlen, hmem⟩
  · refine (h _ hall).imp_right fun h => absurd h.1 (by decide)
  · rcases h _ hcombined with h | ⟨hcon, h⟩
    · exact .inr (.inl h)
    · -- the requested resource has a slash, so it ends with the subresource
      by_cases hlen : a.subresource.length > 0
      · rw [Attributes.combinedResource, if_pos hlen, show "/" = String.singleton '/' from rfl,
          afterFirst_append hslash] at h
        exact .inr (.inr ⟨hlen.ne', h⟩)
      · rw [Attributes.combinedResource, if_neg hlen] at hcon
        exact absurd hcon hslash
  · rcases h _ hmem with h | ⟨-, h⟩
    · exact .inr (.inr ⟨hlen, h⟩)
    · rw [show "*/" = "*" ++ String.singleton '/' from rfl, afterFirst_append (by decide)] at h
      exact .inr (.inr ⟨hlen, h⟩)

theorem nonResourceURLMatches_of_covers {path : String}
    (h : nonResourceURLsCoversAll owner.nonResourceURLs sub.nonResourceURLs)
    (hsub : nonResourceURLMatches sub path) : nonResourceURLMatches owner path := by
  obtain ⟨url, hurl, hmatch⟩ := any_eq_true.mp hsub
  obtain ⟨ownerURL, howner, hcovers⟩ := any_eq_true.mp (all_eq_true.mp h url hurl)
  apply any_eq_true.mpr
  refine ⟨ownerURL, howner, ?_⟩
  rw [nonResourceURLCovers] at hcovers
  split_ifs at hcovers with heq
  · rwa [heq]
  rw [Bool.and_eq_true] at hcovers
  -- the trimmed owner path is the start of the trimmed path of the subrule, and so of the request
  have hpath : hasPrefix path (trimRight ownerURL '*') := by
    split_ifs at hmatch with hall hpath
    · have htrim := hasPrefix_trimRight hcovers.2
      rw [hall, show trimRight nonResourceAll '*' = "" from rfl] at htrim
      exact hasPrefix_trans (t := "") (hasPrefix_iff.mpr nil_prefix) htrim
    · exact hpath ▸ hcovers.2
    · exact hasPrefix_trans (Bool.and_eq_true_iff.mp hmatch).2 (hasPrefix_trimRight hcovers.2)
  split_ifs
  · rfl
  · rfl
  · rw [hcovers.1, hpath, Bool.and_true]

theorem resourceNameMatches_of_covers {name : String}
    (h : (if sub.resourceNames.length = 0 then decide (owner.resourceNames.length = 0)
      else owner.resourceNames.length = 0 || hasAll owner.resourceNames sub.resourceNames) = true)
    (hsub : resourceNameMatches sub name) : resourceNameMatches owner name := by
  rw [resourceNameMatches] at hsub ⊢
  by_cases howner : owner.resourceNames.length = 0
  · rw [if_pos howner]
  split_ifs at h hsub with hnames
  · exact absurd (of_decide_eq_true h) howner
  rw [if_neg howner]
  rw [decide_eq_false howner, Bool.false_or, hasAll_iff] at h
  obtain ⟨ruleName, hmem, hname⟩ := any_eq_true.mp hsub
  exact any_eq_true.mpr ⟨ruleName, h ruleName hmem, hname⟩

theorem ruleAllows_of_ruleCovers (hslash : a.isResourceRequest → '/' ∉ a.resource.toList)
    (h : ruleCovers owner sub) (hsub : ruleAllows a sub) : ruleAllows a owner := by
  simp only [ruleCovers, Bool.and_eq_true] at h
  obtain ⟨⟨⟨⟨hverbs, hgroups⟩, hresources⟩, hnames⟩, hurls⟩ := h
  rw [ruleAllows] at hsub ⊢
  split_ifs at hsub ⊢ with hreq
  · simp only [Bool.and_eq_true] at hsub ⊢
    obtain ⟨⟨⟨hverb, hgroup⟩, hres⟩, hname⟩ := hsub
    exact ⟨⟨⟨any_of_hasAll hverbs hverb, any_of_hasAll hgroups hgroup⟩,
      resourceMatches_of_covers (hslash hreq) hresources hres⟩,
      resourceNameMatches_of_covers hnames hname⟩
  · rw [Bool.and_eq_true] at hsub ⊢
    exact ⟨any_of_hasAll hverbs hsub.1, nonResourceURLMatches_of_covers hurls hsub.2⟩

/-! ### The parts of a rule -/

theorem exists_mem_breakdownRule (h : ruleAllows a rule) : ∃ part ∈ breakdownRule rule, ruleAllows a part := by
  rw [ruleAllows] at h
  split_ifs at h with hreq
  · simp only [Bool.and_eq_true] at h
    obtain ⟨⟨⟨hverb, hgroup⟩, hres⟩, hname⟩ := h
    obtain ⟨verb, hverbMem, hverb⟩ := any_eq_true.mp hverb
    obtain ⟨group, hgroupMem, hgroup⟩ := any_eq_true.mp hgroup
    obtain ⟨resource, hresourceMem, hres⟩ := any_eq_true.mp hres
    have hpart (names : List String)
        (hpartMem : ({ apiGroups := [group], resources := [resource], verbs := [verb], resourceNames := names } :
          PolicyRule) ∈ breakdownRule rule)
        (hpartName : names.length = 0 ∨ a.name ∈ names) : ∃ part ∈ breakdownRule rule, ruleAllows a part := by
      refine ⟨_, hpartMem, ?_⟩
      rw [ruleAllows, if_pos hreq]
      simp only [Bool.and_eq_true, verbMatches, apiGroupMatches, resourceMatches, resourceNameMatches, any_cons,
        any_nil, Bool.or_false]
      refine ⟨⟨⟨hverb, hgroup⟩, hres⟩, ?_⟩
      split_ifs with hnames
      · rfl
      · simpa [hnames] using hpartName
    have hmem (part : PolicyRule)
        (hpart : part ∈ if rule.resourceNames.length > 0 then
            rule.resourceNames.map fun resourceName =>
              { apiGroups := [group], resources := [resource], verbs := [verb], resourceNames := [resourceName] }
          else [{ apiGroups := [group], resources := [resource], verbs := [verb] }]) :
        part ∈ breakdownRule rule := by
      rw [breakdownRule, mem_append]
      left
      simp only [mem_flatMap]
      exact ⟨group, hgroupMem, resource, hresourceMem, verb, hverbMem, hpart⟩
    by_cases hnames : rule.resourceNames.length = 0
    · apply hpart [] _ (.inl rfl)
      apply hmem
      rw [if_neg (by omega)]
      exact mem_singleton_self _
    · rw [resourceNameMatches, if_neg hnames] at hname
      have hname : a.name ∈ rule.resourceNames := by simpa using hname
      apply hpart [a.name] _ (.inr (mem_singleton_self _))
      apply hmem
      rw [if_pos (by omega)]
      exact mem_map_of_mem hname
  · rw [Bool.and_eq_true] at h
    obtain ⟨verb, hverbMem, hverb⟩ := any_eq_true.mp h.1
    obtain ⟨url, hurlMem, hurl⟩ := any_eq_true.mp h.2
    refine ⟨{ nonResourceURLs := [url], verbs := [verb] }, ?_, ?_⟩
    · rw [breakdownRule, mem_append]
      right
      exact mem_flatMap.mpr ⟨url, hurlMem, mem_map_of_mem hverbMem⟩
    · rw [ruleAllows, if_neg hreq]
      simp only [Bool.and_eq_true, verbMatches, nonResourceURLMatches, any_cons, any_nil, Bool.or_false]
      exact ⟨hverb, hurl⟩

theorem exists_ruleAllows_of_covers {ownerRules rules : List PolicyRule}
    (hslash : a.isResourceRequest → '/' ∉ a.resource.toList) (hcovers : (covers ownerRules rules).1)
    (hrule : rule ∈ rules) (hallows : ruleAllows a rule) : ∃ ownerRule ∈ ownerRules, ruleAllows a ownerRule := by
  obtain ⟨part, hpart, hallowsPart⟩ := exists_mem_breakdownRule hallows
  have hmem : part ∈ rules.flatMap breakdownRule := mem_flatMap.mpr ⟨rule, hrule, hpart⟩
  simp only [covers, decide_eq_true_eq, length_eq_zero_iff, filter_eq_nil_iff] at hcovers
  have hcovered := hcovers part hmem
  rw [Bool.not_eq_true', Bool.not_eq_false, any_eq_true] at hcovered
  obtain ⟨ownerRule, howner, hruleCovers⟩ := hcovered
  exact ⟨ownerRule, howner, ruleAllows_of_ruleCovers hslash hruleCovers hallowsPart⟩

/-! ### The visitors -/

def Visit.rule? : Visit → Option PolicyRule
  | .rule _ _ policyRule => some policyRule
  | .error _ => none

theorem visitAll_rules (acc : RuleAccumulator) :
    (visitAll RuleAccumulator.visit visits acc).rules = acc.rules ++ visits.filterMap rule? := by
  induction visits generalizing acc with
  | nil => simp [visitAll]
  | cons visit _ ih =>
    cases visit with
    | rule => simp [visitAll, RuleAccumulator.visit, ih, rule?]
    | error => simp [visitAll, RuleAccumulator.visit, ih, filterMap_cons, rule?]

theorem visitAll_allowed (v : AuthorizingVisitor) (hv : v.allowed = none) : (visitAll visit visits v).allowed.isSome ↔
      ∃ rule ∈ visits.filterMap rule?, ruleAllows v.requestAttributes rule := by
  induction visits generalizing v with
  | nil => simp [visitAll, hv]
  | cons visit _ ih =>
    cases visit with
    | rule _ _ rule =>
      by_cases hallows : ruleAllows v.requestAttributes rule
      · simp [visitAll, visit, hallows, rule?]
      · simp [visitAll, visit, hallows, rule?, ih v hv]
    | error => exact ih _ hv

namespace RuleResolver
variable (r : RuleResolver)

theorem rulesFor_rules (user : UserInfo) (namespace_ : String) :
    (r.rulesFor user namespace_).1 = (r.visits user namespace_).filterMap rule? :=
  (visitAll_rules _ _).trans (nil_append _)

theorem rulesFor_cluster {user : UserInfo} {rule : PolicyRule} (h : rule ∈ (r.rulesFor user "").1)
    (namespace_ : String) : rule ∈ (r.rulesFor user namespace_).1 := by
  rw [rulesFor_rules, visits] at h ⊢
  rw [filterMap_append, mem_append] at h ⊢
  exact h.imp_right fun h => absurd h (by simp)

theorem authorize_allow_iff (a : Attributes) :
    (authorize r a).1 = .allow ↔ ∃ rule ∈ (r.rulesFor a.user a.namespace_).1, ruleAllows a rule := by
  rw [rulesFor_rules, ← visitAll_allowed (r.visits a.user a.namespace_) { requestAttributes := a } rfl, authorize,
    visitRulesFor]
  cases (visitAll visit (r.visits a.user a.namespace_) { requestAttributes := a }).allowed with
  | none | some => simp

/-- `ConfirmNoEscalation` against the authorizer: in every state of the resolver, a request that a confirmed
rule allows is allowed to the user already, in the namespace of the check, or anywhere for a check in the
scope of the cluster. -/
theorem confirmNoEscalation_sound (user : UserInfo) (namespace_ : String) (rules : List PolicyRule)
    (hconfirm : confirmNoEscalation (some user) namespace_ r rules = .ok ()) (rule : PolicyRule)
    (hrule : rule ∈ rules) (a : Attributes) (huser : a.user = user)
    (hnamespace : namespace_ ≠ "" → a.namespace_ = namespace_)
    (hslash : a.isResourceRequest → '/' ∉ a.resource.toList) (hallows : ruleAllows a rule) :
    (authorize r a).1 = .allow := by
  have hcovers : (covers (r.rulesFor user namespace_).1 rules).1 := by
    by_contra h
    simp [confirmNoEscalation, h] at hconfirm
  obtain ⟨ownerRule, howner, hownerAllows⟩ := exists_ruleAllows_of_covers hslash hcovers hrule hallows
  apply (r.authorize_allow_iff a).mpr
  refine ⟨ownerRule, ?_, hownerAllows⟩
  rw [huser]
  by_cases hcluster : namespace_ = ""
  · exact r.rulesFor_cluster (hcluster ▸ howner) a.namespace_
  · rwa [hnamespace hcluster]

end RuleResolver

def logResolver : RuleResolver where
  getRole := fun _ _ => .error "role not found"
  listRoleBindings := fun _ => .ok []
  getClusterRole := fun _ => .ok [{ verbs := ["get"], apiGroups := ["*"], resources := ["*/log"] }]
  listClusterRoleBindings :=
    .ok [{ name := "logs", subjects := [{ kind := .user, name := "alice" }],
           roleRef := { kind := .clusterRole, name := "log-reader" } }]

theorem confirmNoEscalation_sound_log : (authorize logResolver
      { user := { name := "alice" }, verb := "get", namespace_ := "default", resource := "pods",
        subresource := "log", name := "web" }).1 = .allow :=
  logResolver.confirmNoEscalation_sound { name := "alice" } ""
    [{ verbs := ["get"], apiGroups := [""], resources := ["pods/log"], resourceNames := ["web"] }]
    (by decide) _ (List.mem_singleton_self _) _ rfl (fun h => absurd rfl h) (by decide) (by decide)

end LeanKube.Rbac
