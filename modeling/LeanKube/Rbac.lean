import LeanKube.GoStrings

/-! Role-based access control: the authorizer (`plugin/pkg/auth/authorizer/rbac`), the rules that apply
to a user (`pkg/registry/rbac/validation/rule.go`), and the check that a user who grants rules holds
them already (`policy_comparator.go`). -/

namespace LeanKube.Rbac
open GoStrings

/-- A rule that grants verbs on resources, or on URLs that are not resources. -/
structure PolicyRule where
  verbs : List String := []
  apiGroups : List String := []
  resources : List String := []
  resourceNames : List String := []
  nonResourceURLs : List String := []
deriving DecidableEq

def verbAll : String := "*"
def apiGroupAll : String := "*"
def resourceAll : String := "*"
def nonResourceAll : String := "*"

structure UserInfo where
  name : String
  groups : List String := []
deriving DecidableEq

/-- What a request asks for: a verb on a resource, or on a path. -/
structure Attributes where
  user : UserInfo
  verb : String
  namespace_ : String := ""
  apiGroup : String := ""
  resource : String := ""
  subresource : String := ""
  name : String := ""
  isResourceRequest : Bool := true
  path : String := ""
deriving DecidableEq

/-! ### `RuleAllows` -/

variable (rule : PolicyRule)

def verbMatches (requestedVerb : String) : Bool :=
  rule.verbs.any fun ruleVerb => ruleVerb = verbAll || ruleVerb = requestedVerb

def apiGroupMatches (requestedGroup : String) : Bool :=
  rule.apiGroups.any fun ruleGroup => ruleGroup = apiGroupAll || ruleGroup = requestedGroup

/-- `ResourceMatches`. A rule for `*/scale` matches the subresource `scale` of every resource. -/
def resourceMatches (combinedRequestedResource requestedSubresource : String) : Bool :=
  rule.resources.any fun ruleResource =>
    if ruleResource = resourceAll then true
    else if ruleResource = combinedRequestedResource then true
    else if requestedSubresource.length = 0 then false
    else
      ruleResource.length = requestedSubresource.length + 2 && hasPrefix ruleResource "*/" &&
        hasSuffix ruleResource requestedSubresource

/-- `ResourceNameMatches`. A rule that lists no names is about all of them. -/
def resourceNameMatches (requestedName : String) : Bool :=
  if rule.resourceNames.length = 0 then true
  else rule.resourceNames.any fun ruleName => ruleName = requestedName

/-- `NonResourceURLMatches`. A rule that ends in `*` matches what starts with the rest of it. -/
def nonResourceURLMatches (requestedURL : String) : Bool :=
  rule.nonResourceURLs.any fun ruleURL =>
    if ruleURL = nonResourceAll then true
    else if ruleURL = requestedURL then true
    else hasSuffix ruleURL "*" && hasPrefix requestedURL (trimRight ruleURL '*')

variable (requestAttributes : Attributes)

/-- The resource with its subresource, as rules write it. -/
def Attributes.combinedResource : String :=
  if requestAttributes.subresource.length > 0 then
    requestAttributes.resource ++ "/" ++ requestAttributes.subresource
  else requestAttributes.resource

/-- `RuleAllows`: whether one rule grants a request. -/
def ruleAllows (rule : PolicyRule) : Bool :=
  if requestAttributes.isResourceRequest then
    verbMatches rule requestAttributes.verb &&
      apiGroupMatches rule requestAttributes.apiGroup &&
      resourceMatches rule requestAttributes.combinedResource requestAttributes.subresource &&
      resourceNameMatches rule requestAttributes.name
  else
    verbMatches rule requestAttributes.verb &&
      nonResourceURLMatches rule requestAttributes.path

/-! ### `Covers` -/

def has (set : List String) (ele : String) : Bool := set.any fun s => s = ele

def hasAll (set contains : List String) : Bool := contains.all fun ele => ele ∈ set

/-- `resourceCoversAll`: every resource is listed, or its subresource is for all resources. -/
def resourceCoversAll (setResources coversResources : List String) : Bool :=
  if has setResources resourceAll || hasAll setResources coversResources then true
  else
    coversResources.all fun path =>
      if has setResources path then true
      else if !contains path '/' then false
      else has setResources ("*/" ++ afterFirst path '/')

/-- Whether one path of the owner covers a path. -/
def nonResourceURLCovers (ownerPath subPath : String) : Bool :=
  if ownerPath = subPath then true
  else hasSuffix ownerPath "*" && hasPrefix subPath (trimRight ownerPath '*')

def nonResourceURLsCoversAll (set covers : List String) : Bool :=
  covers.all fun path => set.any fun owner => nonResourceURLCovers owner path

/-- `ruleCovers`, for a subrule of `breakdownRule`: the owner's rule grants all that the subrule grants. -/
def ruleCovers (ownerRule subRule : PolicyRule) : Bool :=
  let verbMatches := has ownerRule.verbs verbAll || hasAll ownerRule.verbs subRule.verbs
  let groupMatches := has ownerRule.apiGroups apiGroupAll || hasAll ownerRule.apiGroups subRule.apiGroups
  let resourceMatches := resourceCoversAll ownerRule.resources subRule.resources
  let nonResourceURLMatches := nonResourceURLsCoversAll ownerRule.nonResourceURLs subRule.nonResourceURLs
  let resourceNameMatches :=
    if subRule.resourceNames.length = 0 then decide (ownerRule.resourceNames.length = 0)
    else ownerRule.resourceNames.length = 0 || hasAll ownerRule.resourceNames subRule.resourceNames
  verbMatches && groupMatches && resourceMatches && resourceNameMatches && nonResourceURLMatches

/-- `BreakdownRule`: rules with one verb and one resource or URL each, and at most one name. -/
def breakdownRule : List PolicyRule :=
  (rule.apiGroups.flatMap fun group =>
    rule.resources.flatMap fun resource =>
      rule.verbs.flatMap fun verb =>
        if rule.resourceNames.length > 0 then
          rule.resourceNames.map fun resourceName =>
            { apiGroups := [group], resources := [resource], verbs := [verb], resourceNames := [resourceName] }
        else [{ apiGroups := [group], resources := [resource], verbs := [verb] }]) ++
  rule.nonResourceURLs.flatMap fun nonResourceURL =>
    rule.verbs.map fun verb => { nonResourceURLs := [nonResourceURL], verbs := [verb] }

/-- `Covers`: whether the owner's rules cover those of a servant, and the subrules that they do not cover. -/
def covers (ownerRules servantRules : List PolicyRule) : Bool × List PolicyRule :=
  let subrules := servantRules.flatMap breakdownRule
  let uncoveredRules := subrules.filter fun subrule =>
    !(ownerRules.any fun ownerRule => ruleCovers ownerRule subrule)
  (uncoveredRules.length = 0, uncoveredRules)

/-! ### The rules of a user -/

inductive SubjectKind where
  | user
  | group
  | serviceAccount
  | other (kind : String)
deriving DecidableEq

structure Subject where
  kind : SubjectKind
  name : String
  namespace_ : String := ""
deriving DecidableEq

inductive RoleRefKind where
  | role
  | clusterRole
  | other (kind : String)
deriving DecidableEq

structure RoleRef where
  kind : RoleRefKind
  name : String
deriving DecidableEq

/-- A role binding, or, without a namespace, a cluster role binding. -/
structure Binding where
  name : String
  namespace_ : String := ""
  subjects : List Subject
  roleRef : RoleRef
deriving DecidableEq

/-- `DefaultRuleResolver`, by what its getters and listers return. -/
structure RuleResolver where
  getRole : String → String → Except String (List PolicyRule)
  listRoleBindings : String → Except String (List Binding)
  getClusterRole : String → Except String (List PolicyRule)
  listClusterRoleBindings : Except String (List Binding)

/-- The name under which a service account makes requests. -/
def makeUsername (namespace_ name : String) : String := "system:serviceaccount:" ++ namespace_ ++ ":" ++ name

variable (user : UserInfo)

/-- `appliesToUser`. A service account without a namespace is one of the binding's namespace. -/
def appliesToUser (subject : Subject) (namespace_ : String) : Bool :=
  match subject.kind with
  | .user => user.name = subject.name
  | .group => has user.groups subject.name
  | .serviceAccount =>
    let saNamespace := if subject.namespace_.length > 0 then subject.namespace_ else namespace_
    if saNamespace.length = 0 then false
    else makeUsername saNamespace subject.name = user.name
  | .other _ => false

/-- `appliesTo`: the first subject of a binding that is the user. -/
def appliesTo (bindingSubjects : List Subject) (namespace_ : String) : Option Subject :=
  bindingSubjects.find? fun bindingSubject => appliesToUser user bindingSubject namespace_

/-- What a visitor is called with: a rule, with the binding and the subject it comes from, or an error. -/
inductive Visit where
  | rule (binding : Binding) (subject : Subject) (rule : PolicyRule)
  | error (err : String)
deriving DecidableEq

namespace RuleResolver
variable (r : RuleResolver)

/-- `GetRoleReferenceRules`: the rules of the role that a binding refers to. -/
def getRoleReferenceRules (roleRef : RoleRef) (bindingNamespace : String) : Except String (List PolicyRule) :=
  match roleRef.kind with
  | .role => r.getRole bindingNamespace roleRef.name
  | .clusterRole => r.getClusterRole roleRef.name
  | .other kind => .error ("unsupported role reference kind: \"" ++ kind ++ "\"")

/-- The visits for some bindings: the rules of those that apply to the user, and the errors. -/
def visitBindings (user : UserInfo) (namespace_ : String) (bindings : Except String (List Binding)) : List Visit :=
  match bindings with
  | .error err => [.error err]
  | .ok bindings =>
    bindings.flatMap fun binding =>
      match appliesTo user binding.subjects namespace_ with
      | none => []
      | some subject =>
        match r.getRoleReferenceRules binding.roleRef namespace_ with
        | .error err => [.error err]
        | .ok rules => rules.map (.rule binding subject)

/-- What `VisitRulesFor` visits: the cluster role bindings, then the role bindings of the namespace. -/
def visits (user : UserInfo) (namespace_ : String) : List Visit :=
  r.visitBindings user "" r.listClusterRoleBindings ++
    if namespace_.length > 0 then r.visitBindings user namespace_ (r.listRoleBindings namespace_) else []

end RuleResolver

/-- A visitor is called until it says to stop. -/
def visitAll {σ : Type} (visitor : σ → Visit → σ × Bool) : List Visit → σ → σ
  | [], state => state
  | visit :: rest, state =>
    let (state, continue_) := visitor state visit
    if continue_ then visitAll visitor rest state else state

structure RuleAccumulator where
  rules : List PolicyRule := []
  errors : List String := []

def RuleAccumulator.visit (acc : RuleAccumulator) : Visit → RuleAccumulator × Bool
  | .rule _ _ rule => ({ acc with rules := acc.rules ++ [rule] }, true)
  | .error err => ({ acc with errors := acc.errors ++ [err] }, true)

namespace RuleResolver
variable (r : RuleResolver)

def visitRulesFor {σ : Type} (user : UserInfo) (namespace_ : String) (visitor : σ → Visit → σ × Bool) (state : σ) : σ :=
  visitAll visitor (r.visits user namespace_) state

/-- `RulesFor`: the rules of a user in a namespace, with the errors that were met. -/
def rulesFor (user : UserInfo) (namespace_ : String) : List PolicyRule × List String :=
  let visitor := r.visitRulesFor user namespace_ RuleAccumulator.visit {}
  (visitor.rules, visitor.errors)

end RuleResolver

inductive EscalationError where
  | noUser
  | notHeld (user : UserInfo) (missingRights : List PolicyRule) (ruleResolutionErrors : List String)
deriving DecidableEq

/-- `ConfirmNoEscalation`: a user grants only what the user's own rules cover. -/
def confirmNoEscalation (user : Option UserInfo) (namespace_ : String) (ruleResolver : RuleResolver)
    (rules : List PolicyRule) : Except EscalationError Unit :=
  match user with
  | none => .error .noUser
  | some user =>
    let (ownerRules, errors) := ruleResolver.rulesFor user namespace_
    let (ownerRightsCover, missingRights) := covers ownerRules rules
    if !ownerRightsCover then .error (.notHeld user missingRights errors) else .ok ()

/-! ### The authorizer -/

inductive Decision where
  | allow
  | noOpinion
deriving DecidableEq

inductive Reason where
  | allowedBy (binding : Binding) (subject : Subject)
  | errors (errs : List String)
deriving DecidableEq

/-- `authorizingVisitor`: it stops at the first rule that allows the request. -/
structure AuthorizingVisitor where
  requestAttributes : Attributes
  allowed : Option (Binding × Subject) := none
  errors : List String := []

def AuthorizingVisitor.visit (v : AuthorizingVisitor) : Visit → AuthorizingVisitor × Bool
  | .rule binding subject rule =>
    if ruleAllows v.requestAttributes rule then ({ v with allowed := some (binding, subject) }, false)
    else (v, true)
  | .error err => ({ v with errors := v.errors ++ [err] }, true)

/-- `Authorize`. Errors do not deny: without a rule that allows the request there is no opinion. -/
def authorize (authorizationRuleResolver : RuleResolver) (requestAttributes : Attributes) : Decision × Reason :=
  let ruleCheckingVisitor := authorizationRuleResolver.visitRulesFor requestAttributes.user
    requestAttributes.namespace_ AuthorizingVisitor.visit { requestAttributes }
  match ruleCheckingVisitor.allowed with
  | some (binding, subject) => (.allow, .allowedBy binding subject)
  | none => (.noOpinion, .errors ruleCheckingVisitor.errors)

end LeanKube.Rbac
