import ClawDesk.Foundations.IpAddress

/-!
# Network egress

A policy says which tool may reach which endpoint.  Addresses that are blocked come first, then the
spellings of localhost, then the bindings: those of the tool, and those of all tools.

The bindings of all tools are only looked at for a tool that has none of its own, and the first
endpoint that matches host and port decides, for or against.  So the answer is what the endpoints of
the tool say together exactly if that first endpoint admits the request whenever one of them does
(`egress_iff`); what the order of the bindings and a grant make of it follows.
-/

namespace ClawDesk.Security

open Foundations

/-- HTTP method restriction for endpoint access. -/
inductive HttpMethod where
  | get
  | post
  | put
  | delete
  | patch
  | head
  | options
  deriving DecidableEq

/-- The `Debug` rendering. -/
def HttpMethod.debug : HttpMethod → String
  | get => "Get"
  | post => "Post"
  | put => "Put"
  | delete => "Delete"
  | patch => "Patch"
  | head => "Head"
  | options => "Options"

/-- Endpoint permission — defines what's allowed for a specific host. -/
structure EndpointPermission where
  host : String
  ports : List ℕ
  methods : List HttpMethod
  requireTls : Bool
  pathPrefix : Option String
  description : String

/-- Tool-to-endpoint binding — which tools may access which hosts. -/
structure ToolEndpointBinding where
  tool : String
  endpoints : List EndpointPermission

/-- Egress policy enforcement mode. -/
inductive EgressMode where
  | enforce
  | auditOnly
  | requireApproval
  deriving DecidableEq

/-- Egress policy decision. -/
inductive EgressDecision where
  | allow (tool endpoint matchedRule : String)
  | deny (reason : String)
  | requireApproval (tool host : String) (port : ℕ) (reason : String)

namespace EgressDecision

def isAllowed : EgressDecision → Bool
  | allow _ _ _ => true
  | _ => false

def isDenied : EgressDecision → Bool
  | deny _ => true
  | _ => false

end EgressDecision

/-- What the arguments of `evaluate` say about a connection. -/
structure EgressRequest where
  tool : String
  host : String
  port : ℕ
  method : Option HttpMethod
  isTls : Bool

/-- `{host}:{port}`. -/
def EgressRequest.endpoint (r : EgressRequest) : String := r.host ++ ":" ++ toString r.port

/-! ### CIDR blocks -/

/-- Parsed CIDR block for O(1) containment checks. -/
structure CidrBlock where
  network : BitVec 32
  mask : BitVec 32
  original : String

namespace CidrBlock

/-- `split_once`. -/
def splitOnce (sep : Char) (s : List Char) : Option (List Char × List Char) :=
  match s.dropWhile (· ≠ sep) with
  | [] => none
  | _ :: rest => some (s.takeWhile (· ≠ sep), rest)

/-- Parse a CIDR string like "10.0.0.0/8". -/
def parse (cidr : String) : Option CidrBlock := do
  let (addrStr, prefixStr) ← splitOnce '/' cidr.toList
  let addr ← parseIpv4 addrStr
  let prefixLen ← parseU32 prefixStr
  if 32 < prefixLen then none
  else
    let mask : BitVec 32 := if prefixLen = 0 then 0 else BitVec.allOnes 32 <<< (32 - prefixLen)
    some ⟨addr.bits &&& mask, mask, cidr⟩

/-- Check if an IPv4 address falls within this CIDR block. -/
def contains (block : CidrBlock) (ip : Ipv4Addr) : Bool :=
  ip.bits &&& block.mask = block.network

end CidrBlock

/-! ### Domains -/

/-- `to_ascii_lowercase`. -/
def asciiLower (s : String) : List Char := s.toList.map Char.toLower

/-- `strip_prefix`. -/
def stripPrefix (front s : List Char) : Option (List Char) :=
  if front.isPrefixOf s then some (s.drop front.length) else none

/-- `strip_suffix`. -/
def stripSuffix (back s : List Char) : Option (List Char) :=
  if back.isSuffixOf s then some (s.take (s.length - back.length)) else none

/-- Domain matching: exact or wildcard with proper suffix validation. -/
def domainMatches (pattern host : String) : Bool :=
  let patternLower := asciiLower pattern
  let hostLower := asciiLower host
  if patternLower = hostLower then true
  else
    match stripPrefix ['*', '.'] patternLower with
    | none => false
    | some suffix =>
        match stripSuffix suffix hostLower with
        | none => false
        -- the boundary of a proper subdomain
        | some beforeSuffix => beforeSuffix.getLast? = some '.'

/-! ### The policy -/

/-- Network egress policy engine. -/
structure NetworkEgressPolicy where
  mode : EgressMode
  bindings : List ToolEndpointBinding
  cidrBlocklist : List CidrBlock
  blockedDomains : List String
  allowLocalhost : Bool

/-- Internal binding check result — before mode-dependent decision. -/
inductive BindingCheck where
  | allowed (ruleDesc : String)
  | methodDenied (allowed : List HttpMethod) (requested : HttpMethod)
  | tlsRequired
  | noBinding

namespace NetworkEgressPolicy

/-- CIDR blocks that are always denied — SSRF prevention. -/
def defaultCidrBlocklist : List CidrBlock :=
  ["10.0.0.0/8", "172.16.0.0/12", "192.168.0.0/16", "169.254.0.0/16", "127.0.0.0/8",
    "100.64.0.0/10", "100.100.100.200/32"].filterMap CidrBlock.parse

/-- Domain names that are always blocked — cloud metadata endpoints. -/
def defaultBlockedDomains : List String :=
  ["metadata.google.internal", "kubernetes.default.svc", "host.docker.internal"]

/-- Port 443 of a host, over TLS. -/
def apiEndpoint (host : String) (methods : List HttpMethod) (pathPrefix : Option String)
    (description : String) : EndpointPermission :=
  ⟨host, [443], methods, true, pathPrefix, description⟩

/-- Default tool-endpoint bindings for common AI tools. -/
def defaultBindings : List ToolEndpointBinding :=
  [⟨"*",
    [apiEndpoint "api.anthropic.com" [.post] (some "/v1/") "Anthropic Claude API",
      apiEndpoint "api.openai.com" [.post] (some "/v1/") "OpenAI API",
      apiEndpoint "generativelanguage.googleapis.com" [.post] none "Google Gemini API",
      apiEndpoint "api.groq.com" [.post] (some "/openai/v1/") "Groq inference API",
      apiEndpoint "openrouter.ai" [.post, .get] (some "/api/v1/") "OpenRouter multi-model API",
      apiEndpoint "api.mistral.ai" [.post] (some "/v1/") "Mistral AI API",
      apiEndpoint "api.together.xyz" [.post] (some "/v1/") "Together AI inference API",
      apiEndpoint "api.deepseek.com" [.post] (some "/v1/") "DeepSeek API",
      apiEndpoint "integrate.api.nvidia.com" [.post] none "NVIDIA NIM inference API"]⟩,
    ⟨"http_fetch",
      [apiEndpoint "*.github.com" [.get] none "GitHub (read-only)",
        apiEndpoint "*.githubusercontent.com" [.get] none "GitHub raw content (read-only)"]⟩,
    ⟨"web_search",
      [apiEndpoint "*.googleapis.com" [.get] none "Google Custom Search",
        apiEndpoint "api.bing.microsoft.com" [.get] none "Bing Search API",
        apiEndpoint "api.search.brave.com" [.get] none "Brave Search API"]⟩,
    ⟨"fetch", [apiEndpoint "*.github.com" [.get] none "GitHub (read-only)"]⟩]

def default : NetworkEgressPolicy where
  mode := .requireApproval
  bindings := defaultBindings
  cidrBlocklist := defaultCidrBlocklist
  blockedDomains := defaultBlockedDomains
  allowLocalhost := false

/-- Build a policy that allows localhost. -/
def withLocalModels : NetworkEgressPolicy := { default with allowLocalhost := true }

/-- Add a tool-endpoint binding at runtime. -/
def addBinding (p : NetworkEgressPolicy) (binding : ToolEndpointBinding) : NetworkEgressPolicy :=
  { p with bindings := p.bindings ++ [binding] }

/-- The permission goes to the first binding of the tool, or to a new one. -/
def grantTo (tool : String) (permission : EndpointPermission) :
    List ToolEndpointBinding → List ToolEndpointBinding
  | [] => [⟨tool, [permission]⟩]
  | b :: rest =>
      if b.tool = tool then { b with endpoints := b.endpoints ++ [permission] } :: rest
      else b :: grantTo tool permission rest

/-- Add an endpoint permission for an existing tool, or create a new binding. -/
def grantEndpoint (p : NetworkEgressPolicy) (tool : String) (permission : EndpointPermission) :
    NetworkEgressPolicy :=
  { p with bindings := grantTo tool permission p.bindings }

/-- The first block of the blocklist with an address. -/
def blockOf (p : NetworkEgressPolicy) (ip : Ipv4Addr) : Option CidrBlock :=
  p.cidrBlocklist.find? fun cidr => cidr.contains ip

/-- The blocked domain that a host is, in whatever case. -/
def checkDomain (p : NetworkEgressPolicy) (host : String) : Option String :=
  (p.blockedDomains.find? fun blocked => asciiLower host = blocked.toList).map fun blocked =>
    "blocked cloud metadata domain: " ++ blocked

/-- The block of a host that is an IPv4 address. -/
def checkIpv4 (p : NetworkEgressPolicy) (host : String) : Option String :=
  (parseIpv4 host.toList).bind fun ip => (p.blockOf ip).map fun cidr =>
    "IP " ++ String.ofList ip.display ++ " falls within blocked CIDR range " ++ cidr.original

/-- The block of a host that is an IPv4-mapped IPv6 address. -/
def checkMapped (p : NetworkEgressPolicy) (host : String) : Option String :=
  match parseIpAddr host.toList with
  | some (.v6 segments) =>
      (toIpv4Mapped segments).bind fun v4 => (p.blockOf v4).map fun cidr =>
        "IPv4-mapped address " ++ String.ofList v4.display ++
          " falls within blocked CIDR range " ++ cidr.original
  | _ => none

/-- Check if a host is in the SSRF blocklist. -/
def checkBlocklist (p : NetworkEgressPolicy) (host : String) : Option String :=
  match p.checkDomain host with
  | some reason => some reason
  | none =>
      match p.checkIpv4 host with
      | some reason => some reason
      | none => p.checkMapped host

def isLocalhost (host : String) : Bool :=
  ["localhost", "127.0.0.1", "::1", "[::1]", "0.0.0.0"].contains host

/-- The checks on an endpoint that matches host and port. -/
def checkProtocol (binding : ToolEndpointBinding) (ep : EndpointPermission) (r : EgressRequest) :
    BindingCheck :=
  if ep.requireTls && !r.isTls then .tlsRequired
  else
    match r.method with
    | none => .allowed ("tool '" ++ binding.tool ++ "' → " ++ ep.host ++ " (" ++
        ep.description ++ ")")
    | some method =>
        if !ep.methods.isEmpty && !ep.methods.contains method then .methodDenied ep.methods method
        else .allowed ("tool '" ++ binding.tool ++ "' → " ++ ep.host ++ " (" ++
          ep.description ++ ")")

/-- The endpoints of one binding. -/
def checkEndpoints (binding : ToolEndpointBinding) (r : EgressRequest) :
    List EndpointPermission → Option BindingCheck
  | [] => none
  | ep :: rest =>
      if !domainMatches ep.host r.host then checkEndpoints binding r rest
      else if !ep.ports.isEmpty && !ep.ports.contains r.port then checkEndpoints binding r rest
      else some (checkProtocol binding ep r)

/-- Check if any endpoint in the bindings matches the target. -/
def checkEndpointMatch (r : EgressRequest) : List ToolEndpointBinding → BindingCheck
  | [] => .noBinding
  | binding :: rest =>
      match checkEndpoints binding r binding.endpoints with
      | some check => check
      | none => checkEndpointMatch r rest

/-- Check tool-endpoint bindings. -/
def checkBinding (p : NetworkEgressPolicy) (r : EgressRequest) : BindingCheck :=
  let toolBindings := p.bindings.filter (·.tool = r.tool)
  if toolBindings.isEmpty then
    let wildcardBindings := p.bindings.filter (·.tool = "*")
    if wildcardBindings.isEmpty then .noBinding
    else checkEndpointMatch r wildcardBindings
  else checkEndpointMatch r toolBindings

/-- Evaluate whether a tool may connect to a host:port. -/
def evaluate (p : NetworkEgressPolicy) (r : EgressRequest) : EgressDecision :=
  match p.checkBlocklist r.host with
  | some reason => .deny reason
  | none =>
      if isLocalhost r.host then
        if p.allowLocalhost then .allow r.tool r.endpoint "localhost_allowed"
        else .deny "localhost connections disabled; enable allow_localhost for local models"
      else
        match p.checkBinding r with
        | .allowed ruleDesc => .allow r.tool r.endpoint ruleDesc
        | .methodDenied allowed requested =>
            .deny ("tool '" ++ r.tool ++ "' may reach " ++ r.endpoint ++ " but method " ++
              requested.debug ++ " not in allowed set [" ++
              ", ".intercalate (allowed.map HttpMethod.debug) ++ "]")
        | .tlsRequired =>
            .deny ("endpoint " ++ r.endpoint ++ " requires TLS but connection is plaintext")
        | .noBinding =>
            match p.mode with
            | .enforce =>
                .deny ("no endpoint binding for tool '" ++ r.tool ++ "' to " ++ r.endpoint)
            | .requireApproval =>
                .requireApproval r.tool r.host r.port ("tool '" ++ r.tool ++
                  "' has no binding to " ++ r.endpoint ++ "; operator approval required")
            | .auditOnly => .allow r.tool r.endpoint "audit_only_passthrough"

/-- Get all endpoints bound to a specific tool. -/
def endpointsForTool (p : NetworkEgressPolicy) (tool : String) : List EndpointPermission :=
  (p.bindings.filter fun b => b.tool = tool || b.tool = "*").flatMap (·.endpoints)

/-! ### What decides -/

variable {p : NetworkEgressPolicy} {r : EgressRequest}

/-- The endpoint matches host and port. -/
def reaches (r : EgressRequest) (ep : EndpointPermission) : Bool :=
  domainMatches ep.host r.host && (ep.ports.isEmpty || ep.ports.contains r.port)

/-- The endpoint admits the method, when one is given, and does not miss TLS. -/
def permits (r : EgressRequest) (ep : EndpointPermission) : Bool :=
  !(ep.requireTls && !r.isTls) &&
    match r.method with
    | none => true
    | some method => ep.methods.isEmpty || ep.methods.contains method

/-- The endpoint admits the request. -/
def admits (r : EgressRequest) (ep : EndpointPermission) : Bool := reaches r ep && permits r ep

/-- Some endpoint of the tool admits the request. -/
def Admitted (p : NetworkEgressPolicy) (r : EgressRequest) : Prop :=
  ∃ ep ∈ p.endpointsForTool r.tool, admits r ep = true

/-- The bindings that are looked at: those of the tool, or else those of all tools. -/
def consulted (p : NetworkEgressPolicy) (tool : String) : List ToolEndpointBinding :=
  if (p.bindings.filter (·.tool = tool)).isEmpty then p.bindings.filter (·.tool = "*")
  else p.bindings.filter (·.tool = tool)

/-- The first endpoint looked at that matches host and port. -/
def firstMatch (p : NetworkEgressPolicy) (r : EgressRequest) : Option EndpointPermission :=
  ((p.consulted r.tool).flatMap (·.endpoints)).find? (reaches r)

/-- If some endpoint of the tool admits the request, the first one that matches does. -/
def Decisive (p : NetworkEgressPolicy) (r : EgressRequest) : Prop :=
  Admitted p r → ∃ ep, p.firstMatch r = some ep ∧ admits r ep = true

theorem checkEndpoints_eq (binding : ToolEndpointBinding) (endpoints : List EndpointPermission) :
    checkEndpoints binding r endpoints =
      (endpoints.find? (reaches r)).map fun ep => checkProtocol binding ep r := by
  induction endpoints with
  | nil => rfl
  | cons ep rest ih =>
      rw [checkEndpoints, List.find?_cons, reaches]
      cases domainMatches ep.host r.host with
      | false => exact ih
      | true =>
          cases ep.ports.isEmpty with
          | true => rfl
          | false =>
              cases ep.ports.contains r.port with
              | false => exact ih
              | true => rfl

/-- The checks on an endpoint pass if it permits the request. -/
theorem checkProtocol_cases (binding : ToolEndpointBinding) (ep : EndpointPermission) :
    (permits r ep = true ∧ ∃ ruleDesc, checkProtocol binding ep r = .allowed ruleDesc) ∨
      (permits r ep = false ∧ (checkProtocol binding ep r = .tlsRequired ∨
        ∃ allowed requested, checkProtocol binding ep r = .methodDenied allowed requested)) := by
  rw [permits, checkProtocol]
  cases ep.requireTls && !r.isTls with
  | true => exact Or.inr ⟨rfl, Or.inl rfl⟩
  | false =>
      cases r.method with
      | none => exact Or.inl ⟨rfl, _, rfl⟩
      | some method =>
          dsimp only
          cases ep.methods.isEmpty with
          | true => exact Or.inl ⟨rfl, _, rfl⟩
          | false =>
              cases ep.methods.contains method with
              | true => exact Or.inl ⟨rfl, _, rfl⟩
              | false => exact Or.inr ⟨rfl, Or.inr ⟨_, _, rfl⟩⟩

/-- The first endpoint that matches is the one that is checked. -/
theorem checkEndpointMatch_eq (bindings : List ToolEndpointBinding) :
    match (bindings.flatMap (·.endpoints)).find? (reaches r) with
    | none => checkEndpointMatch r bindings = .noBinding
    | some ep => ∃ binding, checkEndpointMatch r bindings = checkProtocol binding ep r := by
  induction bindings with
  | nil => rfl
  | cons binding rest ih =>
      rw [List.flatMap_cons, List.find?_append, checkEndpointMatch, checkEndpoints_eq]
      cases binding.endpoints.find? (reaches r) with
      | none => exact ih
      | some ep => exact ⟨binding, rfl⟩

theorem checkBinding_eq : p.checkBinding r = checkEndpointMatch r (p.consulted r.tool) := by
  simp only [checkBinding, consulted]
  split
  · split
    · rename_i hempty
      rw [List.isEmpty_iff.mp hempty]
      rfl
    · rfl
  · rfl

/-- Behind the blocklist and localhost, the first endpoint that matches decides. -/
theorem evaluate_cases (hblock : p.checkBlocklist r.host = none)
    (hlocal : isLocalhost r.host = false) :
    match p.firstMatch r with
    | none => ((p.evaluate r).isAllowed = true ↔ p.mode = .auditOnly) ∧
        ((p.evaluate r).isDenied = true ↔ p.mode = .enforce)
    | some ep => (p.evaluate r).isAllowed = permits r ep ∧
        (p.evaluate r).isDenied = !permits r ep := by
  have hcheck := checkEndpointMatch_eq (r := r) (p.consulted r.tool)
  rw [firstMatch]
  cases hfirst : ((p.consulted r.tool).flatMap (·.endpoints)).find? (reaches r) with
  | none =>
      rw [hfirst] at hcheck
      rw [evaluate, hblock, checkBinding_eq, hcheck]
      simp only [hlocal]
      cases p.mode <;> simp [EgressDecision.isAllowed, EgressDecision.isDenied]
  | some ep =>
      rw [hfirst] at hcheck
      obtain ⟨binding, hcheck⟩ := hcheck
      rw [evaluate, hblock, checkBinding_eq, hcheck]
      rcases checkProtocol_cases (r := r) binding ep with
        ⟨hpermits, ruleDesc, hallowed⟩ | ⟨hpermits, htls | ⟨allowed, requested, hmethod⟩⟩
      · simp [hallowed, hpermits, hlocal, EgressDecision.isAllowed, EgressDecision.isDenied]
      · simp [htls, hpermits, hlocal, EgressDecision.isAllowed, EgressDecision.isDenied]
      · simp [hmethod, hpermits, hlocal, EgressDecision.isAllowed, EgressDecision.isDenied]

/-- A request that is neither to a blocked host nor to localhost, under a policy that does not let
everything through. -/
structure Judged (p : NetworkEgressPolicy) (r : EgressRequest) : Prop where
  mode : p.mode = .enforce ∨ p.mode = .requireApproval
  blocklist : p.checkBlocklist r.host = none
  localhost : isLocalhost r.host = false

/-- A request is allowed if the first endpoint that matches admits it. -/
theorem isAllowed_iff (h : Judged p r) : (p.evaluate r).isAllowed = true ↔
    ∃ ep, p.firstMatch r = some ep ∧ admits r ep = true := by
  have hcases := evaluate_cases h.blocklist h.localhost
  cases hfirst : p.firstMatch r with
  | none =>
      rw [hfirst] at hcases
      have hmode : p.mode ≠ .auditOnly := by
        rcases h.mode with hmode | hmode <;> rw [hmode] <;> exact nofun
      exact iff_of_false (mt hcases.1.mp hmode) fun ⟨ep, hep, _⟩ => nomatch hep
  | some ep =>
      rw [hfirst] at hcases
      have hreaches : reaches r ep = true := List.find?_some hfirst
      rw [hcases.1]
      constructor
      · intro hpermits
        exact ⟨ep, rfl, by rw [admits, hreaches, hpermits]; rfl⟩
      · rintro ⟨ep', hep', hadmits⟩
        obtain rfl := Option.some.inj hep'
        exact (Bool.and_eq_true _ _ ▸ hadmits).2

theorem mem_endpointsForTool_of_consulted {ep : EndpointPermission} {tool : String}
    (h : ep ∈ (p.consulted tool).flatMap (·.endpoints)) : ep ∈ p.endpointsForTool tool := by
  obtain ⟨binding, hbinding, hep⟩ := List.mem_flatMap.mp h
  refine List.mem_flatMap.mpr ⟨binding, ?_, hep⟩
  rw [consulted] at hbinding
  split at hbinding
  · obtain ⟨hmem, htool⟩ := List.mem_filter.mp hbinding
    exact List.mem_filter.mpr ⟨hmem, by simpa using Or.inr (of_decide_eq_true htool)⟩
  · obtain ⟨hmem, htool⟩ := List.mem_filter.mp hbinding
    exact List.mem_filter.mpr ⟨hmem, by simpa using Or.inl (of_decide_eq_true htool)⟩

theorem admitted_of_isAllowed (h : Judged p r) (hallowed : (p.evaluate r).isAllowed = true) :
    Admitted p r := by
  obtain ⟨ep, hfirst, hadmits⟩ := (isAllowed_iff h).mp hallowed
  exact ⟨ep, mem_endpointsForTool_of_consulted (List.mem_of_find?_eq_some hfirst), hadmits⟩

/-- The answer is that of all the endpoints of the tool exactly if the first match is decisive. -/
theorem isAllowed_iff_admitted_iff (h : Judged p r) :
    ((p.evaluate r).isAllowed = true ↔ Admitted p r) ↔ Decisive p r := by
  rw [Decisive, ← isAllowed_iff h]
  exact ⟨fun hiff => hiff.mpr, fun himp => ⟨admitted_of_isAllowed h, himp⟩⟩

/-- Where some endpoint admits the request, the answer is whether the first match is decisive. -/
theorem isAllowed_iff_decisive (h : Judged p r) (hadmitted : Admitted p r) :
    (p.evaluate r).isAllowed = true ↔ Decisive p r := by
  rw [Decisive, ← isAllowed_iff h, forall_prop_of_true hadmitted]

/-! ### Other orders, and grants -/

theorem Judged.with_bindings (h : Judged p r) (bindings : List ToolEndpointBinding) :
    Judged { p with bindings := bindings } r :=
  ⟨h.mode, h.blocklist, h.localhost⟩

theorem admitted_perm {bindings : List ToolEndpointBinding} (hperm : bindings.Perm p.bindings) :
    Admitted { p with bindings := bindings } r ↔ Admitted p r := by
  refine exists_congr fun ep => and_congr_left fun _ => ?_
  exact ((hperm.filter _).flatMap_right _).mem_iff

theorem mem_grantTo {tool : String} {permission ep : EndpointPermission}
    {bindings : List ToolEndpointBinding} {f : String → Bool} :
    ep ∈ ((grantTo tool permission bindings).filter fun b => f b.tool).flatMap (·.endpoints) ↔
      ep ∈ (bindings.filter fun b => f b.tool).flatMap (·.endpoints) ∨
        (f tool = true ∧ ep = permission) := by
  induction bindings with
  | nil =>
      rw [grantTo]
      cases hf : f tool <;> simp [hf]
  | cons b rest ih =>
      rw [grantTo]
      split
      · rename_i htool
        subst htool
        cases hf : f b.tool with
        | false => simp [hf]
        | true =>
            simp only [List.filter_cons, hf, if_true, List.flatMap_cons, List.mem_append,
              List.mem_singleton, or_assoc, true_and]
            exact or_congr_right or_comm
      · cases hf : f b.tool <;> simp only [List.filter_cons, hf, if_true, List.flatMap_cons,
          List.mem_append, ih, Bool.false_eq_true, if_false, or_assoc]

/-- A grant only adds to what is admitted. -/
theorem admitted_grant {tool : String} {permission : EndpointPermission} :
    Admitted (p.grantEndpoint tool permission) r ↔ Admitted p r ∨
      ((tool = r.tool ∨ tool = "*") ∧ admits r permission = true) := by
  have hmem : ∀ ep, ep ∈ (p.grantEndpoint tool permission).endpointsForTool r.tool ↔
      ep ∈ p.endpointsForTool r.tool ∨ ((tool = r.tool ∨ tool = "*") ∧ ep = permission) := by
    intro ep
    refine (mem_grantTo (f := fun t => t = r.tool || t = "*")).trans ?_
    rw [Bool.or_eq_true, decide_eq_true_eq, decide_eq_true_eq]
    rfl
  constructor
  · rintro ⟨ep, hep, hadmits⟩
    rcases (hmem ep).mp hep with hep | ⟨htool, rfl⟩
    · exact Or.inl ⟨ep, hep, hadmits⟩
    · exact Or.inr ⟨htool, hadmits⟩
  · rintro (⟨ep, hep, hadmits⟩ | ⟨htool, hadmits⟩)
    · exact ⟨ep, (hmem ep).mpr (Or.inl hep), hadmits⟩
    · exact ⟨permission, (hmem _).mpr (Or.inr ⟨htool, rfl⟩), hadmits⟩

/-- **A request is allowed just if some endpoint of the tool admits it**, exactly if the first
endpoint that matches is decisive; on the same condition the order of the bindings does not matter,
a grant allows what it says, and takes nothing away. -/
theorem egress_iff (h : Judged p r) :
    (((p.evaluate r).isAllowed = true ↔ Admitted p r) ↔ Decisive p r) ∧
    (∀ bindings : List ToolEndpointBinding, bindings.Perm p.bindings →
      (({ p with bindings := bindings }.evaluate r).isAllowed = (p.evaluate r).isAllowed ↔
        (Admitted p r → (Decisive { p with bindings := bindings } r ↔ Decisive p r)))) ∧
    ∀ tool permission,
      ((tool = r.tool ∨ tool = "*") → admits r permission = true →
        (((p.grantEndpoint tool permission).evaluate r).isAllowed = true ↔
          Decisive (p.grantEndpoint tool permission) r)) ∧
      ((p.evaluate r).isAllowed = true →
        (((p.grantEndpoint tool permission).evaluate r).isAllowed = true ↔
          Decisive (p.grantEndpoint tool permission) r)) := by
  refine ⟨isAllowed_iff_admitted_iff h, fun bindings hperm => ?_, fun tool permission => ?_⟩
  · have h' := h.with_bindings bindings
    have hsame := admitted_perm (r := r) hperm
    rw [Bool.eq_iff_iff]
    by_cases hadmitted : Admitted p r
    · rw [isAllowed_iff_decisive h hadmitted, isAllowed_iff_decisive h' (hsame.mpr hadmitted),
        forall_prop_of_true hadmitted]
    · refine iff_of_true (iff_of_false ?_ ?_) fun h => absurd h hadmitted
      · exact fun hallowed => hadmitted (hsame.mp (admitted_of_isAllowed h' hallowed))
      · exact fun hallowed => hadmitted (admitted_of_isAllowed h hallowed)
  · have h' : Judged (p.grantEndpoint tool permission) r := h.with_bindings _
    constructor
    · intro htool hadmits
      exact isAllowed_iff_decisive h' (admitted_grant.mpr (Or.inr ⟨htool, hadmits⟩))
    · intro hallowed
      exact isAllowed_iff_decisive h'
        (admitted_grant.mpr (Or.inl (admitted_of_isAllowed h hallowed)))

/-- A fetch from an API that all tools may reach. -/
def fetchApi : EgressRequest := ⟨"http_fetch", "api.anthropic.com", 443, some .post, true⟩

theorem judged_fetchApi : Judged default fetchApi where
  mode := Or.inr rfl
  blocklist := by decide +kernel
  localhost := by decide +kernel

theorem egress_iff_fetchApi :
    ((default.evaluate fetchApi).isAllowed = true ↔ Admitted default fetchApi) ↔
      Decisive default fetchApi :=
  (egress_iff judged_fetchApi).1

/-- **The bindings of all tools are lost on a tool that has its own.** -/
theorem own_bindings_hide : Judged default fetchApi ∧ Admitted default fetchApi ∧
    (default.evaluate fetchApi).isAllowed = false := by
  refine ⟨judged_fetchApi, ⟨apiEndpoint "api.anthropic.com" [.post] (some "/v1/")
    "Anthropic Claude API", ?_, ?_⟩, ?_⟩
  · exact List.mem_flatMap.mpr ⟨_, List.mem_cons_self, List.mem_cons_self⟩
  · decide +kernel
  · decide +kernel

end NetworkEgressPolicy

end ClawDesk.Security
