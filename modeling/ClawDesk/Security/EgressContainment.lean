import ClawDesk.Security.NetworkEgress

/-!
# What an egress policy contains

Metadata services, private networks and the loopback network must not be reached, however the host
is spelled and whatever the bindings say; with local models allowed, localhost may be.

The blocklist knows an address by its IPv4 text and by its IPv4-mapped IPv6 texts, and a domain by
its name.  It does not know an address in brackets nor a name with the root dot, it keeps 127.0.0.1
away from those whom the policy allows it, and it comes back empty from a round trip through a
serialised policy.  Whatever it does not know is left to the bindings (`contained_iff`).
-/

namespace ClawDesk.Security

open Foundations

namespace NetworkEgressPolicy

/-! ### Histories -/

/-- What is done to a policy after it was built. -/
inductive PolicyChange where
  | addBinding (binding : ToolEndpointBinding)
  | grantEndpoint (tool : String) (permission : EndpointPermission)
  | setMode (mode : EgressMode)
  /-- The policy is serialised and deserialised. -/
  | roundTrip

/-- The addresses of the blocklist are skipped by serialisation, and all else comes back. -/
def change (p : NetworkEgressPolicy) : PolicyChange → NetworkEgressPolicy
  | .addBinding binding => p.addBinding binding
  | .grantEndpoint tool permission => p.grantEndpoint tool permission
  | .setMode mode => { p with mode := mode }
  | .roundTrip => { p with cidrBlocklist := [] }

def after (p : NetworkEgressPolicy) (changes : List PolicyChange) : NetworkEgressPolicy :=
  changes.foldl change p

/-- What no change touches. -/
theorem after_domains (p : NetworkEgressPolicy) (changes : List PolicyChange) :
    (p.after changes).blockedDomains = p.blockedDomains ∧
      (p.after changes).allowLocalhost = p.allowLocalhost := by
  induction changes generalizing p with
  | nil => exact ⟨rfl, rfl⟩
  | cons c changes ih =>
      have hfirst : (p.change c).blockedDomains = p.blockedDomains ∧
          (p.change c).allowLocalhost = p.allowLocalhost := by cases c <;> exact ⟨rfl, rfl⟩
      exact ⟨(ih _).1.trans hfirst.1, (ih _).2.trans hfirst.2⟩

/-- The addresses of the blocklist are there until the first round trip. -/
theorem mem_after_cidrBlocklist (p : NetworkEgressPolicy) (changes : List PolicyChange)
    (block : CidrBlock) : block ∈ (p.after changes).cidrBlocklist ↔
      PolicyChange.roundTrip ∉ changes ∧ block ∈ p.cidrBlocklist := by
  induction changes generalizing p with
  | nil => exact (and_iff_right List.not_mem_nil).symm
  | cons c changes ih =>
      refine (ih _).trans ?_
      rw [List.mem_cons, not_or, and_assoc, and_left_comm]
      refine and_congr_right fun _ => ?_
      cases c with
      | roundTrip => exact iff_of_false List.not_mem_nil fun h => h.1 rfl
      | addBinding binding => exact (and_iff_right nofun).symm
      | grantEndpoint tool permission => exact (and_iff_right nofun).symm
      | setMode mode => exact (and_iff_right nofun).symm

/-! ### Hosts -/

/-- The networks that are blocked. -/
def blockedNetworks : List (Ipv4Addr × ℕ) :=
  [(.new 10 0 0 0, 8), (.new 172 16 0 0, 12), (.new 192 168 0 0, 16), (.new 169 254 0 0, 16),
    (.new 127 0 0 0, 8), (.new 100 64 0 0, 10), (.new 100 100 100 200, 32)]

/-- An address is in a network if it has its leading bits. -/
def InNetwork (ip : Ipv4Addr) (network : Ipv4Addr × ℕ) : Prop :=
  ip.toNat / 2 ^ (32 - network.2) = network.1.toNat / 2 ^ (32 - network.2)

def BlockedAddr (ip : Ipv4Addr) : Prop := ∃ network ∈ blockedNetworks, InNetwork ip network

/-- The text of an IPv4 address, or of the IPv6 address that it is mapped to. -/
def Literal (text : List Char) (ip : Ipv4Addr) : Prop :=
  text = ip.display ∨
    ∃ segments, parseIpAddr text = some (.v6 segments) ∧ toIpv4Mapped segments = some ip

/-- A host that says an address, in the brackets of a URL or without them. -/
def Denotes (host : String) (ip : Ipv4Addr) : Prop :=
  Literal host.toList ip ∨ ∃ text, host.toList = '[' :: text ++ [']'] ∧ Literal text ip

/-- A host that says a blocked address, or a blocked domain with or without the root dot. -/
def BlockedHost (host : String) : Prop :=
  (∃ ip, Denotes host ip ∧ BlockedAddr ip) ∨
    ∃ domain ∈ defaultBlockedDomains,
      asciiLower host = domain.toList ∨ asciiLower host = domain.toList ++ ['.']

def LoopbackHost (host : String) : Prop :=
  isLocalhost host = true ∨ ∃ ip, Denotes host ip ∧ InNetwork ip (.new 127 0 0 0, 8)

/-! ### What the blocklist knows -/

theorem blocklist_networks :
    defaultCidrBlocklist.map (fun block => (block.network, block.mask)) =
      blockedNetworks.map fun network =>
        (network.1.bits &&& (BitVec.allOnes 32 <<< (32 - network.2)),
          BitVec.allOnes 32 <<< (32 - network.2)) := by
  decide +kernel

/-- **The blocklist blocks what is in one of the networks.** -/
theorem exists_contains_iff (ip : Ipv4Addr) :
    (∃ block ∈ defaultCidrBlocklist, block.contains ip = true) ↔ BlockedAddr ip := by
  have hblocks : (∃ block ∈ defaultCidrBlocklist, block.contains ip = true) ↔
      ∃ pair ∈ defaultCidrBlocklist.map (fun block => (block.network, block.mask)),
        ip.bits &&& pair.2 = pair.1 := by
    simp [CidrBlock.contains]
  rw [hblocks, blocklist_networks, BlockedAddr]
  simp only [List.mem_map, exists_exists_and_eq_and]
  refine exists_congr fun network => and_congr_right fun _ => ?_
  rw [and_mask_eq_iff, Ipv4Addr.toNat_bits, Ipv4Addr.toNat_bits, InNetwork]

section Blocklist

variable (p : NetworkEgressPolicy) (host : String)

theorem blockOf_isSome (ip : Ipv4Addr) : (p.blockOf ip).isSome = true ↔
    ∃ block ∈ p.cidrBlocklist, block.contains ip = true :=
  List.find?_isSome

theorem checkDomain_isSome : (p.checkDomain host).isSome = true ↔
    ∃ domain ∈ p.blockedDomains, asciiLower host = domain.toList := by
  rw [checkDomain, Option.isSome_map, List.find?_isSome]
  simp only [decide_eq_true_eq]

theorem checkIpv4_isSome : (p.checkIpv4 host).isSome = true ↔
    ∃ ip, host.toList = ip.display ∧ (p.blockOf ip).isSome = true := by
  simp only [← parseIpv4_iff, checkIpv4]
  cases parseIpv4 host.toList <;> simp

theorem checkMapped_isSome : (p.checkMapped host).isSome = true ↔
    ∃ ip, (∃ segments, parseIpAddr host.toList = some (.v6 segments) ∧
      toIpv4Mapped segments = some ip) ∧ (p.blockOf ip).isSome = true := by
  rw [checkMapped]
  cases parseIpAddr host.toList with
  | none => simp
  | some address =>
      cases address with
      | v4 ip => simp
      | v6 segments =>
          simp only [Option.some.injEq, IpAddr.v6.injEq, exists_eq_left']
          cases toIpv4Mapped segments <;> simp

/-- A host is blocked for its name, or for the address that it says without brackets. -/
theorem checkBlocklist_isSome : (p.checkBlocklist host).isSome = true ↔
    (∃ domain ∈ p.blockedDomains, asciiLower host = domain.toList) ∨
      ∃ ip, Literal host.toList ip ∧ ∃ block ∈ p.cidrBlocklist, block.contains ip = true := by
  have hliteral : (∃ ip, Literal host.toList ip ∧
      ∃ block ∈ p.cidrBlocklist, block.contains ip = true) ↔
      (p.checkIpv4 host).isSome = true ∨ (p.checkMapped host).isSome = true := by
    rw [checkIpv4_isSome, checkMapped_isSome, ← exists_or]
    refine exists_congr fun ip => ?_
    rw [Literal, or_and_right, blockOf_isSome]
  rw [hliteral, ← checkDomain_isSome, checkBlocklist]
  cases p.checkDomain host <;> cases p.checkIpv4 host <;> simp

end Blocklist

/-! ### What is contained -/

/-- The promise: what is blocked is refused, unless it is a loopback host and localhost is allowed;
and if it is allowed, so are all of its spellings. -/
structure Contained (p : NetworkEgressPolicy) (r : EgressRequest) : Prop where
  refused : BlockedHost r.host → ¬ (p.allowLocalhost = true ∧ LoopbackHost r.host) →
    (p.evaluate r).isDenied = true
  localhost : p.allowLocalhost = true → isLocalhost r.host = true → (p.evaluate r).isAllowed = true

/-- The blocklist knows the host. -/
def Known (changes : List PolicyChange) (host : String) : Prop :=
  (∃ domain ∈ defaultBlockedDomains, asciiLower host = domain.toList) ∨
    PolicyChange.roundTrip ∉ changes ∧ ∃ ip, Literal host.toList ip ∧ BlockedAddr ip

/-- The bindings refuse the request: the first endpoint that matches does not permit it, or none
matches and everything unbound is refused. -/
def BindingsRefuse (p : NetworkEgressPolicy) (r : EgressRequest) : Prop :=
  match p.firstMatch r with
  | none => p.mode = .enforce
  | some ep => permits r ep = false

variable {start : NetworkEgressPolicy} {changes : List PolicyChange} {r : EgressRequest}

/-- The policies that are built. -/
def Built (start : NetworkEgressPolicy) : Prop := start = default ∨ start = withLocalModels

theorem Built.blocklists (h : Built start) :
    start.blockedDomains = defaultBlockedDomains ∧ start.cidrBlocklist = defaultCidrBlocklist := by
  rcases h with rfl | rfl <;> exact ⟨rfl, rfl⟩

/-- The blocklist of a policy with its history. -/
theorem checkBlocklist_after (h : Built start) (changes : List PolicyChange) (host : String) :
    ((start.after changes).checkBlocklist host).isSome = true ↔ Known changes host := by
  rw [checkBlocklist_isSome, (after_domains start changes).1, h.blocklists.1, Known]
  refine or_congr_right ?_
  simp only [mem_after_cidrBlocklist, h.blocklists.2, ← exists_contains_iff]
  constructor
  · rintro ⟨ip, hip, block, ⟨hfresh, hmem⟩, hcontains⟩
    exact ⟨hfresh, ip, hip, block, hmem, hcontains⟩
  · rintro ⟨hfresh, ip, hip, block, hmem, hcontains⟩
    exact ⟨ip, hip, block, ⟨hfresh, hmem⟩, hcontains⟩

/-- What is refused: a known host, localhost where it is not allowed, and what the bindings
refuse. -/
theorem isDenied_iff (p : NetworkEgressPolicy) (r : EgressRequest) :
    (p.evaluate r).isDenied = true ↔ (p.checkBlocklist r.host).isSome = true ∨
      (isLocalhost r.host = true ∧ p.allowLocalhost = false) ∨
      (isLocalhost r.host = false ∧ BindingsRefuse p r) := by
  cases hblock : p.checkBlocklist r.host with
  | some reason =>
      rw [evaluate, hblock]
      exact iff_of_true rfl (Or.inl rfl)
  | none =>
      rw [or_iff_right (by simp)]
      cases hlocal : isLocalhost r.host with
      | true =>
          rw [evaluate, hblock]
          simp only [hlocal]
          cases p.allowLocalhost <;> simp [EgressDecision.isDenied]
      | false =>
          have hcases := evaluate_cases hblock hlocal
          rw [BindingsRefuse]
          cases hfirst : p.firstMatch r with
          | none =>
              rw [hfirst] at hcases
              simpa using hcases.2
          | some ep =>
              rw [hfirst] at hcases
              simp [hcases.2]

/-- Of the spellings of localhost only one says a blocked address. -/
theorem known_localhost_iff {host : String} (hlocal : isLocalhost host = true) :
    Known changes host ↔ PolicyChange.roundTrip ∉ changes ∧ host = "127.0.0.1" := by
  have hspelling : host ∈ ["localhost", "127.0.0.1", "::1", "[::1]", "0.0.0.0"] := by
    simpa [isLocalhost] using hlocal
  have hname : ∀ host ∈ ["localhost", "127.0.0.1", "::1", "[::1]", "0.0.0.0"],
      ¬ ∃ domain ∈ defaultBlockedDomains, asciiLower host = domain.toList := by decide +kernel
  have hcheck : ∀ host ∈ ["localhost", "127.0.0.1", "::1", "[::1]", "0.0.0.0"],
      (default.checkBlocklist host).isSome = true ↔ host = "127.0.0.1" := by decide +kernel
  have haddr : (∃ ip, Literal host.toList ip ∧ BlockedAddr ip) ↔ host = "127.0.0.1" := by
    rw [← hcheck host hspelling, checkBlocklist_isSome]
    refine Iff.trans ?_ (or_iff_right (hname host hspelling)).symm
    exact exists_congr fun ip => and_congr_right fun _ => (exists_contains_iff ip).symm
  rw [Known, or_iff_right (hname host hspelling), haddr]

/-- **What a policy contains.**  Under every history, a request to a blocked host is refused, and
one to localhost is allowed where the policy says so, exactly if the blocklist knows the host, or
localhost is refused, or the bindings refuse the request; and the host is not 127.0.0.1 with a
blocklist that is still there. -/
theorem contained_iff (hstart : Built start) (changes : List PolicyChange) (r : EgressRequest) :
    Contained (start.after changes) r ↔
      (BlockedHost r.host → ¬ (start.allowLocalhost = true ∧ LoopbackHost r.host) →
        Known changes r.host ∨ isLocalhost r.host = true ∨
          BindingsRefuse (start.after changes) r) ∧
      (start.allowLocalhost = true → PolicyChange.roundTrip ∉ changes → r.host ≠ "127.0.0.1") := by
  have hallow := (after_domains start changes).2
  have hrefused : ¬ (start.allowLocalhost = true ∧ LoopbackHost r.host) →
      (((start.after changes).evaluate r).isDenied = true ↔ Known changes r.host ∨
        isLocalhost r.host = true ∨ BindingsRefuse (start.after changes) r) := by
    intro hopen
    rw [isDenied_iff, checkBlocklist_after hstart, hallow]
    refine or_congr_right ?_
    cases hlocal : isLocalhost r.host with
    | true =>
        have hclosed : start.allowLocalhost = false :=
          Bool.eq_false_iff.mpr fun h => hopen ⟨h, Or.inl hlocal⟩
        simp [hclosed]
    | false => simp
  have hlocalhost : start.allowLocalhost = true → isLocalhost r.host = true →
      (((start.after changes).evaluate r).isAllowed = true ↔ ¬ Known changes r.host) := by
    intro hopen hlocal
    rw [← checkBlocklist_after hstart]
    cases hblock : (start.after changes).checkBlocklist r.host with
    | some reason =>
        rw [evaluate, hblock]
        simp [EgressDecision.isAllowed]
    | none =>
        rw [evaluate, hblock]
        simp [hlocal, hallow, hopen, EgressDecision.isAllowed]
  constructor
  · rintro ⟨hfirst, hsecond⟩
    rw [hallow] at hfirst hsecond
    refine ⟨fun hblocked hopen => (hrefused hopen).mp (hfirst hblocked hopen), ?_⟩
    rintro hopen hfresh heq
    have hlocal : isLocalhost r.host = true := by
      rw [heq]
      decide
    refine (hlocalhost hopen hlocal).mp (hsecond hopen hlocal) ?_
    exact (known_localhost_iff hlocal).mpr ⟨hfresh, heq⟩
  · rintro ⟨hfirst, hsecond⟩
    refine ⟨fun hblocked hopen => ?_, fun hopen hlocal => ?_⟩
    · rw [hallow] at hopen
      exact (hrefused hopen).mpr (hfirst hblocked hopen)
    · rw [hallow] at hopen
      refine (hlocalhost hopen hlocal).mpr fun hknown => ?_
      obtain ⟨hfresh, heq⟩ := (known_localhost_iff hlocal).mp hknown
      exact hsecond hopen hfresh heq

/-- A request to the metadata service of a cloud, spelled as a URL spells an IPv6 address. -/
def bracketed : EgressRequest := ⟨"bash", "[169.254.169.254]", 80, none, false⟩

theorem contained_iff_default : Contained (default.after []) bracketed ↔
    (BlockedHost bracketed.host → ¬ (default.allowLocalhost = true ∧ LoopbackHost bracketed.host) →
      Known [] bracketed.host ∨ isLocalhost bracketed.host = true ∨
        BindingsRefuse (default.after []) bracketed) ∧
    (default.allowLocalhost = true → PolicyChange.roundTrip ∉ ([] : List PolicyChange) →
      bracketed.host ≠ "127.0.0.1") :=
  contained_iff (Or.inl rfl) [] bracketed

/-- **An address in brackets gets through** to the operator. -/
theorem bracketed_not_contained : ¬ Contained (default.after []) bracketed := by
  intro h
  have hblocked : BlockedHost bracketed.host := by
    refine Or.inl ⟨⟨169, 254, 169, 254⟩, Or.inr ⟨"169.254.169.254".toList, by decide +kernel,
      Or.inl (by decide +kernel)⟩, (⟨169, 254, 0, 0⟩, 16), by decide +kernel, ?_⟩
    show _ / _ = _ / _
    decide +kernel
  have hdenied := h.refused hblocked fun hopen => Bool.noConfusion hopen.1
  revert hdenied
  decide +kernel

end NetworkEgressPolicy

end ClawDesk.Security
