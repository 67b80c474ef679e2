import ClawDesk.Foundations.Str

/-!
# The capability guard

An agent may use a tool, reach a host or open a path if no deny pattern of that domain matches
it and an allow pattern does.  The patterns for hosts and paths are read letter by letter:
`*.d` matches whatever ends in `d`, and `p/**` whatever begins with `p`, so each also
matches targets that only look like a subdomain of `d` or a path below `p`.

A look-alike on the deny side denies what should be granted, and one on the allow side
grants what should not be.  `check_lawful_iff` says when neither decides.
-/

namespace ClawDesk.Security

open Foundations

/-- A set of allow/deny rules for a named capability domain, each in the order in which its
set is iterated. -/
structure PolicySet where
  allow : List String
  deny : List String

/-- Per-agent capability policy loaded from TOML config. -/
structure CapabilityPolicy where
  agentId : String
  /-- Tool-level access control. -/
  tools : PolicySet
  /-- Network host access control (supports glob: "*.openai.com"). -/
  network : PolicySet
  /-- Filesystem path access control (supports glob: "/tmp/**"). -/
  filesystem : PolicySet

/-- What kind of capability is being checked. -/
inductive CapabilityKind where
  | tool (name : String)
  | network (host : String)
  | filesystem (path : String)

/-- Result of a capability check. -/
inductive CapabilityDecision where
  | allow
  | deny (reason : String)
  deriving DecidableEq

def CapabilityDecision.isAllowed : CapabilityDecision → Bool
  | allow => true
  | deny _ => false

/-! ### Patterns -/

/-- The body of the loop of `matches_any`.  Where a text ends in another one, their lengths
in bytes compare like those in characters. -/
def patternMatches (target pattern : String) : Bool :=
  pattern = "*" || pattern = target ||
    -- Prefix wildcard: "*.example.com"
    (Str.stripFront ['*', '.'] pattern.toList).any (fun suffix =>
      suffix.isSuffixOf target.toList && suffix.length < target.toList.length) ||
    -- Suffix wildcard: "/tmp/**"
    (Str.stripBack ['/', '*', '*'] pattern.toList).any fun front =>
      front.isPrefixOf target.toList

/-- Check if any pattern in the set matches the target. -/
def matchesAny (patterns : List String) (target : String) : Bool :=
  patterns.any (patternMatches target)

/-- Exact match in HashSet. -/
def containsTool (names : List String) (toolName : String) : Bool :=
  names.contains toolName || names.contains "*"

/-! ### The guard -/

namespace CapabilityGuard

/-- The three checks: deny takes precedence, and what is not allowed is denied. -/
def checkSet (test : List String → String → Bool) (set : PolicySet) (target : String)
    (denied missing : String) : CapabilityDecision :=
  if test set.deny target then .deny denied
  else if test set.allow target then .allow
  else .deny missing

section Check

variable (policy : CapabilityPolicy)

def checkTool (toolName : String) : CapabilityDecision :=
  checkSet containsTool policy.tools toolName
    ("agent '" ++ policy.agentId ++ "' is denied tool '" ++ toolName ++ "'")
    ("agent '" ++ policy.agentId ++ "' has no explicit allow for tool '" ++ toolName ++ "'")

def checkNetwork (host : String) : CapabilityDecision :=
  checkSet matchesAny policy.network host
    ("agent '" ++ policy.agentId ++ "' is denied network access to '" ++ host ++ "'")
    ("agent '" ++ policy.agentId ++ "' has no explicit allow for network host '" ++ host ++ "'")

def checkFilesystem (path : String) : CapabilityDecision :=
  checkSet matchesAny policy.filesystem path
    ("agent '" ++ policy.agentId ++ "' is denied filesystem access to '" ++ path ++ "'")
    ("agent '" ++ policy.agentId ++ "' has no explicit allow for path '" ++ path ++ "'")

/-- Check whether the agent is allowed to exercise the given capability. -/
def check : CapabilityKind → CapabilityDecision
  | .tool name => checkTool policy name
  | .network host => checkNetwork policy host
  | .filesystem path => checkFilesystem policy path

end Check

end CapabilityGuard

/-! ### What a pattern means -/

/-- `*` is everything, `*.d` the proper subdomains of `d`, `p/**` the path `p` and what is below it,
and any other pattern itself. -/
def Covers (pattern target : List Char) : Prop :=
  pattern = ['*'] ∨ pattern = target ∨
    (∃ domain, pattern = ['*', '.'] ++ domain ∧ ['.'] ++ domain <:+ target) ∨
    ∃ dir, pattern = dir ++ ['/', '*', '*'] ∧ (target = dir ∨ dir ++ ['/'] <+: target)

/-- The target ends in `d` or begins with `p`, but not where a label or a component does. -/
def LooksCovered (pattern target : List Char) : Prop :=
  (∃ domain front c, pattern = ['*', '.'] ++ domain ∧ target = front ++ c :: domain ∧ c ≠ '.') ∨
    ∃ dir c rest, pattern = dir ++ ['/', '*', '*'] ∧ target = dir ++ c :: rest ∧ c ≠ '/'

/-- Ending in a text and being longer. -/
theorem isSuffixOf_and_lt {suffix target : List Char} :
    (suffix.isSuffixOf target && decide (suffix.length < target.length)) = true ↔
      ['.'] ++ suffix <:+ target ∨ ∃ front c, target = front ++ c :: suffix ∧ c ≠ '.' := by
  rw [Bool.and_eq_true, List.isSuffixOf_iff_suffix, decide_eq_true_eq]
  constructor
  · rintro ⟨⟨front, rfl⟩, hlt⟩
    rcases front.eq_nil_or_concat with rfl | ⟨front, c, rfl⟩
    · simp at hlt
    · by_cases hc : c = '.'
      · exact Or.inl ⟨front, by simp [hc]⟩
      · exact Or.inr ⟨front, c, by simp, hc⟩
  · rintro (⟨front, rfl⟩ | ⟨front, c, rfl, -⟩)
    · exact ⟨⟨front ++ ['.'], by simp⟩, by simp; omega⟩
    · exact ⟨⟨front ++ [c], by simp⟩, by simp; omega⟩

/-- Beginning with a text. -/
theorem isPrefixOf_cases {dir target : List Char} : dir.isPrefixOf target = true ↔
    (target = dir ∨ dir ++ ['/'] <+: target) ∨ ∃ c rest, target = dir ++ c :: rest ∧ c ≠ '/' := by
  rw [List.isPrefixOf_iff_prefix]
  constructor
  · rintro ⟨rest, rfl⟩
    cases rest with
    | nil => exact Or.inl (Or.inl (List.append_nil dir))
    | cons c rest =>
        by_cases hc : c = '/'
        · exact Or.inl (Or.inr ⟨rest, by simp [hc]⟩)
        · exact Or.inr ⟨c, rest, rfl, hc⟩
  · rintro ((rfl | ⟨rest, rfl⟩) | ⟨c, rest, rfl, -⟩)
    · exact List.prefix_rfl
    · exact ⟨'/' :: rest, by simp⟩
    · exact ⟨c :: rest, rfl⟩

/-- The rule for `*.d`. -/
theorem suffixRule_iff {pattern target : List Char} :
    (Str.stripFront ['*', '.'] pattern).any (fun suffix =>
        suffix.isSuffixOf target && suffix.length < target.length) = true ↔
      (∃ domain, pattern = ['*', '.'] ++ domain ∧ ['.'] ++ domain <:+ target) ∨
      ∃ domain front c, pattern = ['*', '.'] ++ domain ∧ target = front ++ c :: domain ∧
        c ≠ '.' := by
  simp only [Option.any_eq_true, Str.stripFront_eq_some_iff, isSuffixOf_and_lt, and_or_left,
    exists_or, exists_and_left]

/-- The rule for `p/**`. -/
theorem prefixRule_iff {pattern target : List Char} :
    (Str.stripBack ['/', '*', '*'] pattern).any (fun front => front.isPrefixOf target) = true ↔
      (∃ dir, pattern = dir ++ ['/', '*', '*'] ∧ (target = dir ∨ dir ++ ['/'] <+: target)) ∨
      ∃ dir c rest, pattern = dir ++ ['/', '*', '*'] ∧ target = dir ++ c :: rest ∧ c ≠ '/' := by
  simp only [Option.any_eq_true, Str.stripBack_eq_some_iff, isPrefixOf_cases, and_or_left,
    exists_or, exists_and_left]

/-- **A pattern matches what it covers, and what looks like it.** -/
theorem patternMatches_iff {target pattern : String} : patternMatches target pattern = true ↔
    Covers pattern.toList target.toList ∨ LooksCovered pattern.toList target.toList := by
  have hstar : pattern = "*" ↔ pattern.toList = ['*'] := String.toList_inj.symm
  have hself : pattern = target ↔ pattern.toList = target.toList := String.toList_inj.symm
  rw [patternMatches, Bool.or_eq_true, Bool.or_eq_true, Bool.or_eq_true, suffixRule_iff,
    prefixRule_iff, decide_eq_true_eq, decide_eq_true_eq, hstar, hself]
  constructor
  · rintro (((h | h) | h | h) | h | h)
    · exact Or.inl (Or.inl h)
    · exact Or.inl (Or.inr (Or.inl h))
    · exact Or.inl (Or.inr (Or.inr (Or.inl h)))
    · exact Or.inr (Or.inl h)
    · exact Or.inl (Or.inr (Or.inr (Or.inr h)))
    · exact Or.inr (Or.inr h)
  · rintro ((h | h | h | h) | h | h)
    · exact Or.inl (Or.inl (Or.inl h))
    · exact Or.inl (Or.inl (Or.inr h))
    · exact Or.inl (Or.inr (Or.inl h))
    · exact Or.inr (Or.inl h)
    · exact Or.inl (Or.inr (Or.inr h))
    · exact Or.inr (Or.inr h)

/-! ### What the guard should do -/

/-- The domains of capabilities. -/
inductive CapabilityDomain where
  | tools
  | network
  | filesystem

namespace CapabilityPolicy

/-- The rules of a domain. -/
def set (policy : CapabilityPolicy) : CapabilityDomain → PolicySet
  | .tools => policy.tools
  | .network => policy.network
  | .filesystem => policy.filesystem

/-- A further deny pattern, wherever it comes in the iteration of its set. -/
structure DeniesMore (policy policy' : CapabilityPolicy) : Prop where
  allow : ∀ domain, (policy'.set domain).allow ⊆ (policy.set domain).allow
  deny : ∀ domain, (policy.set domain).deny ⊆ (policy'.set domain).deny

/-- The same sets, iterated in another order. -/
structure Reordered (policy policy' : CapabilityPolicy) : Prop where
  agentId : policy.agentId = policy'.agentId
  allow : ∀ domain, ((policy.set domain).allow).Perm (policy'.set domain).allow
  deny : ∀ domain, ((policy.set domain).deny).Perm (policy'.set domain).deny

end CapabilityPolicy

namespace CapabilityKind

def domain : CapabilityKind → CapabilityDomain
  | tool _ => .tools
  | network _ => .network
  | filesystem _ => .filesystem

/-- The pattern matches the capability.  A tool is only meant by its name and by `*`. -/
def Matches : CapabilityKind → String → Prop
  | tool name, pattern => pattern = name ∨ pattern = "*"
  | network host, pattern => Covers pattern.toList host.toList
  | filesystem path, pattern => Covers pattern.toList path.toList

/-- The pattern is taken to match the capability, without meaning it. -/
def LooksMatched : CapabilityKind → String → Prop
  | tool _, _ => False
  | network host, pattern => LooksCovered pattern.toList host.toList
  | filesystem path, pattern => LooksCovered pattern.toList path.toList

end CapabilityKind

namespace CapabilityGuard

/-- **The law of the guard** for a capability. -/
structure Lawful (policy : CapabilityPolicy) (cap : CapabilityKind) : Prop where
  allows_iff : check policy cap = .allow ↔
    (∀ pattern ∈ (policy.set cap.domain).deny, ¬ cap.Matches pattern) ∧
      ∃ pattern ∈ (policy.set cap.domain).allow, cap.Matches pattern
  denying : ∀ policy', policy.DeniesMore policy' →
    check policy' cap = .allow → check policy cap = .allow
  order : ∀ policy', policy.Reordered policy' → check policy' cap = check policy cap

/-! ### What the guard does -/

section Answer

variable {policy policy' : CapabilityPolicy} {cap : CapabilityKind}

/-- The code's test of a capability against a set. -/
def test : CapabilityKind → List String → Bool
  | .tool name, names => containsTool names name
  | .network host, patterns => matchesAny patterns host
  | .filesystem path, patterns => matchesAny patterns path

theorem test_iff {patterns : List String} : test cap patterns = true ↔
    ∃ pattern ∈ patterns, cap.Matches pattern ∨ cap.LooksMatched pattern := by
  cases cap with
  | tool name =>
      simp only [test, containsTool, Bool.or_eq_true, List.contains_iff_mem,
        CapabilityKind.Matches, CapabilityKind.LooksMatched, or_false, and_or_left, exists_or,
        exists_eq_right]
  | network host =>
      simp only [test, matchesAny, List.any_eq_true, patternMatches_iff]
      rfl
  | filesystem path =>
      simp only [test, matchesAny, List.any_eq_true, patternMatches_iff]
      rfl

/-- Only what a set contains matters to the test. -/
theorem test_mono {patterns patterns' : List String} (h : patterns ⊆ patterns')
    (htest : test cap patterns = true) : test cap patterns' = true := by
  rw [test_iff] at *
  obtain ⟨pattern, hmem, hmatch⟩ := htest
  exact ⟨pattern, h hmem, hmatch⟩

theorem test_perm {patterns patterns' : List String} (h : patterns.Perm patterns') :
    test cap patterns = test cap patterns' := by
  rw [Bool.eq_iff_iff]
  exact ⟨test_mono h.subset, test_mono h.symm.subset⟩

theorem checkSet_eq_allow_iff {test : List String → String → Bool} {set : PolicySet}
    {target denied missing : String} : checkSet test set target denied missing = .allow ↔
      test set.deny target = false ∧ test set.allow target = true := by
  unfold checkSet
  split_ifs <;> simp [*]

/-- **What is allowed** is not denied by the test and allowed by it. -/
theorem check_eq_allow_iff : check policy cap = .allow ↔
    test cap (policy.set cap.domain).deny = false ∧
      test cap (policy.set cap.domain).allow = true := by
  cases cap with
  | tool name => exact checkSet_eq_allow_iff
  | network host => exact checkSet_eq_allow_iff
  | filesystem path => exact checkSet_eq_allow_iff

theorem checkSet_congr {test : List String → String → Bool} {set set' : PolicySet}
    {target denied missing : String} (hdeny : test set'.deny target = test set.deny target)
    (hallow : test set'.allow target = test set.allow target) :
    checkSet test set' target denied missing = checkSet test set target denied missing := by
  rw [checkSet, checkSet, hdeny, hallow]

/-- The order in which the sets are iterated does not show. -/
theorem check_reordered (h : policy.Reordered policy') : check policy' cap = check policy cap := by
  have hdeny := fun domain => @test_perm cap _ _ (h.deny domain).symm
  have hallow := fun domain => @test_perm cap _ _ (h.allow domain).symm
  cases cap with
  | tool name =>
      rw [check, check, checkTool, checkTool, h.agentId]
      exact checkSet_congr (hdeny .tools) (hallow .tools)
  | network host =>
      rw [check, check, checkNetwork, checkNetwork, h.agentId]
      exact checkSet_congr (hdeny .network) (hallow .network)
  | filesystem path =>
      rw [check, check, checkFilesystem, checkFilesystem, h.agentId]
      exact checkSet_congr (hdeny .filesystem) (hallow .filesystem)

/-- A deny pattern never turns a denial into a permission. -/
theorem check_deniesMore (h : policy.DeniesMore policy') (hallow : check policy' cap = .allow) :
    check policy cap = .allow := by
  rw [check_eq_allow_iff] at *
  refine ⟨?_, test_mono (h.allow _) hallow.2⟩
  rw [← Bool.not_eq_true]
  intro hdeny
  exact absurd (test_mono (h.deny cap.domain) hdeny) (by simp [hallow.1])

end Answer

/-! ### When the guard keeps its law -/

/-- A pattern of the list matches the capability. -/
def Hits (cap : CapabilityKind) (patterns : List String) : Prop :=
  ∃ pattern ∈ patterns, cap.Matches pattern

/-- A pattern of the list is taken to match the capability without meaning it. -/
def Misleads (cap : CapabilityKind) (patterns : List String) : Prop :=
  ∃ pattern ∈ patterns, cap.LooksMatched pattern

theorem test_eq_true_iff {cap : CapabilityKind} {patterns : List String} :
    test cap patterns = true ↔ Hits cap patterns ∨ Misleads cap patterns := by
  rw [test_iff]
  simp only [and_or_left, exists_or]
  rfl

/-- **When the guard keeps its law**: a deny pattern matches, or a look-alike on the deny side
denies what no allow pattern grants, or without one, what a look-alike grants on the allow
side is granted by a pattern that matches. -/
theorem check_lawful_iff (policy : CapabilityPolicy) (cap : CapabilityKind) : Lawful policy cap ↔
    Hits cap (policy.set cap.domain).deny ∨
    (Misleads cap (policy.set cap.domain).deny ∧ ¬ Hits cap (policy.set cap.domain).allow) ∨
    (¬ Misleads cap (policy.set cap.domain).deny ∧
      (Misleads cap (policy.set cap.domain).allow → Hits cap (policy.set cap.domain).allow)) := by
  have hlaw : Lawful policy cap ↔ (check policy cap = .allow ↔
      ¬ Hits cap (policy.set cap.domain).deny ∧ Hits cap (policy.set cap.domain).allow) := by
    rw [Hits, not_exists]
    simp only [not_and]
    exact ⟨Lawful.allows_iff, fun h => ⟨h, fun _ => check_deniesMore, fun _ => check_reordered⟩⟩
  rw [hlaw, check_eq_allow_iff, ← Bool.not_eq_true, test_eq_true_iff, test_eq_true_iff]
  by_cases hdeny : Hits cap (policy.set cap.domain).deny
  · simp [hdeny]
  · by_cases hmislead : Misleads cap (policy.set cap.domain).deny
    · simp [hdeny, hmislead]
    · simp [hdeny, hmislead]

/-- `*.openai.com` lets `evilopenai.com` through. -/
theorem allows_evil_host : ¬ Lawful
    { agentId := "test-agent", tools := ⟨[], []⟩, network := ⟨["*.openai.com"], []⟩,
      filesystem := ⟨[], []⟩ } (.network "evilopenai.com") := by
  intro h
  obtain ⟨-, pattern, hpattern, hmatch⟩ := h.allows_iff.mp (by decide +kernel)
  obtain rfl := List.mem_singleton.mp hpattern
  rcases hmatch with hstar | hself | ⟨domain, hdomain, hsuffix⟩ | ⟨dir, hdir, -⟩
  · exact absurd hstar (by decide +kernel)
  · exact absurd hself (by decide +kernel)
  · obtain rfl : domain = "openai.com".toList := List.append_cancel_left hdomain.symm
    exact absurd hsuffix (by decide +kernel)
  · have hend : ['/', '*', '*'] <:+ "*.openai.com".toList := ⟨dir, hdir.symm⟩
    exact absurd hend (by decide +kernel)

end CapabilityGuard

end ClawDesk.Security
