import ClawDesk.Foundations.PrefixTrie
import ClawDesk.Foundations.Str

/-!
# The command policy

A command is classified by the rule whose prefix it begins with.  The prefixes are kept
in a trie, each with the index of its rule, and the longest one that begins the command
decides.  The engine selects the rule a scan of the rules selects
(`classify_eq_linearScan`).
-/

namespace ClawDesk.Security.CommandPolicy

open Foundations

/-- Risk level for command execution. -/
inductive RiskLevel where
  | low
  | medium
  | high
  deriving DecidableEq

/-- A single command policy rule. -/
structure PolicyRule where
  /-- Prefix to match against normalized command text. -/
  prefixText : String
  risk : RiskLevel
  requiresApproval : Bool
  deny : Bool
  reason : Option String
  deriving DecidableEq

/-- Engine configuration. -/
structure CommandPolicyConfig where
  defaultRisk : RiskLevel
  defaultRequiresApproval : Bool
  rules : List PolicyRule

/-- Classification output for a command. -/
structure CommandDecision where
  risk : RiskLevel
  requiresApproval : Bool
  denied : Bool
  matchedPrefix : Option String
  reason : Option String
  deriving DecidableEq

/-- A denial with a reason. -/
def CommandDecision.ofDenied (reason : String) : CommandDecision where
  risk := .high
  requiresApproval := true
  denied := true
  matchedPrefix := none
  reason := some reason

/-- The decision of a rule. -/
def CommandDecision.ofRule (rule : PolicyRule) : CommandDecision where
  risk := rule.risk
  requiresApproval := rule.requiresApproval
  denied := rule.deny
  matchedPrefix := some rule.prefixText
  reason := rule.reason

/-- The decision when no rule matches. -/
def CommandDecision.ofDefault (config : CommandPolicyConfig) : CommandDecision where
  risk := config.defaultRisk
  requiresApproval := config.defaultRequiresApproval
  denied := false
  matchedPrefix := none
  reason := some "no explicit rule matched"

/-- The engine: the configuration, and the trie of the prefixes with the indexes of their
rules. -/
structure CommandPolicyEngine where
  config : CommandPolicyConfig
  trie : PrefixTrie Char ℕ

section Normalize

variable (toLowercase : List Char → List Char)

/-- A text without leading white space, in lower case. -/
def normalize (input : String) : List Char := toLowercase (Str.trimStart input.toList)

namespace CommandPolicyEngine

def new (config : CommandPolicyConfig) : CommandPolicyEngine where
  config := config
  trie := PrefixTrie.insertAll (fun entry => normalize toLowercase entry.1.prefixText)
    (fun entry => entry.2) config.rules.zipIdx

/-- Classify an input command.  An index without a rule is a panic. -/
def classify (engine : CommandPolicyEngine) (command : String) : Option CommandDecision :=
  let normalized := normalize toLowercase command
  if normalized = [] then some (.ofDenied "empty command")
  else
    match engine.trie.longestMatch normalized with
    | some ruleIdx => engine.config.rules[ruleIdx]?.map .ofRule
    | none => some (.ofDefault engine.config)

/-- The scan of the rules for the longest normalised prefix of the normalised command, the
last one listed if several have that length. -/
def linearScan (normalized : List Char) (rules : List PolicyRule) : Option PolicyRule :=
  PrefixTrie.scan (fun rule => normalize toLowercase rule.prefixText) normalized rules

variable {toLowercase}

/-- The scan of the rules with their indexes selects a rule and its index. -/
theorem linearScan_eq (normalized : List Char) (rules : List PolicyRule) :
    linearScan toLowercase normalized rules =
      (PrefixTrie.scan (fun entry => normalize toLowercase entry.1.prefixText) normalized
        rules.zipIdx).map Prod.fst := by
  have hmap : PrefixTrie.scan (fun rule => normalize toLowercase rule.prefixText) normalized
      (rules.zipIdx.map Prod.fst) = _ := PrefixTrie.scan_map Prod.fst rules.zipIdx
  rwa [List.zipIdx_map_fst] at hmap

/-- **The engine selects the rule that a scan of the rules selects**, and never panics. -/
theorem classify_eq_linearScan (config : CommandPolicyConfig) (command : String) :
    (new toLowercase config).classify toLowercase command =
      some (if normalize toLowercase command = [] then .ofDenied "empty command"
        else
          match linearScan toLowercase (normalize toLowercase command) config.rules with
          | some rule => .ofRule rule
          | none => .ofDefault config) := by
  unfold classify
  by_cases hempty : normalize toLowercase command = []
  · rw [if_pos hempty, if_pos hempty]
  · rw [if_neg hempty, if_neg hempty, linearScan_eq]
    simp only [new, PrefixTrie.longestMatch_insertAll]
    obtain ⟨hscan, -⟩ | ⟨before, entry, after, hentries, hscan, -⟩ :
        (PrefixTrie.scan (fun entry : PolicyRule × ℕ => normalize toLowercase entry.1.prefixText)
          (normalize toLowercase command) config.rules.zipIdx = none ∧ _) ∨ _ :=
      PrefixTrie.scan_spec config.rules.zipIdx
    · rw [hscan]
      rfl
    · rw [hscan]
      have hmem : entry ∈ config.rules.zipIdx := by
        rw [hentries]
        exact List.mem_append_right _ List.mem_cons_self
      have hrule : config.rules[entry.2]? = some entry.1 :=
        List.mem_zipIdx_iff_getElem?.mp hmem
      show config.rules[entry.2]?.map _ = _
      rw [hrule]
      rfl

end CommandPolicyEngine

end Normalize

end ClawDesk.Security.CommandPolicy
