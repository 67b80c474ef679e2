import ClawDesk.Foundations.SlidingLog
import Mathlib.Algebra.Group.Nat.Defs
import Mathlib.Data.List.AList
import Mathlib.Data.Prod.Lex
import Mathlib.Data.Nat.Init
import Mathlib.Order.Lattice

/-!
# The policy engine

Which agent may delegate which task to which other agent.  The rules of a policy are
tried in order and the first that matches decides; before them comes a limit on the number of
tasks a requester may delegate within a window of time.

The limit is checked and the task recorded by two functions, each of which reads the clock and
looks the limit up for itself.  A window is created when the first task is recorded in it.
-/

namespace ClawDesk.Acp

open Foundations

/-! ### Policies -/

/-- Where an agent was discovered from. -/
inductive AgentSource where
  | clawDesk
  | openClaw (gatewayUrl : String)
  | external (discoveryUrl : String)
  deriving DecidableEq

/-- The effect of a policy rule: allow or deny the action. -/
inductive PolicyEffect where
  | allow
  | deny
  deriving DecidableEq

/-- The variants of `AgentSource` without their data. -/
inductive SourceType where
  | clawDesk
  | openClaw
  | external
  deriving DecidableEq

/-- Check if an `AgentSource` matches this source type. -/
def SourceType.matchesSource : SourceType → AgentSource → Bool
  | .clawDesk, .clawDesk => true
  | .openClaw, .openClaw _ => true
  | .external, .external _ => true
  | _, _ => false

/-- A single policy rule: patterns for the requester, the target and the skill, and the
sources it applies to.  No skill means any skill, and no sources all of them. -/
structure PolicyRule where
  description : String
  requester : String
  target : String
  skill : Option String
  sourceTypes : List SourceType
  effect : PolicyEffect

/-- Per-agent rate limit configuration; `max_tasks` is a 32-bit number. -/
structure RateLimitConfig where
  maxTasks : ℕ
  windowSecs : ℕ
  maxTasks_lt : maxTasks < 2 ^ 32

/-- The window in nanoseconds. -/
def RateLimitConfig.window (config : RateLimitConfig) : ℕ := config.windowSecs * 10 ^ 9

structure A2APolicy where
  /-- Ordered list of policy rules (first match wins). -/
  rules : List PolicyRule
  /-- Default effect when no rules match. -/
  defaultEffect : PolicyEffect
  /-- Per-agent rate limits. -/
  rateLimits : AList fun _ : String => RateLimitConfig
  /-- Applies to all agents not in `rateLimits`. -/
  globalRateLimit : Option RateLimitConfig

/-- A request of one agent to delegate a task to another. -/
structure DelegationRequest where
  requesterId : String
  targetId : String
  skillId : Option String
  source : Option AgentSource

/-! ### Glob matching -/

/-- The two pointers of `glob_match`: what is left of the pattern and of the text, and what was
left of both when the last `*` was met. -/
structure GlobState where
  pattern : List Char
  text : List Char
  star : Option (List Char × List Char)

namespace GlobState

/-- Extend the last `*` by one more character. -/
def backtrack (s : GlobState) : Option GlobState :=
  s.star.map fun (pattern, text) => ⟨pattern, text.tail, some (pattern, text.tail)⟩

/-- One round of the loop, `none` where it returns `false`.  A `*` of the pattern that meets a
`*` of the text is taken for that character. -/
def advance (s : GlobState) : Option GlobState :=
  match s.pattern, s.text with
  | p :: pattern, t :: text =>
      if p = '?' ∨ p = t then some ⟨pattern, text, s.star⟩
      else if p = '*' then some ⟨pattern, t :: text, some (pattern, t :: text)⟩
      else s.backtrack
  | _, _ => s.backtrack

/-- How much text there is still to be tried. -/
def room (s : GlobState) : ℕ := max s.text.length (s.star.elim 0 fun star => star.2.length)

/-- A retry takes up some of the text. -/
theorem backtrack_room {s s' : GlobState} (h : s.backtrack = some s') (htext : s.text ≠ []) :
    s'.room < s.room := by
  obtain ⟨star, hstar, rfl⟩ := Option.map_eq_some_iff.mp h
  have hpos : 0 < s.text.length := List.length_pos_of_ne_nil htext
  simp only [room, hstar, Option.elim_some, List.length_tail]
  omega

/-- Every round makes progress: a retry takes up some of the text, any other round some of the
pattern. -/
theorem advance_decreases {s s' : GlobState} (h : s.advance = some s') (htext : s.text ≠ []) :
    Prod.Lex (· < ·) (· < ·) (s'.room, s'.pattern.length) (s.room, s.pattern.length) := by
  obtain ⟨_ | ⟨p, pattern⟩, _ | ⟨t, text⟩, star⟩ := s
  · exact absurd rfl htext
  · exact .left _ _ (backtrack_room h htext)
  · exact absurd rfl htext
  · simp only [advance] at h
    split_ifs at h with hchar hstar
    · cases h
      refine Prod.Lex.toLex_lt_toLex'.mpr ⟨?_, fun _ => Nat.lt_succ_self _⟩
      simp only [room, List.length_cons]
      omega
    · cases h
      refine Prod.Lex.toLex_lt_toLex'.mpr ⟨?_, fun _ => Nat.lt_succ_self _⟩
      simp only [room, Option.elim_some]
      omega
    · exact .left _ _ (backtrack_room h htext)

end GlobState

/-- The loop of `glob_match`, and what follows it: trailing `*`s are consumed. -/
def globLoop (s : GlobState) : Bool :=
  if htext : s.text = [] then (s.pattern.dropWhile (· = '*')).isEmpty
  else match h : s.advance with
    | none => false
    | some s' =>
        have := s.advance_decreases h htext
        globLoop s'
termination_by (s.room, s.pattern.length)
decreasing_by assumption

/-- Simple glob matching for agent and skill ids. -/
def globMatch (pattern text : String) : Bool :=
  if pattern = "*" then true
  else if '*' ∉ pattern.toList ∧ '?' ∉ pattern.toList then decide (pattern = text)
  else globLoop ⟨pattern.toList, text.toList, none⟩

/-! ### Rate windows -/

/-- Sliding-window rate limit tracker. -/
structure RateWindow where
  /-- Clock readings of recent tasks, the oldest at the front. -/
  timestamps : List ℕ
  maxTasks : ℕ
  window : ℕ

namespace RateWindow

def new (maxTasks window : ℕ) : RateWindow := ⟨[], maxTasks, window⟩

/-- Evict expired entries from the front.  `now - window` panics below the first instant. -/
def evictExpired (w : RateWindow) (now : ℕ) : Option RateWindow :=
  if now < w.window then none
  else some { w with timestamps := w.timestamps.dropWhile fun front => front ≤ now - w.window }

/-- Check if a new task is allowed (does not record it).  The length is cast to 32 bits. -/
def isAllowed (w : RateWindow) (now : ℕ) : Option (Bool × RateWindow) :=
  (w.evictExpired now).map fun w => (decide (w.timestamps.length % 2 ^ 32 < w.maxTasks), w)

/-- Record a new task submission. -/
def record (w : RateWindow) (now : ℕ) : Option RateWindow :=
  (w.evictExpired now).map fun w => { w with timestamps := w.timestamps ++ [now] }

end RateWindow

/-! ### The engine -/

/-- Result of a policy evaluation. -/
inductive PolicyDecision where
  | allow
  | deny (reason : String)
  | rateLimited (retryAfterSecs : ℕ)
  deriving DecidableEq

structure PolicyEngine where
  /-- The active policy configuration. -/
  policy : A2APolicy
  /-- Per-agent rate windows. -/
  rateWindows : AList fun _ : String => RateWindow

/-- Check per-agent limit first, then global. -/
def A2APolicy.limitFor (policy : A2APolicy) (requesterId : String) : Option RateLimitConfig :=
  (policy.rateLimits.lookup requesterId).or policy.globalRateLimit

/-- Check if a rule matches the given request. -/
def PolicyRule.matchesRequest (rule : PolicyRule) (request : DelegationRequest) : Bool :=
  globMatch rule.requester request.requesterId && globMatch rule.target request.targetId &&
    (match rule.skill with
      | none => true
      | some ruleSkill => request.skillId.elim false fun skillId => globMatch ruleSkill skillId) &&
    (rule.sourceTypes.isEmpty || request.source.elim false fun source =>
      rule.sourceTypes.any fun sourceType => sourceType.matchesSource source)

namespace PolicyEngine

def new (policy : A2APolicy) : PolicyEngine := ⟨policy, ∅⟩

def setWindow (engine : PolicyEngine) (requesterId : String) (w : RateWindow) : PolicyEngine :=
  { engine with rateWindows := engine.rateWindows.insert requesterId w }

/-- Check rate limit for a requester: the decision if it is exceeded. -/
def checkRateLimit (engine : PolicyEngine) (requesterId : String) (now : ℕ) :
    Option (Option PolicyDecision × PolicyEngine) :=
  match engine.policy.limitFor requesterId, engine.rateWindows.lookup requesterId with
  | some config, some w =>
      (w.isAllowed now).map fun (allowed, w) =>
        (if !allowed then some (.rateLimited config.windowSecs) else none,
          engine.setWindow requesterId w)
  | _, _ => some (none, engine)

/-- Record a task submission for rate limiting. -/
def recordTask (engine : PolicyEngine) (requesterId : String) (now : ℕ) : Option PolicyEngine :=
  match engine.policy.limitFor requesterId with
  | none => some engine
  | some config =>
      (((engine.rateWindows.lookup requesterId).getD
        (RateWindow.new config.maxTasks config.window)).record now).map
          (engine.setWindow requesterId)

/-- Record the task and answer that it is allowed. -/
def allow (engine : PolicyEngine) (requesterId : String) (now : ℕ) :
    Option (PolicyDecision × PolicyEngine) :=
  (engine.recordTask requesterId now).map fun engine => (.allow, engine)

/-- The reason of a rule that denies. -/
def denyReason (rule : PolicyRule) (request : DelegationRequest) : String :=
  if rule.description = "" then
    "denied by policy: " ++ request.requesterId ++ " → " ++ request.targetId ++ " (skill: " ++
      request.skillId.getD "*" ++ ")"
  else rule.description

/-- Evaluate a delegation request: the limit is checked at one reading of the clock and an allowed
task recorded at another. -/
def evaluate (engine : PolicyEngine) (request : DelegationRequest) (checkedAt recordedAt : ℕ) :
    Option (PolicyDecision × PolicyEngine) :=
  (engine.checkRateLimit request.requesterId checkedAt).bind fun
    | (some decision, engine) => some (decision, engine)
    | (none, engine) =>
        match engine.policy.rules.find? (·.matchesRequest request) with
        | some rule =>
            match rule.effect with
            | .allow => engine.allow request.requesterId recordedAt
            | .deny => some (.deny (denyReason rule request), engine)
        | none =>
            match engine.policy.defaultEffect with
            | .allow => engine.allow request.requesterId recordedAt
            | .deny =>
                some (.deny ("no matching policy rule for " ++ request.requesterId ++ " → " ++
                  request.targetId ++ " (default: deny)"), engine)

end PolicyEngine

end ClawDesk.Acp
