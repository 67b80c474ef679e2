import Mathlib.Data.Fin.VecNotation
import Mathlib.Data.List.Sort
import Mathlib.Data.Rat.Floor
import Mathlib.Tactic.Linarith

/-!
# The context guard

The guard keeps an estimate of the tokens in the context window and says when and
how hard the conversation is to be compacted.  Its threshold is the lower of an
adaptive one, moved by the share of tool output, and a predictive one, from a
quantile of the growth per round.

Fractions are exact rationals, and durations and points in time are nanoseconds.
`check` reads the clock where the breaker does.

The threshold is never above the limit less the reserve, so an `ok` means that
the context fits, as long as the limit exceeds the reserve.  If it does not, every
check is `ok` (`check_sound_iff`).
-/

namespace ClawDesk.Domain

/-! ### Token estimation -/

/-- The classes of `CLASS_LUT`: letters, digits and the underscore; whitespace; high
bytes; punctuation. -/
def byteClass (b : UInt8) : Fin 4 :=
  if (97 ≤ b ∧ b ≤ 122) ∨ (65 ≤ b ∧ b ≤ 90) ∨ (48 ≤ b ∧ b ≤ 57) ∨ b = 95 then 0
  else if b = 32 ∨ b = 10 ∨ b = 9 ∨ b = 13 then 1
  else if 128 ≤ b then 2
  else 3

/-- Estimate the number of tokens in `text`.  The four counter sets of the loop are
one histogram. -/
def estimateTokens (text : String) : ℕ :=
  let bytes := text.toUTF8.data.toList
  if bytes = [] then 0
  else
    let counts (c : Fin 4) : ℚ := bytes.countP fun b => byteClass b = c
    max ⌈counts 0 / (42 / 10) + counts 1 / 6 + counts 2 / (25 / 10) + counts 3 / (22 / 10)⌉₊ 1

/-! ### The growth of the context -/

/-- Quantile estimator with five markers. -/
structure P2QuantileEstimator where
  p : ℚ
  /-- The marker heights. -/
  q : Fin 5 → ℚ
  /-- The marker positions. -/
  n : Fin 5 → ℚ
  /-- Desired marker positions. -/
  nPrime : Fin 5 → ℚ
  /-- Increments for desired positions. -/
  dn : Fin 5 → ℚ
  count : ℕ
  /-- Initial observations. -/
  initial : List ℚ

namespace P2QuantileEstimator

/-- Where the markers should be after five observations. -/
def desired (p : ℚ) : Fin 5 → ℚ := ![1, 1 + 2 * p, 1 + 4 * p, 3 + 2 * p, 5]

def new (p : ℚ) : P2QuantileEstimator where
  p := p
  q := fun _ => 0
  n := fun i => i + 1
  nPrime := desired p
  dn := ![0, p / 2, p, (1 + p) / 2, 1]
  count := 0
  initial := []

/-- The cell an observation falls in; an observation outside moves the end marker. -/
def cell (e : P2QuantileEstimator) (x : ℚ) : Fin 5 × P2QuantileEstimator :=
  if x < e.q 0 then (0, { e with q := Function.update e.q 0 x })
  else if x < e.q 1 then (0, e)
  else if x < e.q 2 then (1, e)
  else if x < e.q 3 then (2, e)
  else (3, if e.q 4 < x then { e with q := Function.update e.q 4 x } else e)

/-- Adjust the height of an inner marker, by the parabolic or the linear formula. -/
def adjust (e : P2QuantileEstimator) (i : Fin 5) : P2QuantileEstimator :=
  let d := e.nPrime i - e.n i
  if (1 ≤ d ∧ 1 < e.n (i + 1) - e.n i) ∨ (d ≤ -1 ∧ e.n (i - 1) - e.n i < -1) then
    let sign : ℚ := if 0 < d then 1 else -1
    let qi := e.q i
    let qp := e.q (i + 1)
    let qm := e.q (i - 1)
    let ni := e.n i
    let np := e.n (i + 1)
    let nm := e.n (i - 1)
    let parabolic := qi + sign / (np - nm) *
      ((ni - nm + sign) * (qp - qi) / (np - ni) + (np - ni - sign) * (qi - qm) / (ni - nm))
    let j := if 0 < sign then i + 1 else i - 1
    { e with
      q := Function.update e.q i
        (if qm < parabolic ∧ parabolic < qp then parabolic
        else qi + sign * (e.q j - qi) / (e.n j - ni))
      n := Function.update e.n i (ni + sign) }
  else e

/-- What the two formulas divide by when the inner marker `i` is adjusted. -/
def denominators (e : P2QuantileEstimator) (i : Fin 5) : List ℚ :=
  [e.n (i + 1) - e.n (i - 1), e.n (i + 1) - e.n i, e.n i - e.n (i - 1), e.n (i - 1) - e.n i]

/-- Record a new observation. -/
def observe (e : P2QuantileEstimator) (x : ℚ) : P2QuantileEstimator :=
  if e.count + 1 ≤ 5 then
    let e := { e with count := e.count + 1, initial := e.initial ++ [x] }
    if e.count = 5 then
      let sorted := e.initial.insertionSort (· ≤ ·)
      { e with
        initial := sorted
        q := fun i => sorted.getD i 0
        n := fun i => i + 1
        nPrime := desired e.p }
    else e
  else
    let (k, e) := { e with count := e.count + 1 }.cell x
    let e :=
      { e with
        n := fun i => if k < i then e.n i + 1 else e.n i
        nPrime := fun i => e.nPrime i + e.dn i }
    [1, 2, 3].foldl adjust e

/-- The current quantile estimate; the largest observation while there are fewer
than five. -/
def estimate (e : P2QuantileEstimator) : Option ℚ :=
  if e.count < 5 then (e.initial.insertionSort (· ≤ ·)).getLast? else some (e.q 2)

end P2QuantileEstimator

/-! ### The limit -/

/-- Resolve the effective context limit from multiple sources. -/
structure ContextLimitResolver where
  model : Option ℕ
  provider : Option ℕ
  agent : Option ℕ
  fallback : ℕ

namespace ContextLimitResolver

def new : ContextLimitResolver where
  model := none
  provider := none
  agent := none
  fallback := 128000

/-- `if let Some(l) = limit { effective = effective.min(l) }`. -/
def lower (effective : ℕ) (limit : Option ℕ) : ℕ := (limit.map (min effective)).getD effective

/-- The least of all specified sources, but never below 4096 tokens. -/
def resolve (r : ContextLimitResolver) : ℕ :=
  max (lower (lower (lower r.fallback r.model) r.provider) r.agent) 4096

end ContextLimitResolver

/-- Configuration for the context window guard. -/
structure ContextGuardConfig where
  contextLimit : ℕ
  /-- Trigger compaction at this fraction of the limit. -/
  triggerThreshold : ℚ
  /-- Reserve tokens for the model's response. -/
  responseReserve : ℕ
  circuitBreakerThreshold : ℕ
  circuitBreakerCooldown : ℕ
  adaptiveThresholds : Bool
  /-- Share of the budget to retain during force-truncation. -/
  forceTruncateRetainShare : ℚ

/-- `ContextGuardConfig::default()`. -/
def ContextGuardConfig.default : ContextGuardConfig where
  contextLimit := 128000
  triggerThreshold := 80 / 100
  responseReserve := 8192
  circuitBreakerThreshold := 3
  circuitBreakerCooldown := 60000000000
  adaptiveThresholds := true
  forceTruncateRetainShare := 50 / 100

/-! ### The circuit breaker -/

inductive CircuitBreakerState where
  | closed
  | open_ (openedAt : ℕ)
  | halfOpen
  deriving DecidableEq

structure CircuitBreaker where
  state : CircuitBreakerState
  failureCount : ℕ
  lastFailure : Option ℕ
  threshold : ℕ
  cooldown : ℕ

namespace CircuitBreaker

def new (threshold cooldown : ℕ) : CircuitBreaker where
  state := .closed
  failureCount := 0
  lastFailure := none
  threshold := threshold
  cooldown := cooldown

/-- A failure; the counter starts again if the last one was long ago.  It is a 32-bit
number. -/
def recordFailure (b : CircuitBreaker) (now : ℕ) : CircuitBreaker :=
  let before := if b.lastFailure.any fun last => b.cooldown < now - last then 0 else b.failureCount
  let count := (before + 1) % 2 ^ 32
  { b with
    failureCount := count
    lastFailure := some now
    state := if b.threshold ≤ count then .open_ now else b.state }

def recordSuccess (b : CircuitBreaker) : CircuitBreaker :=
  { b with
    failureCount := 0
    state := .closed }

/-- Whether compaction may be tried; after the cooldown an open breaker is half
open. -/
def isAllowed (b : CircuitBreaker) (now : ℕ) : Bool × CircuitBreaker :=
  match b.state with
  | .closed => (true, b)
  | .open_ openedAt =>
      if b.cooldown ≤ now - openedAt then (true, { b with state := .halfOpen }) else (false, b)
  | .halfOpen => (true, b)

end CircuitBreaker

/-! ### Token counts -/

/-- Compaction level. -/
inductive CompactionLevel where
  | dropMetadata
  | summarizeOld
  | truncate
  deriving DecidableEq

/-- Per-role token distribution. -/
structure RoleTokenDistribution where
  systemTokens : ℕ
  userTokens : ℕ
  assistantTokens : ℕ
  toolTokens : ℕ

namespace RoleTokenDistribution

def empty : RoleTokenDistribution := ⟨0, 0, 0, 0⟩

def total (d : RoleTokenDistribution) : ℕ :=
  d.systemTokens + d.userTokens + d.assistantTokens + d.toolTokens

/-- Fraction of tokens from tool results. -/
def toolShare (d : RoleTokenDistribution) : ℚ :=
  if d.total = 0 then 0 else d.toolTokens / d.total

/-- Record tokens for a given role. -/
def record (d : RoleTokenDistribution) (role : String) (tokens : ℕ) : RoleTokenDistribution :=
  if role = "system" then { d with systemTokens := d.systemTokens + tokens }
  else if role = "user" then { d with userTokens := d.userTokens + tokens }
  else if role = "assistant" then { d with assistantTokens := d.assistantTokens + tokens }
  else if role = "tool" ∨ role = "tool_result" ∨ role = "function" then
    { d with toolTokens := d.toolTokens + tokens }
  else { d with assistantTokens := d.assistantTokens + tokens }

end RoleTokenDistribution

/-- Result of a compaction operation. -/
structure CompactionResult where
  level : CompactionLevel
  tokensBefore : ℕ
  tokensAfter : ℕ
  turnsRemoved : ℕ
  turnsSummarized : ℕ

/-- Action recommended by the context guard. -/
inductive GuardAction where
  /-- Context is within budget. -/
  | ok
  | compact (level : CompactionLevel)
  | forceTruncate (retainTokens : ℕ)
  | circuitBroken (retainTokens : ℕ)
  deriving DecidableEq

/-- `x.clamp(0.0, 1.0)` with other bounds. -/
def clamp (x lo hi : ℚ) : ℚ := max lo (min x hi)

/-- `x as usize`: towards zero, and negative numbers become zero. -/
def toUsize (x : ℚ) : ℕ := ⌊x⌋₊

/-- `x.round() as usize`; halves are rounded away from zero. -/
def roundUsize (x : ℚ) : ℕ := ⌊x + 1 / 2⌋₊

/-! ### The guard -/

/-- Running token counter for the context window. -/
structure ContextGuard where
  config : ContextGuardConfig
  estimatedTokens : ℕ
  breaker : CircuitBreaker
  roleTokens : RoleTokenDistribution
  /-- Growth per round. -/
  growthTracker : P2QuantileEstimator
  prevRoundTokens : ℕ
  fixedOverheadTokens : ℕ
  calibrationFactor : ℚ

namespace ContextGuard

def new (config : ContextGuardConfig) : ContextGuard where
  config := config
  estimatedTokens := 0
  breaker := .new config.circuitBreakerThreshold config.circuitBreakerCooldown
  roleTokens := .empty
  growthTracker := .new (95 / 100)
  prevRoundTokens := 0
  fixedOverheadTokens := 0
  calibrationFactor := 1

/-- Create a guard with a resolved context limit from multiple sources. -/
def withResolvedLimit (contextLimit : ℕ) (triggerThreshold : ℚ) (responseReserve : ℕ) :
    ContextGuard :=
  new { ContextGuardConfig.default with
    contextLimit := contextLimit
    triggerThreshold := triggerThreshold
    responseReserve := responseReserve
    adaptiveThresholds := true }

variable (guard : ContextGuard)

/-- The calibrated estimate of a text. -/
def calibrated (text : String) : ℕ := roundUsize (estimateTokens text * guard.calibrationFactor)

/-- Update the token estimate after appending a message. -/
def recordTokens (text : String) : ContextGuard :=
  { guard with estimatedTokens := guard.estimatedTokens + guard.calibrated text }

/-- Record tokens with role annotation. -/
def recordTokensForRole (text role : String) : ContextGuard :=
  { guard with
    estimatedTokens := guard.estimatedTokens + guard.calibrated text
    roleTokens := guard.roleTokens.record role (guard.calibrated text) }

/-- Calibrate the estimator with an actual token count. -/
def calibrate (estimated actual : ℕ) : ContextGuard :=
  if estimated = 0 ∨ actual = 0 then guard
  else
    { guard with
      calibrationFactor :=
        15 / 100 * clamp (actual / estimated) (5 / 10) 2 +
          (1 - 15 / 100) * guard.calibrationFactor }

/-- Set the token count directly. -/
def setTokenCount (count : ℕ) : ContextGuard := { guard with estimatedTokens := count }

/-- Subtract tokens after compaction. -/
def subtractTokens (count : ℕ) : ContextGuard :=
  { guard with estimatedTokens := guard.estimatedTokens - count }

/-- Record the end of a round. -/
def endRound : ContextGuard :=
  { guard with
    growthTracker :=
      if 0 < guard.prevRoundTokens then
        guard.growthTracker.observe (guard.estimatedTokens - guard.prevRoundTokens : ℕ)
      else guard.growthTracker
    prevRoundTokens := guard.estimatedTokens }

/-- Set the fixed overhead. -/
def setFixedOverhead (tokens : ℕ) : ContextGuard := { guard with fixedOverheadTokens := tokens }

/-- Report compaction success. -/
def compactionSucceeded (result : CompactionResult) : ContextGuard :=
  { guard with
    estimatedTokens := result.tokensAfter
    breaker := guard.breaker.recordSuccess
    roleTokens := .empty }

/-- Report compaction failure. -/
def compactionFailed (now : ℕ) : ContextGuard :=
  { guard with breaker := guard.breaker.recordFailure now }

/-- Reset the role token distribution. -/
def resetRoleDistribution : ContextGuard := { guard with roleTokens := .empty }

/-- The effective context limit, after the response reserve. -/
def effectiveLimit : ℕ := guard.config.contextLimit - guard.config.responseReserve

/-- Utilization as a fraction. -/
def utilization : ℚ :=
  if guard.effectiveLimit = 0 then 1 else guard.estimatedTokens / guard.effectiveLimit

/-- Capacity after the fixed overhead. -/
def effectiveCapacity : ℕ := guard.effectiveLimit - guard.fixedOverheadTokens

/-- The threshold shifts earlier when tool output dominates. -/
def adaptiveAlpha : ℚ :=
  if guard.config.adaptiveThresholds then
    let shift := 10 / 100 * clamp ((guard.roleTokens.toolShare - 2 / 10) / (4 / 10)) 0 1
    max (guard.config.triggerThreshold - shift) (50 / 100)
  else guard.config.triggerThreshold

/-- The threshold from the growth per round. -/
def predictiveAlpha : ℚ :=
  match guard.growthTracker.estimate with
  | some growth =>
      if 0 < guard.effectiveCapacity ∧ 0 < growth then
        max (1 - growth / guard.effectiveCapacity) (50 / 100)
      else guard.adaptiveAlpha
  | none => guard.adaptiveAlpha

/-- The lower of the two thresholds, in tokens. -/
def threshold : ℕ :=
  toUsize (guard.effectiveLimit * min guard.adaptiveAlpha guard.predictiveAlpha)

/-- What may be kept when the conversation is cut. -/
def retainBudget : ℕ :=
  toUsize (guard.effectiveCapacity * guard.config.forceTruncateRetainShare)

/-- The compaction level, by how far over the limit the context is. -/
def level : GuardAction :=
  let ratio : ℚ := guard.estimatedTokens / guard.effectiveLimit
  if 95 / 100 < ratio then .forceTruncate guard.retainBudget
  else if 90 / 100 < ratio then .compact .summarizeOld
  else .compact .dropMetadata

/-- Check what action should be taken given current token usage. -/
def check (now : ℕ) : GuardAction × ContextGuard :=
  if guard.effectiveLimit = 0 then (.ok, guard)
  else if guard.estimatedTokens ≤ guard.threshold then (.ok, guard)
  else
    let (allowed, breaker) := guard.breaker.isAllowed now
    (if allowed then guard.level else .circuitBroken guard.retainBudget,
      { guard with breaker := breaker })

/-! ### Reachable guards -/

/-- A call on the guard. -/
inductive Call where
  | recordTokens (text : String)
  | recordTokensForRole (text role : String)
  | calibrate (estimated actual : ℕ)
  | setTokenCount (count : ℕ)
  | subtractTokens (count : ℕ)
  | check (now : ℕ)
  | endRound
  | setFixedOverhead (tokens : ℕ)
  | compactionSucceeded (result : CompactionResult)
  | compactionFailed (now : ℕ)
  | resetRoleDistribution

/-- The guard after a call. -/
def step (guard : ContextGuard) : Call → ContextGuard
  | .recordTokens text => guard.recordTokens text
  | .recordTokensForRole text role => guard.recordTokensForRole text role
  | .calibrate estimated actual => guard.calibrate estimated actual
  | .setTokenCount count => guard.setTokenCount count
  | .subtractTokens count => guard.subtractTokens count
  | .check now => (guard.check now).2
  | .endRound => guard.endRound
  | .setFixedOverhead tokens => guard.setFixedOverhead tokens
  | .compactionSucceeded result => guard.compactionSucceeded result
  | .compactionFailed now => guard.compactionFailed now
  | .resetRoleDistribution => guard.resetRoleDistribution

/-- The guard after a sequence of calls. -/
def run (guard : ContextGuard) (calls : List Call) : ContextGuard := calls.foldl step guard

variable {guard}

/-- No call changes the configuration. -/
theorem step_config (call : Call) : (guard.step call).config = guard.config := by
  cases call with
  | calibrate estimated actual =>
      show (guard.calibrate estimated actual).config = _
      unfold calibrate
      split_ifs <;> rfl
  | check now =>
      show (guard.check now).2.config = _
      unfold check
      split_ifs <;> rfl
  | _ => rfl

theorem run_config (calls : List Call) : (guard.run calls).config = guard.config := by
  induction calls generalizing guard with
  | nil => rfl
  | cons call calls ih => exact ih.trans (step_config call)

/-! ### When a check is sound -/

/-- How hard the recommended action is. -/
def severity : GuardAction → ℕ
  | .ok => 0
  | .compact .dropMetadata => 1
  | .compact .summarizeOld => 2
  | .compact .truncate => 3
  | .forceTruncate _ => 3
  | .circuitBroken _ => 3

theorem adaptiveAlpha_le_one (h : guard.config.triggerThreshold ≤ 1) : guard.adaptiveAlpha ≤ 1 := by
  unfold adaptiveAlpha
  split_ifs
  · have hclamp : 0 ≤ clamp ((guard.roleTokens.toolShare - 2 / 10) / (4 / 10)) 0 1 :=
      le_max_left _ _
    refine max_le ?_ (by norm_num)
    linarith
  · exact h

/-- The threshold is not above the limit. -/
theorem threshold_le (h : guard.config.triggerThreshold ≤ 1) :
    guard.threshold ≤ guard.effectiveLimit := by
  have halpha : min guard.adaptiveAlpha guard.predictiveAlpha ≤ 1 :=
    (min_le_left _ _).trans (adaptiveAlpha_le_one h)
  have hlimit : (0 : ℚ) ≤ guard.effectiveLimit := Nat.cast_nonneg _
  refine Nat.floor_le_of_le ?_
  calc guard.effectiveLimit * min guard.adaptiveAlpha guard.predictiveAlpha
      ≤ guard.effectiveLimit * 1 := mul_le_mul_of_nonneg_left halpha hlimit
    _ = guard.effectiveLimit := mul_one _

theorem severity_level : severity guard.level =
    if 95 / 100 < (guard.estimatedTokens / guard.effectiveLimit : ℚ) then 3
    else if 90 / 100 < (guard.estimatedTokens / guard.effectiveLimit : ℚ) then 2 else 1 := by
  simp only [level]
  split_ifs <;> rfl

theorem level_ne_ok : guard.level ≠ .ok := by
  intro hok
  have hpos : 0 < severity guard.level := by
    rw [severity_level]
    split_ifs <;> decide
  rw [hok] at hpos
  exact absurd hpos (lt_irrefl 0)

/-- A check is `ok` up to the threshold, and always if the reserve takes it all. -/
theorem check_eq_ok {now : ℕ} :
    (guard.check now).1 = .ok ↔
      guard.effectiveLimit = 0 ∨ guard.estimatedTokens ≤ guard.threshold := by
  unfold check
  split_ifs with hzero hle
  · simp [hzero]
  · simp [hle]
  · simp only [hzero, hle, or_self, iff_false]
    split_ifs
    · exact level_ne_ok
    · exact nofun

/-- A closed breaker stands in nobody's way. -/
theorem check_of_closed (closed : guard.breaker.state = .closed) (now : ℕ) :
    (guard.check now).1 =
      if guard.effectiveLimit = 0 ∨ guard.estimatedTokens ≤ guard.threshold then .ok
      else guard.level := by
  have hallowed : guard.breaker.isAllowed now = (true, guard.breaker) := by
    rw [CircuitBreaker.isAllowed, closed]
  unfold check
  rw [hallowed]
  by_cases hzero : guard.effectiveLimit = 0
  · simp [hzero]
  · by_cases hle : guard.estimatedTokens ≤ guard.threshold <;> simp [hzero, hle]

theorem severity_level_mono {a b : ℕ} (hab : a ≤ b) :
    severity (guard.setTokenCount a).level ≤ severity (guard.setTokenCount b).level := by
  have hratio : (a : ℚ) / guard.effectiveLimit ≤ b / guard.effectiveLimit :=
    div_le_div_of_nonneg_right (Nat.cast_le.mpr hab) (Nat.cast_nonneg _)
  rw [severity_level, severity_level]
  show (if 95 / 100 < (a / guard.effectiveLimit : ℚ) then _ else _) ≤
    if 95 / 100 < (b / guard.effectiveLimit : ℚ) then _ else _
  split_ifs
  all_goals first | omega | exact absurd (lt_of_lt_of_le ‹_› hratio) ‹_›

/-- **The severity grows with the estimate** while the breaker is closed. -/
theorem severity_check_mono (closed : guard.breaker.state = .closed) (now : ℕ) {a b : ℕ}
    (hab : a ≤ b) :
    severity ((guard.setTokenCount a).check now).1 ≤
      severity ((guard.setTokenCount b).check now).1 := by
  have hcheck (c : ℕ) :=
    check_of_closed (show (guard.setTokenCount c).breaker.state = .closed from closed) now
  rw [hcheck, hcheck]
  show severity (if guard.effectiveLimit = 0 ∨ a ≤ guard.threshold then _ else _) ≤
    severity (if guard.effectiveLimit = 0 ∨ b ≤ guard.threshold then _ else _)
  split_ifs with ha hb hb
  · exact le_rfl
  · exact Nat.zero_le _
  · exact absurd (hb.imp_right hab.trans) ha
  · exact severity_level_mono hab

/-- **The guard is effective exactly when the limit exceeds the reserve.** -/
theorem check_sound_iff (resolver : ContextLimitResolver) (responseReserve : ℕ)
    {triggerThreshold : ℚ} (atMostOne : triggerThreshold ≤ 1) :
    (∀ calls now,
      let guard := (withResolvedLimit resolver.resolve triggerThreshold responseReserve).run calls
      ((guard.check now).1 = .ok → guard.estimatedTokens ≤ resolver.resolve - responseReserve) ∧
        (guard.breaker.state = .closed → ∀ a b, a ≤ b →
          severity ((guard.setTokenCount a).check now).1 ≤
            severity ((guard.setTokenCount b).check now).1)) ↔
      responseReserve < resolver.resolve := by
  constructor
  · intro h
    by_contra hle
    -- One token is too many, and the check is `ok`.
    have hzero : resolver.resolve - responseReserve = 0 := by omega
    have hok := (h [.setTokenCount 1] 0).1 (check_eq_ok.mpr (.inl hzero))
    have hone : 1 ≤ resolver.resolve - responseReserve := hok
    omega
  · intro hlt calls now guard
    have hconfig : guard.config =
        (withResolvedLimit resolver.resolve triggerThreshold responseReserve).config :=
      run_config calls
    have hlimit : guard.effectiveLimit = resolver.resolve - responseReserve := by
      rw [effectiveLimit, hconfig]
      rfl
    refine ⟨fun hok => ?_, fun closed a b => severity_check_mono closed now⟩
    rcases check_eq_ok.mp hok with hzero | hle
    · omega
    · rw [← hlimit]
      refine hle.trans (threshold_le ?_)
      rw [hconfig]
      exact atMostOne

theorem check_sound_iff_default : 8192 < ContextLimitResolver.new.resolve ∧ ∀ calls now,
    let guard := (withResolvedLimit ContextLimitResolver.new.resolve (80 / 100) 8192).run calls
    ((guard.check now).1 = .ok → guard.estimatedTokens ≤ 128000 - 8192) ∧
      (guard.breaker.state = .closed → ∀ a b, a ≤ b →
        severity ((guard.setTokenCount a).check now).1 ≤
          severity ((guard.setTokenCount b).check now).1) :=
  have reserve : 8192 < ContextLimitResolver.new.resolve := by decide
  ⟨reserve, (check_sound_iff .new 8192 (by norm_num)).mpr reserve⟩

/-- **With a reserve as large as the smallest limit, an overfull context is `ok`.** -/
theorem overfull_ok : ∃ (resolver : ContextLimitResolver) (calls : List Call),
    let guard := (withResolvedLimit resolver.resolve (80 / 100) 8192).run calls
    (guard.check 0).1 = .ok ∧ resolver.resolve - 8192 < guard.estimatedTokens ∧
      guard.utilization = 1 :=
  ⟨{ ContextLimitResolver.new with model := some 1000 }, [.setTokenCount 5000], by decide +kernel,
    by decide, rfl⟩

end ContextGuard

end ClawDesk.Domain
