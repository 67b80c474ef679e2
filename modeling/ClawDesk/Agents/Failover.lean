import ClawDesk.Foundations.Fold
import Mathlib.Data.List.Basic

/-!
# The failover controller

A state machine over the ways to run a request again after a failure: with the next auth profile,
with the next model of the fallback chain, with a lower thinking level, or just once more.
Which one it is depends on how the failure is classified.

A state holds the model and, according to its kind, the profile or the thinking level, but never
both; what a state does not hold, the next one starts over.
-/

namespace ClawDesk.Agents.Failover

/-! ### Types -/

/-- Classified reason for a provider failure. -/
inductive FailoverReason where
  | authError
  | rateLimit
  | contextOverflow
  | billingError
  | serverError
  | networkError
  | modelUnavailable
  | timeout
  | contentFilter
  | unknown
  deriving DecidableEq

inductive ThinkingLevel where
  | high
  | medium
  | low
  | off
  deriving DecidableEq

/-- Downgrade to the next lower level. -/
def ThinkingLevel.downgrade : ThinkingLevel → Option ThinkingLevel
  | high => some medium
  | medium => some low
  | low => some off
  | off => none

structure FallbackModel where
  provider : String
  model : String

structure FailoverConfig where
  /-- Ordered list of fallback models (tried in order). -/
  fallbackModels : List FallbackModel
  /-- Maximum total attempts across all levels. -/
  maxTotalAttempts : ℕ
  enableThinkingDowngrade : Bool
  baseRetryDelayMs : ℕ
  maxRetryDelayMs : ℕ

inductive AttemptResult where
  | success
  | failed (reason : FailoverReason)
  deriving DecidableEq

/-- A failover attempt record for observability. -/
structure FailoverAttempt where
  attempt : ℕ
  model : String
  provider : String
  profileId : Option String
  thinkingLevel : Option ThinkingLevel
  result : AttemptResult
  durationMs : ℕ
  deriving DecidableEq

/-- An action to take from the failover controller. -/
structure FailoverAction where
  provider : String
  model : String
  profileIndex : ℕ
  thinkingLevel : Option ThinkingLevel
  retryDelayMs : ℕ
  attemptNumber : ℕ
  deriving DecidableEq

/-- State of the failover state machine. -/
inductive FailoverState where
  | init
  | tryProfile (modelIndex profileIndex : ℕ)
  | tryModel (modelIndex : ℕ)
  | tryThinkLevel (modelIndex : ℕ) (level : ThinkingLevel)
  | success
  | exhausted
  deriving DecidableEq

namespace FailoverState

/-- The place in the chain, unless the state is terminal. -/
def modelIndex : FailoverState → Option ℕ
  | init => some 0
  | tryProfile m _ => some m
  | tryModel m => some m
  | tryThinkLevel m _ => some m
  | success => none
  | exhausted => none

def currentProfile : FailoverState → ℕ
  | tryProfile _ p => p
  | _ => 0

/-- The thinking level that the state tries. -/
def thinkingLevel : FailoverState → Option ThinkingLevel
  | tryThinkLevel _ level => some level
  | _ => none

def currentLevel : FailoverState → ThinkingLevel
  | tryThinkLevel _ level => level
  | _ => .high

end FailoverState

/-! ### The controller -/

structure FailoverController where
  config : FailoverConfig
  primaryModel : String
  primaryProvider : String
  /-- Number of auth profiles available per model. -/
  profilesPerModel : List ℕ
  /-- Record of all attempts. -/
  attempts : List FailoverAttempt
  state : FailoverState
  totalAttempts : ℕ
  lastDelayMs : ℕ
  /-- Consecutive transient-error retries. -/
  consecutiveTransientRetries : ℕ

namespace FailoverController

def new (primaryProvider primaryModel : String) (config : FailoverConfig) :
    FailoverController where
  config := config
  primaryModel := primaryModel
  primaryProvider := primaryProvider
  profilesPerModel := List.replicate (config.fallbackModels.length + 1) 1
  attempts := []
  state := .init
  totalAttempts := 0
  lastDelayMs := 500
  consecutiveTransientRetries := 0

/-- Set the number of available auth profiles for each model. -/
def withProfileCounts (c : FailoverController) (counts : List ℕ) : FailoverController :=
  { c with profilesPerModel := counts }

/-- Provider and model name at the given index. -/
def modelAt (c : FailoverController) : ℕ → String × String
  | 0 => (c.primaryProvider, c.primaryModel)
  | i + 1 =>
      match c.config.fallbackModels[i]? with
      | some fallback => (fallback.provider, fallback.model)
      | none => (c.primaryProvider, c.primaryModel)

/-- The midpoint between the base delay and three times the last one, up to the cap. -/
def computeRetryDelay (c : FailoverController) : ℕ :=
  min ((c.config.baseRetryDelayMs + min (c.lastDelayMs * 3) c.config.maxRetryDelayMs) / 2)
    c.config.maxRetryDelayMs

/-- An action at a place of the chain. -/
def actionAt (c : FailoverController) (modelIndex profileIndex : ℕ)
    (thinkingLevel : Option ThinkingLevel) (retryDelayMs : ℕ) : FailoverAction where
  provider := (c.modelAt modelIndex).1
  model := (c.modelAt modelIndex).2
  profileIndex := profileIndex
  thinkingLevel := thinkingLevel
  retryDelayMs := retryDelayMs
  attemptNumber := c.totalAttempts + 1

/-- Get the next action to take. -/
def nextAction (c : FailoverController) : Option FailoverAction :=
  if c.config.maxTotalAttempts ≤ c.totalAttempts then none
  else match c.state with
    | .init => some (c.actionAt 0 0 none 0)
    | .tryProfile m p => some (c.actionAt m p none c.computeRetryDelay)
    | .tryModel m => some (c.actionAt m 0 none c.computeRetryDelay)
    | .tryThinkLevel m level => some (c.actionAt m 0 (some level) c.computeRetryDelay)
    | .success => none
    | .exhausted => none

/-- Count the attempt, and log the action it followed. -/
def logAttempt (c : FailoverController) (result : AttemptResult) (durationMs : ℕ) :
    FailoverController :=
  { c with
    attempts := c.attempts ++ (c.nextAction.map fun action =>
      ({ attempt := c.totalAttempts + 1
         model := action.model
         provider := action.provider
         profileId := some ("profile-" ++ toString action.profileIndex)
         thinkingLevel := action.thinkingLevel
         result := result
         durationMs := durationMs } : FailoverAttempt)).toList
    totalAttempts := c.totalAttempts + 1 }

/-- Record success and transition to terminal state. -/
def recordSuccess (c : FailoverController) (durationMs : ℕ) : FailoverController :=
  { c.logAttempt .success durationMs with
    state := .success
    consecutiveTransientRetries := 0 }

/-- Advance to the next model in the fallback chain. -/
def advanceToNextModel (c : FailoverController) (currentIndex : ℕ) : FailoverController :=
  if currentIndex + 1 < c.config.fallbackModels.length + 1 then
    { c with state := .tryModel (currentIndex + 1) }
  else { c with state := .exhausted }

/-- Number of auth profiles for a model; 1 if the list is too short. -/
def profileCount (c : FailoverController) (modelIndex : ℕ) : ℕ :=
  c.profilesPerModel[modelIndex]?.getD 1

/-- Rotate to the next profile, or else to the next model. -/
def rotateProfile (c : FailoverController) (m : ℕ) : FailoverController :=
  if c.state.currentProfile + 1 < c.profileCount m then
    { c with state := .tryProfile m (c.state.currentProfile + 1) }
  else c.advanceToNextModel m

/-- Downgrade the thinking level, or else go on to the next model. -/
def downgradeThinking (c : FailoverController) (m : ℕ) : FailoverController :=
  if c.config.enableThinkingDowngrade then
    match c.state.currentLevel.downgrade with
    | some lower => { c with state := .tryThinkLevel m lower }
    | none => c.advanceToNextModel m
  else c.advanceToNextModel m

/-- Transient: retry same configuration, but cap consecutive retries. -/
def retryTransient (c : FailoverController) (m : ℕ) : FailoverController :=
  if 2 ≤ c.consecutiveTransientRetries + 1 then
    ({ c with consecutiveTransientRetries := 0 } : FailoverController).advanceToNextModel m
  else
    { c with
      consecutiveTransientRetries := c.consecutiveTransientRetries + 1
      state := .tryProfile m c.state.currentProfile }

def resetRetries (c : FailoverController) : FailoverController :=
  { c with consecutiveTransientRetries := 0 }

/-- The transition of the state machine, at the current model. -/
def transition (c : FailoverController) (m : ℕ) : FailoverReason → FailoverController
  | .authError | .rateLimit | .billingError => c.resetRetries.rotateProfile m
  | .contextOverflow => c.resetRetries.downgradeThinking m
  | .modelUnavailable => c.resetRetries.advanceToNextModel m
  | .serverError | .networkError | .timeout | .contentFilter => c.retryTransient m
  | .unknown => c.resetRetries.advanceToNextModel m

/-- Record failure and transition to next state. -/
def recordFailure (c : FailoverController) (reason : FailoverReason) (durationMs : ℕ) :
    FailoverController :=
  if c.config.maxTotalAttempts ≤ c.totalAttempts + 1 then
    { c.logAttempt (.failed reason) durationMs with state := .exhausted }
  else match c.state.modelIndex with
    | none => { c.logAttempt (.failed reason) durationMs with state := .exhausted }
    | some m => (c.logAttempt (.failed reason) durationMs).transition m reason

/-- Nothing is attempted after a success. -/
theorem nextAction_recordSuccess (c : FailoverController) (durationMs : ℕ) :
    (c.recordSuccess durationMs).nextAction = none := by
  unfold nextAction
  split_ifs
  · rfl
  · rfl

end FailoverController

end ClawDesk.Agents.Failover
