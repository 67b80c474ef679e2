import ClawDesk.Foundations.Fold
import ClawDesk.Runtime.Types
import Mathlib.Algebra.Field.Rat
import Mathlib.Data.List.Nodup
import Mathlib.Data.List.Pairwise
import Mathlib.Data.Rat.Defs
import Mathlib.Order.Defs.LinearOrder

/-!
# Canary monitoring and rollback of configurations

After a configuration is committed its health is checked for a while.  A check
below the threshold is to roll the generation back; a window that closes without
one promotes it.  Where a generation fails, the rollback goes to the generation
that was last promoted, or else to the one before the newest.

The verdict is computed from the latest check alone, and is written over the one
before; the rollback looks for its target in the whole buffer.
`canaryRollback_conforms_iff` says which checks, and which commits, are dealt with
as the monitor promises.

Scores are of any type with the operations of `f64`; no law of theirs is used.
-/

namespace ClawDesk.Gateway

open ClawDesk.Foundations
open ClawDesk.Runtime (Instant)

variable {F : Type}

/-! ### Health -/

/-- Instantaneous health metrics for canary evaluation. -/
structure HealthMetrics (F : Type) where
  errorRate : F
  p99LatencyMs : F
  targetLatencyMs : F
  resourceUtilization : F

/-- Weights for the composite health function. -/
structure HealthWeights (F : Type) where
  error : F
  latency : F
  saturation : F

section CompositeHealth

variable [Zero F] [One F] [Add F] [Sub F] [Mul F] [Div F] [LT F] [DecidableLT F]

/-- `f64::clamp`: what compares with neither bound stays. -/
def clamp (x lo hi : F) : F := if x < lo then lo else if hi < x then hi else x

/-- The ratio of the latency to its target, and zero where there is no target. -/
def HealthMetrics.latencyRatio (metrics : HealthMetrics F) : F :=
  if 0 < metrics.targetLatencyMs then clamp (metrics.p99LatencyMs / metrics.targetLatencyMs) 0 1
  else 0

/-- Compute the composite health score. -/
def compositeHealth (metrics : HealthMetrics F) (weights : HealthWeights F) : F :=
  let errorComponent := 1 - clamp metrics.errorRate 0 1
  let latencyComponent := 1 - metrics.latencyRatio
  let saturationComponent := 1 - clamp metrics.resourceUtilization 0 1
  clamp (weights.error * errorComponent + weights.latency * latencyComponent
    + weights.saturation * saturationComponent) 0 1

end CompositeHealth

/-! ### The canary monitor -/

/-- Configuration for the canary health monitor. -/
structure CanaryConfig (F : Type) where
  /-- Duration of the canary window after a config change, in nanoseconds. -/
  canaryWindow : ℕ
  /-- Health score threshold below which rollback is triggered. -/
  rollbackThreshold : F
  /-- Minimum number of health checks before making a rollback decision. -/
  minChecks : ℕ
  weights : HealthWeights F

/-- Canary monitoring verdict. -/
inductive CanaryVerdict where
  | monitoring
  | promoted
  | rollbackTriggered
  deriving DecidableEq

/-- A single health check result. -/
structure HealthCheck (F : Type) where
  score : F
  metrics : HealthMetrics F
  checkIndex : ℕ

/-- State of the canary monitor for a specific generation. -/
structure CanaryState (F : Type) where
  generation : ℕ
  /-- When the canary window started. -/
  startedAt : ℕ
  healthChecks : List (HealthCheck F)
  verdict : CanaryVerdict

/-- A health check that is made: the time, and the metrics found. -/
structure CanaryCheck (F : Type) where
  now : ℕ
  metrics : HealthMetrics F

/-- The window of a generation opens. -/
def CanaryState.new (generation now : ℕ) : CanaryState F := ⟨generation, now, [], .monitoring⟩

section Monitor

variable [Zero F] [One F] [Add F] [Sub F] [Mul F] [Div F] [LT F] [DecidableLT F]

/-- Record a health check and evaluate the canary verdict. -/
def CanaryState.recordCheck (config : CanaryConfig F) (canary : CanaryState F)
    (check : CanaryCheck F) : CanaryState F × CanaryVerdict :=
  let score := compositeHealth check.metrics config.weights
  let checkIndex := canary.healthChecks.length
  let canary :=
    { canary with healthChecks := canary.healthChecks ++ [⟨score, check.metrics, checkIndex⟩] }
  if canary.healthChecks.length < config.minChecks then (canary, .monitoring)
  else if score < config.rollbackThreshold then
    ({ canary with verdict := .rollbackTriggered }, .rollbackTriggered)
  else if config.canaryWindow ≤ check.now - canary.startedAt then
    ({ canary with verdict := .promoted }, .promoted)
  else (canary, .monitoring)

/-- The monitor after a check. -/
def CanaryConfig.step (config : CanaryConfig F) (canary : CanaryState F) (check : CanaryCheck F) :
    CanaryState F :=
  (canary.recordCheck config check).1

/-- The check scores below the threshold. -/
def CanaryConfig.Below (config : CanaryConfig F) (check : CanaryCheck F) : Prop :=
  compositeHealth check.metrics config.weights < config.rollbackThreshold

/-- The check, with `earlier` ones before it, closes the window that opened at `started`. -/
structure CanaryConfig.Closes (config : CanaryConfig F) (started earlier : ℕ)
    (check : CanaryCheck F) : Prop where
  enough : config.minChecks ≤ earlier + 1
  elapsed : config.canaryWindow ≤ check.now - started
  sound : ¬ config.Below check

namespace CanaryConfig

variable {config : CanaryConfig F} {canary : CanaryState F} {check : CanaryCheck F}
  {checks : List (CanaryCheck F)} {generation started : ℕ}

@[simp] theorem step_startedAt : (config.step canary check).startedAt = canary.startedAt := by
  unfold CanaryConfig.step CanaryState.recordCheck
  dsimp only
  split_ifs <;> rfl

theorem step_healthChecks : (config.step canary check).healthChecks = canary.healthChecks ++
    [⟨compositeHealth check.metrics config.weights, check.metrics,
      canary.healthChecks.length⟩] := by
  unfold CanaryConfig.step CanaryState.recordCheck
  dsimp only
  split_ifs <;> rfl

/-- **What a check does to the verdict.** -/
theorem step_verdict_cases (config : CanaryConfig F) (canary : CanaryState F)
    (check : CanaryCheck F) :
    (config.Below check ∧ config.minChecks ≤ canary.healthChecks.length + 1 ∧
        (config.step canary check).verdict = .rollbackTriggered) ∨
      (config.Closes canary.startedAt canary.healthChecks.length check ∧
        (config.step canary check).verdict = .promoted) ∨
      ((config.Below check → canary.healthChecks.length + 1 < config.minChecks) ∧
        ¬ config.Closes canary.startedAt canary.healthChecks.length check ∧
        (config.step canary check).verdict = canary.verdict) := by
  unfold CanaryConfig.step CanaryState.recordCheck
  simp only [List.length_append, List.length_singleton]
  split_ifs with hfew hbelow hwindow
  · exact .inr (.inr ⟨fun _ => hfew, fun h => absurd h.enough (Nat.not_le.mpr hfew), rfl⟩)
  · exact .inl ⟨hbelow, Nat.not_lt.mp hfew, rfl⟩
  · exact .inr (.inl ⟨⟨Nat.not_lt.mp hfew, hwindow, hbelow⟩, rfl⟩)
  · exact .inr (.inr ⟨fun h => absurd h hbelow, fun h => hwindow h.elapsed, rfl⟩)

/-! ### Runs of checks -/

theorem startedAt_foldl : (checks.foldl config.step canary).startedAt = canary.startedAt := by
  induction checks generalizing canary with
  | nil => rfl
  | cons check checks ih => rw [List.foldl_cons, ih, step_startedAt]

theorem length_healthChecks_foldl : (checks.foldl config.step canary).healthChecks.length =
    canary.healthChecks.length + checks.length := by
  induction checks generalizing canary with
  | nil => rfl
  | cons check checks ih =>
      rw [List.foldl_cons, ih, step_healthChecks]
      simp only [List.length_append, List.length_cons, List.length_nil]
      omega

/-- The score of a check. -/
def score (config : CanaryConfig F) (check : CanaryCheck F) : F :=
  compositeHealth check.metrics config.weights

/-- The scores kept are those of the checks made. -/
theorem map_score_foldl :
    (checks.foldl config.step canary).healthChecks.map HealthCheck.score =
      canary.healthChecks.map HealthCheck.score ++ checks.map config.score := by
  induction checks generalizing canary with
  | nil => simp
  | cons check checks ih =>
      rw [List.foldl_cons, ih, step_healthChecks]
      simp [score]

/-- Some check scores below the threshold. -/
def SomeBelow (config : CanaryConfig F) (checks : List (CanaryCheck F)) : Prop :=
  ∃ check ∈ checks, config.Below check

/-- Every check kept is at the threshold or above just if every check made is. -/
theorem sound_foldl_iff :
    (∀ c ∈ (checks.foldl config.step (.new generation started)).healthChecks,
        ¬ c.score < config.rollbackThreshold) ↔ ¬ config.SomeBelow checks := by
  have hmap : (∀ c ∈ (checks.foldl config.step (.new generation started)).healthChecks,
      ¬ c.score < config.rollbackThreshold) ↔
        ∀ s ∈ (checks.foldl config.step (.new generation started)).healthChecks.map
          HealthCheck.score, ¬ s < config.rollbackThreshold := by
    rw [List.forall_mem_map]
  rw [hmap, map_score_foldl]
  show (∀ s ∈ [] ++ checks.map config.score, _) ↔ _
  rw [List.nil_append, List.forall_mem_map]
  exact ⟨fun h ⟨c, hc, hbelow⟩ => h c hc hbelow, fun h c hc hbelow => h ⟨c, hc, hbelow⟩⟩

/-- Some check closes the window. -/
def SomeCloses (config : CanaryConfig F) (started : ℕ) (checks : List (CanaryCheck F)) : Prop :=
  ∃ before check after, checks = before ++ check :: after ∧
    config.Closes started before.length check

theorem SomeCloses.append {later : List (CanaryCheck F)} (h : config.SomeCloses started checks) :
    config.SomeCloses started (checks ++ later) := by
  obtain ⟨before, check, after, rfl, hcloses⟩ := h
  exact ⟨before, check, after ++ later, by simp, hcloses⟩

/-- What a promotion, and what a rollback, comes from. -/
theorem verdict_foldl (config : CanaryConfig F) (generation started : ℕ)
    (checks : List (CanaryCheck F)) :
    ((checks.foldl config.step (.new generation started)).verdict = .promoted →
        config.SomeCloses started checks) ∧
      ((checks.foldl config.step (.new generation started)).verdict = .rollbackTriggered →
        config.SomeBelow checks) := by
  induction checks using List.reverseRecOn with
  | nil => exact ⟨CanaryVerdict.noConfusion, CanaryVerdict.noConfusion⟩
  | append_singleton checks check ih =>
      rw [List.foldl_append, List.foldl_cons, List.foldl_nil]
      have hbelow : config.SomeBelow checks → config.SomeBelow (checks ++ [check]) :=
        fun ⟨c, hc, h⟩ => ⟨c, List.mem_append_left _ hc, h⟩
      rcases step_verdict_cases config (checks.foldl config.step (.new generation started)) check
        with ⟨h, -, hv⟩ | ⟨h, hv⟩ | ⟨-, -, hv⟩ <;> rw [hv]
      · exact ⟨fun h => absurd h (by decide), fun _ => ⟨check, by simp, h⟩⟩
      · rw [startedAt_foldl, length_healthChecks_foldl] at h
        refine ⟨fun _ => ⟨checks, check, [], rfl, ?_⟩, fun h => absurd h (by decide)⟩
        simpa [CanaryState.new] using h
      · exact ⟨fun h => (ih.1 h).append, fun h => hbelow (ih.2 h)⟩

/-- What is promised of a check: a verdict that has been given stays, and a generation is
promoted after its window, with enough checks, none of them below the threshold. -/
structure Conforms (config : CanaryConfig F) (canary : CanaryState F) (check : CanaryCheck F) :
    Prop where
  absorbing : canary.verdict ≠ .monitoring → (config.step canary check).verdict = canary.verdict
  promotion : (config.step canary check).verdict = .promoted →
    config.canaryWindow ≤ check.now - canary.startedAt ∧
      config.minChecks ≤ (config.step canary check).healthChecks.length ∧
      ∀ c ∈ (config.step canary check).healthChecks, ¬ c.score < config.rollbackThreshold

/-- After a promotion no check is below the threshold. -/
theorem not_below_of_promoted (hpromoted : canary.verdict = .promoted)
    (henough : config.minChecks ≤ canary.healthChecks.length)
    (h : EachStep config.step canary checks config.Conforms) : ¬ config.SomeBelow checks := by
  induction checks generalizing canary with
  | nil => exact fun ⟨_, hc, _⟩ => absurd hc List.not_mem_nil
  | cons check checks ih =>
      rw [eachStep_cons] at h
      have hkeep : (config.step canary check).verdict = .promoted := by
        rw [h.1.absorbing (by rw [hpromoted]; decide), hpromoted]
      have hlength : config.minChecks ≤ (config.step canary check).healthChecks.length := by
        rw [step_healthChecks, List.length_append]
        exact henough.trans (Nat.le_add_right _ _)
      rintro ⟨c, hc, hbelow⟩
      rcases List.mem_cons.mp hc with rfl | hc
      · rcases step_verdict_cases config canary c with ⟨-, -, hv⟩ | ⟨hcloses, -⟩ | ⟨hfew, -⟩
        · rw [hv] at hkeep
          exact absurd hkeep (by decide)
        · exact hcloses.sound hbelow
        · have := hfew hbelow
          omega
      · exact ih hkeep hlength h.2 ⟨c, hc, hbelow⟩

/-- A run that conforms has no check below the threshold beside one that closes. -/
theorem not_someBelow_of_closes
    (h : EachStep config.step (.new generation started) checks config.Conforms)
    (hcloses : config.SomeCloses started checks) : ¬ config.SomeBelow checks := by
  obtain ⟨before, check, after, rfl, hcloses⟩ := hcloses
  rw [eachStep_append, eachStep_cons] at h
  obtain ⟨-, hcheck, hafter⟩ := h
  set canary : CanaryState F := before.foldl config.step (.new generation started) with hcanary
  have hlength : canary.healthChecks.length = before.length := by
    rw [hcanary, length_healthChecks_foldl]
    exact Nat.zero_add _
  have hcloses' : config.Closes canary.startedAt canary.healthChecks.length check := by
    rw [hlength, hcanary, startedAt_foldl]
    exact hcloses
  have hv : (config.step canary check).verdict = .promoted := by
    rcases step_verdict_cases config canary check with ⟨hbelow, -⟩ | ⟨-, hv⟩ | ⟨-, hnot, -⟩
    · exact absurd hbelow hcloses.sound
    · exact hv
    · exact absurd hcloses' hnot
  obtain ⟨-, henough, hsound⟩ := hcheck.promotion hv
  have hbefore : ¬ config.SomeBelow (before ++ [check]) := by
    rw [← sound_foldl_iff, List.foldl_append]
    exact hsound
  rintro ⟨c, hc, hbelow⟩
  rw [List.append_cons, List.mem_append] at hc
  rcases hc with hc | hc
  · exact hbefore ⟨c, hc, hbelow⟩
  · exact not_below_of_promoted hv henough hafter ⟨c, hc, hbelow⟩

/-- Where some check closes, the window is over and the checks are enough at the last one. -/
theorem SomeCloses.last (hsorted : (checks ++ [check]).Pairwise fun c c' => c.now ≤ c'.now)
    (h : config.SomeCloses started (checks ++ [check])) :
    config.canaryWindow ≤ check.now - started ∧ config.minChecks ≤ checks.length + 1 := by
  obtain ⟨before, c, after, hsplit, hcloses⟩ := h
  have hlength : before.length ≤ checks.length := by
    have := congrArg List.length hsplit
    simp only [List.length_append, List.length_cons, List.length_nil] at this
    omega
  have hnow : c.now ≤ check.now := by
    have hc : c ∈ checks ++ [check] := by rw [hsplit]; simp
    rcases List.mem_append.mp hc with hc | hc
    · exact (List.pairwise_append.mp hsorted).2.2 c hc check (List.mem_singleton_self _)
    · rw [List.mem_singleton.mp hc]
  have henough := hcloses.enough
  have helapsed := hcloses.elapsed
  exact ⟨by omega, by omega⟩

/-- A run conforms where no check closes, or none is below the threshold. -/
theorem conforms_of_not_both (hsorted : checks.Pairwise fun c c' => c.now ≤ c'.now)
    (h : ¬ (config.SomeCloses started checks ∧ config.SomeBelow checks)) :
    EachStep config.step (.new generation started) checks config.Conforms := by
  rintro before check after rfl
  set canary : CanaryState F := before.foldl config.step (.new generation started) with hcanary
  have hstep : config.step canary check =
      (before ++ [check]).foldl config.step (.new generation started) := by
    rw [List.foldl_append, ← hcanary, List.foldl_cons, List.foldl_nil]
  rw [List.append_cons] at h hsorted
  have hnot : config.SomeCloses started (before ++ [check]) →
      ¬ config.SomeBelow (before ++ [check]) :=
    fun hcloses ⟨c, hc, hbelow⟩ => h ⟨hcloses.append, c, List.mem_append_left _ hc, hbelow⟩
  have hbelow' : config.SomeBelow before → config.SomeBelow (before ++ [check]) :=
    fun ⟨c, hc, hbelow⟩ => ⟨c, List.mem_append_left _ hc, hbelow⟩
  have hverdict := verdict_foldl config generation started before
  have hverdict' := verdict_foldl config generation started (before ++ [check])
  rw [← hstep] at hverdict'
  refine ⟨fun hgiven => ?_, fun hpromoted => ?_⟩
  · rcases step_verdict_cases config canary check with ⟨-, -, hv⟩ | ⟨-, hv⟩ | ⟨-, -, hv⟩
    · -- a late bad score: nothing can have closed before it
      have hbelow := hverdict'.2 hv
      cases hcases : canary.verdict with
      | monitoring => exact absurd hcases hgiven
      | promoted => exact absurd hbelow (hnot (hverdict.1 hcases).append)
      | rollbackTriggered => exact hv
    · -- a check that closes: no score can have been below the threshold
      have hcloses := hverdict'.1 hv
      cases hcases : canary.verdict with
      | monitoring => exact absurd hcases hgiven
      | promoted => exact hv
      | rollbackTriggered => exact absurd (hbelow' (hverdict.2 hcases)) (hnot hcloses)
    · exact hv
  · have hcloses := hverdict'.1 hpromoted
    obtain ⟨helapsed, henough⟩ := hcloses.last (List.pairwise_append.mp hsorted).1
    refine ⟨?_, ?_, ?_⟩
    · rw [hcanary, startedAt_foldl]
      exact helapsed
    · rw [hstep, length_healthChecks_foldl, List.length_append, List.length_singleton]
      exact henough.trans (Nat.le_add_left _ _)
    · rw [hstep, sound_foldl_iff]
      exact hnot hcloses

/-- **Which checks are monitored as promised.** -/
theorem eachStep_conforms_iff (hsorted : checks.Pairwise fun c c' => c.now ≤ c'.now) :
    EachStep config.step (.new generation started) checks config.Conforms ↔
      ¬ (config.SomeCloses started checks ∧ config.SomeBelow checks) := by
  constructor
  · rintro h ⟨hcloses, hbelow⟩
    exact not_someBelow_of_closes h hcloses hbelow
  · exact conforms_of_not_both hsorted

end CanaryConfig

end Monitor

/-! ### The rollback buffer -/

/-- Entry in the rollback ring buffer. -/
structure RollbackEntry where
  generation : ℕ
  committedAt : Instant
  fingerprint : String
  /-- Canary verdict (if canary monitoring completed). -/
  canaryVerdict : Option CanaryVerdict
  reason : Option String
  deriving DecidableEq

/-- Ring buffer of recent configuration snapshots for rollback. -/
structure RollbackBuffer where
  entries : List RollbackEntry
  capacity : ℕ

namespace RollbackBuffer

def new (capacity : ℕ) : RollbackBuffer := ⟨[], capacity⟩

/-- Push a new generation into the rollback buffer. -/
def push (buffer : RollbackBuffer) (entry : RollbackEntry) : RollbackBuffer :=
  let entries :=
    if buffer.capacity ≤ buffer.entries.length then buffer.entries.tail else buffer.entries
  { buffer with entries := entries ++ [entry] }

/-- Get the most recent `count` entries. -/
def recent (buffer : RollbackBuffer) (count : ℕ) : List RollbackEntry :=
  buffer.entries.reverse.take count

/-- Get the last promoted generation. -/
def lastPromoted (buffer : RollbackBuffer) : Option RollbackEntry :=
  buffer.entries.reverse.find? fun e => e.canaryVerdict = some .promoted

/-- The buffer after some commits. -/
def holding (capacity : ℕ) (commits : List RollbackEntry) : RollbackBuffer :=
  commits.foldl push (new capacity)

@[simp] theorem push_capacity (buffer : RollbackBuffer) (entry : RollbackEntry) :
    (buffer.push entry).capacity = buffer.capacity := rfl

theorem capacity_holding (capacity : ℕ) (commits : List RollbackEntry) :
    (holding capacity commits).capacity = capacity := by
  induction commits using List.reverseRecOn with
  | nil => rfl
  | append_singleton commits e ih =>
      rw [holding, List.foldl_append, List.foldl_cons, List.foldl_nil, push_capacity]
      exact ih

/-- The commits that are still buffered: the newest `capacity`, and never none at all. -/
def kept (capacity : ℕ) (commits : List RollbackEntry) : List RollbackEntry :=
  commits.drop (commits.length - max capacity 1)

theorem entries_push_holding (capacity : ℕ) (commits : List RollbackEntry) (e : RollbackEntry) :
    ((holding capacity commits).push e).entries =
      (if capacity ≤ (holding capacity commits).entries.length then
        (holding capacity commits).entries.tail
      else (holding capacity commits).entries) ++ [e] := by
  simp only [push, capacity_holding]

theorem entries_holding (capacity : ℕ) (commits : List RollbackEntry) :
    (holding capacity commits).entries = kept capacity commits := by
  induction commits using List.reverseRecOn with
  | nil => simp [kept, holding, new]
  | append_singleton commits e ih =>
      have hlength : (kept capacity commits).length = min commits.length (max capacity 1) := by
        rw [kept, List.length_drop]
        omega
      have hpush : (holding capacity (commits ++ [e])).entries =
          ((holding capacity commits).push e).entries := by
        rw [holding, List.foldl_append]
        rfl
      rw [hpush, entries_push_holding, ih, hlength]
      unfold kept
      rw [List.length_append, List.length_singleton]
      by_cases hfull : max capacity 1 ≤ commits.length
      · -- the oldest entry is dropped
        have hdrop : commits.length + 1 - max capacity 1 =
            commits.length - max capacity 1 + 1 := by omega
        rw [if_pos (by omega), List.tail_drop, hdrop,
          List.drop_append_of_le_length (by omega)]
      · have hzero : commits.length - max capacity 1 = 0 := by omega
        have hzero' : commits.length + 1 - max capacity 1 = 0 := by omega
        rw [hzero, hzero', List.drop_zero, List.drop_zero]
        split_ifs with hcapacity
        · obtain rfl : commits = [] := List.eq_nil_of_length_eq_zero (by omega)
          rfl
        · rfl

end RollbackBuffer

/-! ### The rollback decision -/

/-- Decision about what to roll back to. -/
inductive RollbackDecision where
  /-- Roll back to a specific generation. -/
  | rollbackTo (generation : ℕ)
  /-- Roll back to the last promoted generation. -/
  | rollbackToLastPromoted
  /-- No rollback needed. -/
  | noAction
  deriving DecidableEq

/-- Determine rollback target based on canary verdict. -/
def decideRollback (canary : CanaryState F) (buffer : RollbackBuffer) : RollbackDecision :=
  match canary.verdict with
  | .rollbackTriggered =>
      match buffer.lastPromoted with
      | some promoted => .rollbackTo promoted.generation
      | none =>
          -- no promoted generation found: any previous one
          match (buffer.recent 2)[1]? with
          | some previous => .rollbackTo previous.generation
          | none => .noAction
  | _ => .noAction

/-- The generation that a decision goes back to. -/
def RollbackDecision.target (buffer : RollbackBuffer) : RollbackDecision → Option ℕ
  | .rollbackTo generation => some generation
  | .rollbackToLastPromoted => buffer.lastPromoted.map RollbackEntry.generation
  | .noAction => none

/-- What is promised of a rollback: its target is before the failing generation, and has not
failed itself. -/
def Spares (canary : CanaryState F) (capacity : ℕ) (commits : List RollbackEntry) : Prop :=
  let buffer := RollbackBuffer.holding capacity commits
  ∀ target, (decideRollback canary buffer).target buffer = some target →
    target < canary.generation ∧
      ∀ e ∈ commits, e.generation = target → e.canaryVerdict ≠ some .rollbackTriggered

/-- The commits give a failing generation something to go back to: every buffered generation
that was promoted is before it, or, where none was promoted, the newest but one is before it
and has not failed. -/
structure Recoverable (failing : ℕ) (buffered : List RollbackEntry) : Prop where
  promoted : ∀ e ∈ buffered, e.canaryVerdict = some .promoted → e.generation < failing
  previous : (∀ e ∈ buffered, e.canaryVerdict ≠ some .promoted) →
    ∀ e, buffered.reverse[1]? = some e →
      e.generation < failing ∧ e.canaryVerdict ≠ some .rollbackTriggered

section Decision

variable {canary : CanaryState F} {capacity : ℕ} {commits : List RollbackEntry}

/-- Where a rollback goes. -/
theorem target_decideRollback (hfailed : canary.verdict = .rollbackTriggered)
    (buffer : RollbackBuffer) :
    (decideRollback canary buffer).target buffer =
      (buffer.lastPromoted.or buffer.entries.reverse[1]?).map RollbackEntry.generation := by
  have hrecent : (buffer.recent 2)[1]? = buffer.entries.reverse[1]? := by
    rw [RollbackBuffer.recent, List.getElem?_take_of_lt (by decide)]
  unfold decideRollback
  rw [hfailed, hrecent]
  cases buffer.lastPromoted with
  | some promoted => rfl
  | none =>
      cases buffer.entries.reverse[1]? with
      | some previous => rfl
      | none => rfl

theorem target_decideRollback_eq_none (h : canary.verdict ≠ .rollbackTriggered)
    (buffer : RollbackBuffer) : (decideRollback canary buffer).target buffer = none := by
  unfold decideRollback
  cases hv : canary.verdict with
  | rollbackTriggered => exact absurd hv h
  | monitoring => rfl
  | promoted => rfl

theorem generation_inj (hgen : commits.Pairwise fun e e' => e.generation < e'.generation)
    {e e' : RollbackEntry} (he : e ∈ commits) (he' : e' ∈ commits)
    (h : e.generation = e'.generation) : e = e' := by
  have hnodup : (commits.map RollbackEntry.generation).Nodup :=
    List.pairwise_map.mpr (hgen.imp Nat.ne_of_lt)
  exact List.inj_on_of_nodup_map hnodup he he' h

/-- The last promoted generation is the greatest of those promoted. -/
theorem generation_le_of_find? {buffered : List RollbackEntry} {p e : RollbackEntry}
    (hgen : buffered.Pairwise fun e e' => e.generation < e'.generation)
    (hp : buffered.reverse.find? (fun e => e.canaryVerdict = some .promoted) = some p)
    (he : e ∈ buffered) (hpromoted : e.canaryVerdict = some .promoted) :
    e.generation ≤ p.generation := by
  obtain ⟨-, newer, older, hsplit, hnewer⟩ := List.find?_eq_some_iff_append.mp hp
  have hdesc : (newer ++ p :: older).Pairwise fun e e' => e'.generation < e.generation := by
    rw [← hsplit, List.pairwise_reverse]
    exact hgen
  have hmem : e ∈ newer ++ p :: older := by
    rw [← hsplit]
    exact List.mem_reverse.mpr he
  rcases List.mem_append.mp hmem with h | h
  · have := hnewer e h
    simp [hpromoted] at this
  · rcases List.mem_cons.mp h with rfl | h
    · exact le_rfl
    · exact (List.rel_of_pairwise_cons (List.pairwise_append.mp hdesc).2.1 h).le

/-- A buffered entry is a fit target if its generation is early enough and it has not failed
itself. -/
theorem spared_iff (hgen : commits.Pairwise fun e e' => e.generation < e'.generation)
    {failing : ℕ} {e : RollbackEntry} (he : e ∈ commits) :
    (e.generation < failing ∧ ∀ e' ∈ commits, e'.generation = e.generation →
        e'.canaryVerdict ≠ some .rollbackTriggered) ↔
      e.generation < failing ∧ e.canaryVerdict ≠ some .rollbackTriggered := by
  refine and_congr_right fun _ => ⟨fun h => h e he rfl, fun h e' he' heq => ?_⟩
  rw [generation_inj hgen he' he heq]
  exact h

/-- Which rollbacks spare their target. -/
theorem spares_iff (hgen : commits.Pairwise fun e e' => e.generation < e'.generation) :
    Spares canary capacity commits ↔ (canary.verdict = .rollbackTriggered →
      Recoverable canary.generation (RollbackBuffer.kept capacity commits)) := by
  by_cases hfailed : canary.verdict = .rollbackTriggered
  swap
  · refine iff_of_true ?_ fun h => absurd h hfailed
    intro target htarget
    rw [target_decideRollback_eq_none hfailed] at htarget
    exact absurd htarget.symm (Option.some_ne_none _)
  have hsub : (RollbackBuffer.kept capacity commits).Sublist commits := List.drop_sublist _ _
  have hkept := hgen.sublist hsub
  unfold Spares
  simp only [target_decideRollback hfailed, RollbackBuffer.lastPromoted,
    RollbackBuffer.entries_holding, hfailed, true_imp_iff]
  generalize RollbackBuffer.kept capacity commits = buffered at hsub hkept
  cases hlast : buffered.reverse.find? fun e => e.canaryVerdict = some .promoted with
  | some p =>
      have hp : p ∈ buffered := List.mem_reverse.mp (List.mem_of_find?_eq_some hlast)
      have hverdict : p.canaryVerdict = some .promoted := by
        simpa using List.find?_some hlast
      rw [Option.some_or, Option.map_some]
      constructor
      · intro h
        refine ⟨fun e he hpromoted => ?_, fun hnone => absurd hverdict (hnone p hp)⟩
        exact (generation_le_of_find? hkept hlast he hpromoted).trans_lt (h _ rfl).1
      · rintro h target htarget
        obtain rfl := Option.some.inj htarget
        rw [spared_iff hgen (hsub.mem hp)]
        refine ⟨h.promoted p hp hverdict, ?_⟩
        rw [hverdict]
        decide
  | none =>
      have hnone : ∀ e ∈ buffered, e.canaryVerdict ≠ some .promoted := by
        simpa using hlast
      rw [Option.none_or]
      constructor
      · refine fun h => ⟨fun e he hpromoted => absurd hpromoted (hnone e he), fun _ e he => ?_⟩
        have hmem : e ∈ commits := hsub.mem (List.mem_reverse.mp (List.mem_of_getElem? he))
        rw [← spared_iff hgen hmem]
        exact h e.generation (by rw [he, Option.map_some])
      · intro h target htarget
        obtain ⟨e, he, rfl⟩ := Option.map_eq_some_iff.mp htarget
        have hmem : e ∈ commits := hsub.mem (List.mem_reverse.mp (List.mem_of_getElem? he))
        rw [spared_iff hgen hmem]
        exact h.previous hnone e he

end Decision

/-! ### The promise of the canary monitor -/

section Promise

variable [Zero F] [One F] [Add F] [Sub F] [Mul F] [Div F] [LT F] [DecidableLT F]

namespace HealthMetrics

/-- The default metrics, those of a service in health. -/
def default : HealthMetrics ℚ := ⟨0, 50, 200, 3 / 10⟩

/-- Half of the requests failing, and slowly. -/
def degraded : HealthMetrics ℚ := ⟨1 / 2, 300, 200, 9 / 10⟩

end HealthMetrics

def HealthWeights.default : HealthWeights ℚ := ⟨1 / 2, 3 / 10, 1 / 5⟩

/-- A window of sixty seconds. -/
def CanaryConfig.default : CanaryConfig ℚ := ⟨60000000000, 3 / 5, 3, .default⟩

/-- **Which checks and which commits are dealt with as promised**: the checks unless one closes
the window and one is below the threshold, and a rollback just where the commits give the
failing generation something to go back to. -/
theorem canaryRollback_conforms_iff (config : CanaryConfig F) (generation started : ℕ)
    (checks : List (CanaryCheck F)) (hsorted : checks.Pairwise fun c c' => c.now ≤ c'.now)
    (canary : CanaryState F) (capacity : ℕ) (commits : List RollbackEntry)
    (hgen : commits.Pairwise fun e e' => e.generation < e'.generation) :
    (EachStep config.step (.new generation started) checks config.Conforms ↔
        ¬ (config.SomeCloses started checks ∧ config.SomeBelow checks)) ∧
      (Spares canary capacity commits ↔ (canary.verdict = .rollbackTriggered →
        Recoverable canary.generation (RollbackBuffer.kept capacity commits))) :=
  ⟨config.eachStep_conforms_iff hsorted, spares_iff hgen⟩

/-- The first check, at five seconds, finds the service degraded; two good ones follow. -/
def recoveringChecks : List (CanaryCheck ℚ) :=
  [⟨5000000000, .degraded⟩, ⟨30000000000, .default⟩, ⟨60000000000, .default⟩]

theorem below_degraded : CanaryConfig.default.Below ⟨5000000000, .degraded⟩ := by
  unfold CanaryConfig.Below
  decide +kernel

theorem closes_recovered : CanaryConfig.default.Closes 0 2 ⟨60000000000, .default⟩ := by
  refine ⟨by decide, by decide, ?_⟩
  unfold CanaryConfig.Below
  decide +kernel

/-- An early bad score does not keep a generation from being promoted. -/
theorem recoveringChecks_not_conforms :
    ¬ EachStep CanaryConfig.default.step (.new 1 0) recoveringChecks
      CanaryConfig.default.Conforms := by
  intro h
  have hcloses : CanaryConfig.default.SomeCloses 0 recoveringChecks :=
    ⟨[_, _], _, [], rfl, closes_recovered⟩
  exact CanaryConfig.not_someBelow_of_closes h hcloses ⟨_, List.mem_cons_self, below_degraded⟩

/-- Two healthy generations, the second of them failing, and the rollback to the first. -/
theorem canaryRollback_conforms_iff_twoCommits :
    (EachStep CanaryConfig.default.step (.new 2 0) recoveringChecks
          CanaryConfig.default.Conforms ↔
        ¬ (CanaryConfig.default.SomeCloses 0 recoveringChecks ∧
          CanaryConfig.default.SomeBelow recoveringChecks)) ∧
      (Spares (⟨2, 0, [], .rollbackTriggered⟩ : CanaryState ℚ) 10
          [⟨1, 0, "a", some .promoted, none⟩, ⟨2, 0, "b", none, none⟩] ↔
        (CanaryVerdict.rollbackTriggered = .rollbackTriggered →
          Recoverable 2 (RollbackBuffer.kept 10
            [⟨1, 0, "a", some .promoted, none⟩, ⟨2, 0, "b", none, none⟩]))) :=
  canaryRollback_conforms_iff CanaryConfig.default 2 0 recoveringChecks
    (by simp [recoveringChecks]) ⟨2, 0, [], .rollbackTriggered⟩ 10
    [⟨1, 0, "a", some .promoted, none⟩, ⟨2, 0, "b", none, none⟩] (by simp)

end Promise

end ClawDesk.Gateway
