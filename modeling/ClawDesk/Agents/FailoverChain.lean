import ClawDesk.Agents.Failover
import ClawDesk.Foundations.Stations

/-!
# The fallback chain

Every failed attempt should bring the controller further: to another way of asking the same model,
or to the next model of the chain.  This is a walk along the models, with room for eight attempts
for each profile of a model: two for each of its four thinking levels.

Where a state keeps what the failure leaves untouched, the controller makes such a walk
(`orderly_of_keeps`).  A state that tries a thinking level has forgotten the profile, though, and
drops the level when it retries: a transient failure starts the model over, and with a context
overflow in between this never ends (`levels_start_over`).
-/

namespace ClawDesk.Agents.Failover

open Foundations Stations

/-! ### Runs of failures -/

/-- A failure: its class and how long the attempt took. -/
structure Failure where
  reason : FailoverReason
  durationMs : ℕ

/-- A controller with the actions that were attempted, each with its place in the chain. -/
structure Trail where
  controller : FailoverController
  attempted : List (ℕ × FailoverAction)

namespace Trail

/-- What is attempted next. -/
def attempt (t : Trail) : List (ℕ × FailoverAction) :=
  match t.controller.state.modelIndex, t.controller.nextAction with
  | some m, some action => [(m, action)]
  | _, _ => []

/-- The next action is attempted and fails. -/
def next (t : Trail) (f : Failure) : Trail where
  controller := t.controller.recordFailure f.reason f.durationMs
  attempted := t.attempted ++ t.attempt

/-- The profile of the last attempt without a thinking level. -/
def plainProfile (t : Trail) : ℕ :=
  t.attempted.foldl (fun last p => if p.2.thinkingLevel = none then p.2.profileIndex else last) 0

end Trail

/-- The reasons after which the same configuration is tried again. -/
def FailoverReason.retriesSame : FailoverReason → Bool
  | serverError | networkError | timeout | contentFilter => true
  | _ => false

/-- Whether this failure type should trigger profile rotation. -/
def FailoverReason.rotatesProfile : FailoverReason → Bool
  | authError | rateLimit | billingError => true
  | _ => false

/-- The failure does not need what a state with a thinking level has lost: it is not transient, and
the profile is rotated only if it was the first. -/
def KeepsConfiguration (t : Trail) (f : Failure) : Prop :=
  t.controller.state.thinkingLevel ≠ none →
    f.reason.retriesSame = false ∧ (f.reason.rotatesProfile = true → t.plainProfile = 0)

instance (t : Trail) (f : Failure) : Decidable (KeepsConfiguration t f) :=
  inferInstanceAs (Decidable (_ → _))

/-- A transient failure that does not advance the model is followed by the same attempt. -/
def RetriesSame (t : Trail) (f : Failure) : Prop :=
  f.reason.retriesSame = true →
    (t.next f).controller.state.modelIndex = t.controller.state.modelIndex →
      ∀ action, t.controller.nextAction = some action → ∃ again,
        (t.next f).controller.nextAction = some again ∧ again.provider = action.provider ∧
          again.model = action.model ∧ again.profileIndex = action.profileIndex ∧
            again.thinkingLevel = action.thinkingLevel

/-- The models of a controller are attempted in order, each with its own profiles and only so
often, before it is exhausted. -/
structure Orderly (c : FailoverController) (t : Trail) : Prop where
  /-- Every attempt is at a model of the chain, with one of its profiles. -/
  model : ∀ p ∈ t.attempted, p.1 < c.config.fallbackModels.length + 1 ∧
    (p.2.provider, p.2.model) = c.modelAt p.1
  profile : ∀ p ∈ t.attempted, p.2.profileIndex < c.profileCount p.1
  inOrder : (t.attempted.map Prod.fst).Pairwise (· ≤ ·)
  noneSkipped : ∀ m ∈ t.attempted.map Prod.fst, ∀ m' < m, m' ∈ t.attempted.map Prod.fst
  bounded : ∀ m, (t.attempted.map Prod.fst).count m ≤ 2 * c.profileCount m * 4
  exhausted : t.controller.state = .exhausted →
    ∀ m < c.config.fallbackModels.length + 1, m ∈ t.attempted.map Prod.fst

/-! ### Places -/

/-- How far the thinking level has been downgraded. -/
def ThinkingLevel.rank : ThinkingLevel → ℕ
  | high => 0
  | medium => 1
  | low => 2
  | off => 3

/-- The place in the walk at which a state stands, by its retries and the last profile. -/
inductive Stands (profiles : ℕ → ℕ) (last : ℕ) : FailoverState → ℕ → ℕ × ℕ → Prop
  | init : Stands profiles last .init 0 (0, 0)
  | profile {m p retries : ℕ} (hp : p < profiles m) (hretries : retries ≤ 1) :
      Stands profiles last (.tryProfile m p) retries (m, 8 * p + retries)
  | model {m : ℕ} : Stands profiles last (.tryModel m) 0 (m, 0)
  | level {m : ℕ} {level : ThinkingLevel} (hlast : last < profiles m) (hhigh : level ≠ .high) :
      Stands profiles last (.tryThinkLevel m level) 0 (m, 8 * last + 2 * level.rank)

/-- Where the controller is on its walk; nowhere when it is exhausted. -/
def StandsAt (profiles : ℕ → ℕ) (last : ℕ) (c : FailoverController) : Option (ℕ × ℕ) → Prop
  | none => c.state = .exhausted
  | some place => Stands profiles last c.state c.consecutiveTransientRetries place

/-- The profile that the next attempt leaves behind. -/
def lastProfile (last : ℕ) : FailoverState → ℕ
  | .tryThinkLevel _ _ => last
  | state => state.currentProfile

section Step

variable {c : FailoverController} {last : ℕ} {place : ℕ × ℕ} {next : Option (ℕ × ℕ)}

/-- The number of models. -/
def models (c : FailoverController) : ℕ := c.config.fallbackModels.length + 1

/-- Two attempts for each of the four thinking levels of each profile. -/
def room (c : FailoverController) (m : ℕ) : ℕ := 2 * c.profileCount m * 4

theorem room_pos (hprofiles : ∀ m, 0 < c.profileCount m) (m : ℕ) : 0 < room c m :=
  Nat.mul_pos (Nat.mul_pos Nat.two_pos (hprofiles m)) (by decide)

/-- A controller goes on to the next model, or has come to the end. -/
theorem advance_moves {m pos : ℕ} (hm : m < models c)
    (hretries : c.consecutiveTransientRetries = 0) :
    ∃ next, Move (models c) (room c) (m, pos) next ∧
      StandsAt c.profileCount last (c.advanceToNextModel m) next := by
  unfold FailoverController.advanceToNextModel
  split_ifs with hmore
  · refine ⟨some (m + 1, 0), .onward hmore, ?_⟩
    show Stands c.profileCount last (.tryModel (m + 1)) c.consecutiveTransientRetries (m + 1, 0)
    rw [hretries]
    exact .model
  · exact ⟨none, .stop (le_antisymm hm (not_lt.mp hmore)), rfl⟩

/-! ### Transitions -/

theorem downgrade_rank {level lower : ThinkingLevel} (h : level.downgrade = some lower) :
    lower.rank = level.rank + 1 ∧ lower.rank ≤ 3 ∧ lower ≠ .high := by
  cases level <;> cases h <;> decide

variable {state : FailoverState} {retries : ℕ} {profiles : ℕ → ℕ}

theorem Stands.modelIndex_eq (h : Stands profiles last state retries place) :
    state.modelIndex = some place.1 := by
  cases h <;> rfl

/-- Short of the next profile, and by the thinking level short of the next one. -/
theorem Stands.pos_lt (h : Stands profiles last state retries place) :
    place.2 < 8 * lastProfile last state + 2 * (state.currentLevel.rank + 1) := by
  cases h with
  | init => exact Nat.zero_lt_succ _
  | profile _ hretries =>
      simp only [lastProfile, FailoverState.currentProfile, FailoverState.currentLevel,
        ThinkingLevel.rank]
      omega
  | model => exact Nat.zero_lt_succ _
  | level =>
      simp only [lastProfile, FailoverState.currentLevel]
      omega

theorem rank_le (level : ThinkingLevel) : level.rank ≤ 3 := by
  cases level <;> decide

theorem Stands.lastProfile_lt (hprofiles : ∀ m, 0 < profiles m)
    (h : Stands profiles last state retries place) :
    lastProfile last state < profiles place.1 := by
  cases h with
  | init => exact hprofiles 0
  | profile hp _ => exact hp
  | model => exact hprofiles _
  | level hlast _ => exact hlast

/-- Without a thinking level a state holds all there is to its place. -/
theorem Stands.plain (h : Stands profiles last state retries place)
    (hplain : state.thinkingLevel = none) :
    lastProfile last state = state.currentProfile ∧
      place.2 = 8 * state.currentProfile + retries := by
  cases h with
  | init => exact ⟨rfl, rfl⟩
  | profile => exact ⟨rfl, rfl⟩
  | model => exact ⟨rfl, rfl⟩
  | level => cases hplain

/-- The next profile is further than any retry or thinking level of this one. -/
theorem rotate_moves {pos m : ℕ} (hm : m < models c)
    (h : Stands c.profileCount last c.state retries (m, pos))
    (hretries : c.consecutiveTransientRetries = 0)
    (hkept : c.state.currentProfile = lastProfile last c.state) :
    ∃ next, Move (models c) (room c) (m, pos) next ∧
      StandsAt c.profileCount (lastProfile last c.state) (c.rotateProfile m) next := by
  unfold FailoverController.rotateProfile
  split_ifs with hmore
  · have hpos := h.pos_lt
    have hrank := rank_le c.state.currentLevel
    rw [← hkept] at hpos
    refine ⟨some (m, 8 * (c.state.currentProfile + 1) + 0), .within ?_ ?_, ?_⟩
    · simp only at hpos
      omega
    · simp only [room]
      omega
    · show Stands c.profileCount _ (.tryProfile m (c.state.currentProfile + 1))
        c.consecutiveTransientRetries (m, 8 * (c.state.currentProfile + 1) + 0)
      rw [hretries]
      exact .profile hmore (Nat.zero_le 1)
  · exact advance_moves hm hretries

/-- A lower thinking level is further than any retry of this one. -/
theorem downgrade_moves {pos m : ℕ} (hm : m < models c) (hprofiles : ∀ m, 0 < c.profileCount m)
    (h : Stands c.profileCount last c.state retries (m, pos))
    (hretries : c.consecutiveTransientRetries = 0) :
    ∃ next, Move (models c) (room c) (m, pos) next ∧
      StandsAt c.profileCount (lastProfile last c.state) (c.downgradeThinking m) next := by
  unfold FailoverController.downgradeThinking
  split_ifs
  · cases hlower : c.state.currentLevel.downgrade with
    | none => exact advance_moves hm hretries
    | some lower =>
        obtain ⟨hrank, hle, hhigh⟩ := downgrade_rank hlower
        have hpos := h.pos_lt
        have hlast : lastProfile last c.state < c.profileCount m := h.lastProfile_lt hprofiles
        refine ⟨some (m, 8 * lastProfile last c.state + 2 * lower.rank), .within ?_ ?_, ?_⟩
        · simp only at hpos
          omega
        · simp only [room]
          omega
        · show Stands c.profileCount _ (.tryThinkLevel m lower) c.consecutiveTransientRetries _
          rw [hretries]
          exact .level hlast hhigh
  · exact advance_moves hm hretries

/-- A state without a thinking level is retried once. -/
theorem retry_moves {pos m : ℕ} (hm : m < models c) (hprofiles : ∀ m, 0 < c.profileCount m)
    (h : Stands c.profileCount last c.state c.consecutiveTransientRetries (m, pos))
    (hkept : c.state.thinkingLevel = none) :
    ∃ next, Move (models c) (room c) (m, pos) next ∧
      StandsAt c.profileCount (lastProfile last c.state) (c.retryTransient m) next := by
  unfold FailoverController.retryTransient
  split_ifs with hcap
  · exact advance_moves (c := { c with consecutiveTransientRetries := 0 }) hm rfl
  · have hzero : c.consecutiveTransientRetries = 0 := by omega
    obtain ⟨hsame, hpos⟩ := h.plain hkept
    have hlast : lastProfile last c.state < c.profileCount m := h.lastProfile_lt hprofiles
    rw [hsame] at hlast
    simp only at hpos
    refine ⟨some (m, 8 * c.state.currentProfile + 1), .within (by omega) ?_, ?_⟩
    · simp only [room]
      omega
    · show Stands c.profileCount _ (.tryProfile m c.state.currentProfile)
        (c.consecutiveTransientRetries + 1) _
      rw [hzero]
      exact .profile hlast le_rfl

/-- **Every failure brings the controller further**, where nothing is needed that its state has
lost. -/
theorem transition_moves {pos m : ℕ} (hm : m < models c) (hprofiles : ∀ m, 0 < c.profileCount m)
    (h : Stands c.profileCount last c.state c.consecutiveTransientRetries (m, pos))
    (reason : FailoverReason)
    (hkept : c.state.thinkingLevel ≠ none →
      reason.retriesSame = false ∧ (reason.rotatesProfile = true → last = 0)) :
    ∃ next, Move (models c) (room c) (m, pos) next ∧
      StandsAt c.profileCount (lastProfile last c.state) (c.transition m reason) next := by
  have hrotate : reason.rotatesProfile = true →
      c.state.currentProfile = lastProfile last c.state := by
    intro hrotates
    cases hstate : c.state with
    | tryThinkLevel m level =>
        rw [hstate] at hkept
        exact ((hkept nofun).2 hrotates).symm
    | _ => rfl
  have hplain : reason.retriesSame = true → c.state.thinkingLevel = none := by
    intro hretries
    by_contra hlevel
    exact absurd (hretries.symm.trans (hkept hlevel).1) nofun
  cases reason with
  | authError | rateLimit | billingError =>
      exact rotate_moves (c := c.resetRetries) hm h rfl (hrotate rfl)
  | contextOverflow => exact downgrade_moves (c := c.resetRetries) hm hprofiles h rfl
  | modelUnavailable | unknown => exact advance_moves (c := c.resetRetries) hm rfl
  | serverError | networkError | timeout | contentFilter =>
      exact retry_moves hm hprofiles h (hplain rfl)

end Step

/-! ### Runs -/

section Runs

variable {c : FailoverController} {t : Trail} {f : Failure} {failures : List Failure}

/-- The trail of a controller so far: what never changes, what was attempted, and the walk. -/
structure Progress (c : FailoverController) (t : Trail) : Prop where
  config_eq : t.controller.config = c.config
  profileCount_eq : t.controller.profileCount = c.profileCount
  modelAt_eq : t.controller.modelAt = c.modelAt
  model : ∀ p ∈ t.attempted, p.1 < models c ∧ (p.2.provider, p.2.model) = c.modelAt p.1
  profile : ∀ p ∈ t.attempted, p.2.profileIndex < c.profileCount p.1
  walk : ∃ place, Walk (models c) (room c) (t.attempted.map Prod.fst) place ∧
    StandsAt c.profileCount t.plainProfile t.controller place ∧
      (place.isSome → t.attempted.length = t.controller.totalAttempts)

theorem Progress.orderly (hprofiles : ∀ m, 0 < c.profileCount m) (h : Progress c t) :
    Orderly c t := by
  obtain ⟨place, hwalk, hstands, -⟩ := h.walk
  refine ⟨h.model, h.profile, hwalk.sorted, fun m hm m' hlt => ?_, fun m => ?_,
    fun hstate m hm => ?_⟩
  · exact hwalk.complete m' (hlt.trans_le (hwalk.le_passed m hm))
  · exact hwalk.count_le (Nat.succ_pos _) (room_pos hprofiles) m
  · cases place with
    | none => exact hwalk.complete m hm
    | some place =>
        have hindex := Stands.modelIndex_eq hstands
        rw [hstate] at hindex
        cases hindex

/-- What a state attempts while attempts are left. -/
theorem nextAction_eq {m : ℕ} (hstate : c.state.modelIndex = some m)
    (hmax : c.totalAttempts < c.config.maxTotalAttempts) :
    ∃ delay, c.nextAction =
      some (c.actionAt m c.state.currentProfile c.state.thinkingLevel delay) := by
  unfold FailoverController.nextAction
  rw [if_neg hmax.not_ge]
  cases hc : c.state with
  | init =>
      rw [hc] at hstate
      cases hstate
      exact ⟨_, rfl⟩
  | tryProfile | tryModel | tryThinkLevel =>
      rw [hc] at hstate
      cases hstate
      exact ⟨_, rfl⟩
  | success | exhausted =>
      rw [hc] at hstate
      cases hstate

/-- Only the state and the count of retries are changed. -/
def Rebuilt (c c' : FailoverController) : Prop :=
  ∃ state retries, c' = { c with state := state, consecutiveTransientRetries := retries }

theorem rebuilt_advance {m : ℕ} {retries : ℕ} :
    Rebuilt c (({ c with consecutiveTransientRetries := retries } :
      FailoverController).advanceToNextModel m) := by
  unfold FailoverController.advanceToNextModel
  split_ifs
  · exact ⟨_, _, rfl⟩
  · exact ⟨_, _, rfl⟩

theorem rebuilt_transition (m : ℕ) (reason : FailoverReason) :
    Rebuilt c (c.transition m reason) := by
  cases reason with
  | authError | rateLimit | billingError =>
      simp only [FailoverController.transition, FailoverController.rotateProfile]
      split_ifs
      · exact ⟨_, _, rfl⟩
      · exact rebuilt_advance
  | contextOverflow =>
      simp only [FailoverController.transition, FailoverController.downgradeThinking]
      split_ifs
      · cases c.resetRetries.state.currentLevel.downgrade with
        | some lower => exact ⟨_, _, rfl⟩
        | none => exact rebuilt_advance
      · exact rebuilt_advance
  | modelUnavailable | unknown => exact rebuilt_advance
  | serverError | networkError | timeout | contentFilter =>
      simp only [FailoverController.transition, FailoverController.retryTransient]
      split_ifs
      · exact rebuilt_advance
      · exact ⟨_, _, rfl⟩

/-- What a failure changes, before the limit of attempts is reached. -/
theorem recordFailure_eq {m : ℕ} (hstate : c.state.modelIndex = some m)
    (hmax : c.totalAttempts + 1 < c.config.maxTotalAttempts) (reason : FailoverReason)
    (durationMs : ℕ) : c.recordFailure reason durationMs =
      (c.logAttempt (.failed reason) durationMs).transition m reason := by
  unfold FailoverController.recordFailure
  rw [if_neg hmax.not_ge, hstate]

theorem Stands.currentProfile_lt {profiles : ℕ → ℕ} {last retries : ℕ} {state : FailoverState}
    {place : ℕ × ℕ} (hprofiles : ∀ m, 0 < profiles m)
    (h : Stands profiles last state retries place) : state.currentProfile < profiles place.1 := by
  cases h with
  | profile hp _ => exact hp
  | _ => exact hprofiles _

theorem Trail.plainProfile_next {m delay : ℕ} (hstate : t.controller.state.modelIndex = some m)
    (haction : t.controller.nextAction = some (t.controller.actionAt m
      t.controller.state.currentProfile t.controller.state.thinkingLevel delay)) :
    (t.next f).plainProfile = lastProfile t.plainProfile t.controller.state := by
  unfold Trail.plainProfile Trail.next Trail.attempt
  rw [hstate, haction, List.foldl_append]
  cases t.controller.state <;> rfl

theorem models_congr {c' : FailoverController} (h : c'.config = c.config) :
    models c' = models c := by
  rw [models, models, h]

theorem room_congr {c' : FailoverController} (h : c'.profileCount = c.profileCount) :
    room c' = room c := by
  funext m
  rw [room, room, h]

/-- An exhausted controller attempts nothing and stays exhausted. -/
theorem next_of_exhausted (hstate : t.controller.state = .exhausted) :
    (t.next f).attempted = t.attempted ∧ (t.next f).controller.state = .exhausted ∧
      Rebuilt (t.controller.logAttempt (.failed f.reason) f.durationMs) (t.next f).controller := by
  have hattempt : t.attempt = [] := by
    unfold Trail.attempt
    rw [hstate]
    rfl
  refine ⟨by rw [Trail.next, hattempt, List.append_nil], ?_⟩
  unfold Trail.next FailoverController.recordFailure
  rw [hstate]
  split_ifs
  · exact ⟨rfl, _, _, rfl⟩
  · exact ⟨rfl, _, _, rfl⟩

/-- Any other attempts the action of its state, and takes the transition. -/
theorem next_of_stands {m pos : ℕ} (hprofiles : ∀ m, 0 < t.controller.profileCount m)
    (hm : m < models t.controller)
    (h : Stands t.controller.profileCount t.plainProfile t.controller.state
      t.controller.consecutiveTransientRetries (m, pos))
    (hmax : t.controller.totalAttempts + 1 < t.controller.config.maxTotalAttempts)
    (hkept : KeepsConfiguration t f) :
    ∃ delay next, (t.next f).attempted = t.attempted ++ [(m, t.controller.actionAt m
        t.controller.state.currentProfile t.controller.state.thinkingLevel delay)] ∧
      Move (models t.controller) (room t.controller) (m, pos) next ∧
      StandsAt t.controller.profileCount (t.next f).plainProfile (t.next f).controller next ∧
      Rebuilt (t.controller.logAttempt (.failed f.reason) f.durationMs) (t.next f).controller := by
  have hstate : t.controller.state.modelIndex = some m := h.modelIndex_eq
  obtain ⟨delay, haction⟩ := nextAction_eq hstate ((Nat.lt_succ_self _).trans hmax)
  have hrecord : (t.next f).controller =
      (t.controller.logAttempt (.failed f.reason) f.durationMs).transition m f.reason :=
    recordFailure_eq hstate hmax f.reason f.durationMs
  obtain ⟨next, hmove, hstands⟩ := transition_moves
    (c := t.controller.logAttempt (.failed f.reason) f.durationMs) hm hprofiles h f.reason hkept
  refine ⟨delay, next, ?_, hmove, ?_, ?_⟩
  · unfold Trail.next Trail.attempt
    rw [hstate, haction]
  · rw [Trail.plainProfile_next hstate haction, hrecord]
    exact hstands
  · rw [hrecord]
    exact rebuilt_transition m f.reason

/-- What no failure changes, and the count of attempts. -/
theorem Rebuilt.same {c c' : FailoverController} {result : AttemptResult} {durationMs : ℕ}
    (h : Rebuilt (c.logAttempt result durationMs) c') :
    c'.config = c.config ∧ c'.profileCount = c.profileCount ∧ c'.modelAt = c.modelAt ∧
      c'.totalAttempts = c.totalAttempts + 1 := by
  obtain ⟨state, retries, rfl⟩ := h
  refine ⟨rfl, rfl, ?_, rfl⟩
  funext i
  cases i <;> rfl

/-- **One failure.** -/
theorem Progress.next (hprofiles : ∀ m, 0 < c.profileCount m) (h : Progress c t)
    (hmax : t.controller.totalAttempts + 1 < c.config.maxTotalAttempts)
    (hkept : KeepsConfiguration t f) :
    Progress c (t.next f) := by
  obtain ⟨place, hwalk, hstands, hlength⟩ := h.walk
  cases place with
  | none =>
      obtain ⟨hattempted, hstate, hrebuilt⟩ := next_of_exhausted (f := f) hstands
      obtain ⟨hconfig, hprofile, hmodel, -⟩ := hrebuilt.same
      refine ⟨hconfig.trans h.config_eq, hprofile.trans h.profileCount_eq,
        hmodel.trans h.modelAt_eq, ?_, ?_, none, ?_, hstate, nofun⟩
      · rw [hattempted]
        exact h.model
      · rw [hattempted]
        exact h.profile
      · rw [hattempted]
        exact hwalk
  | some place =>
      obtain ⟨m, pos⟩ := place
      obtain ⟨hm, -⟩ := hwalk.inside (Nat.succ_pos _) (room_pos hprofiles) m pos rfl
      have hstands' : Stands c.profileCount t.plainProfile t.controller.state
        t.controller.consecutiveTransientRetries (m, pos) := hstands
      rw [← h.profileCount_eq] at hstands' hprofiles
      rw [← h.config_eq] at hmax
      obtain ⟨delay, next, hattempted, hmove, hstands₁, hrebuilt⟩ :=
        next_of_stands hprofiles (models_congr h.config_eq ▸ hm) hstands' hmax hkept
      obtain ⟨hconfig, hprofile, hmodel, htotal⟩ := hrebuilt.same
      have hcurrent : t.controller.state.currentProfile < c.profileCount m := by
        rw [← h.profileCount_eq]
        exact hstands'.currentProfile_lt hprofiles
      rw [models_congr h.config_eq, room_congr h.profileCount_eq] at hmove
      refine ⟨hconfig.trans h.config_eq, hprofile.trans h.profileCount_eq,
        hmodel.trans h.modelAt_eq, ?_, ?_, next, ?_, ?_, fun _ => ?_⟩
      · rw [hattempted]
        intro p hp
        rcases List.mem_append.mp hp with hp | hp
        · exact h.model p hp
        · rw [List.mem_singleton.mp hp]
          exact ⟨hm, congrFun h.modelAt_eq m⟩
      · rw [hattempted]
        intro p hp
        rcases List.mem_append.mp hp with hp | hp
        · exact h.profile p hp
        · rw [List.mem_singleton.mp hp]
          exact hcurrent
      · rw [hattempted, List.map_append]
        exact hwalk.visit hmove
      · rw [← h.profileCount_eq]
        exact hstands₁
      · rw [hattempted, htotal, List.length_append, hlength rfl]
        rfl

theorem modelIndex_of_nextAction {action : FailoverAction} (h : c.nextAction = some action) :
    c.totalAttempts < c.config.maxTotalAttempts ∧ ∃ m, c.state.modelIndex = some m := by
  unfold FailoverController.nextAction at h
  split_ifs at h with hmax
  refine ⟨not_le.mp hmax, ?_⟩
  cases hstate : c.state with
  | success | exhausted =>
      rw [hstate] at h
      cases h
  | _ => exact ⟨_, rfl⟩

theorem transition_of_retriesSame {m : ℕ} {reason : FailoverReason}
    (h : reason.retriesSame = true) : c.transition m reason = c.retryTransient m := by
  cases reason <;> first | rfl | cases h

/-- Whoever goes on to the next model is not at the same one. -/
theorem modelIndex_advance (m : ℕ) : (c.advanceToNextModel m).state.modelIndex ≠ some m := by
  unfold FailoverController.advanceToNextModel
  split_ifs
  · exact fun h => Nat.succ_ne_self m (Option.some.inj h)
  · exact nofun

/-- A transient failure that does not advance the model is followed by the same attempt. -/
theorem retriesSame_of_keeps
    (hmax : t.controller.totalAttempts + 1 < t.controller.config.maxTotalAttempts)
    (hkept : KeepsConfiguration t f) : RetriesSame t f := by
  intro hretries hsame action haction
  obtain ⟨hbelow, m, hstate⟩ := modelIndex_of_nextAction haction
  obtain ⟨delay, haction'⟩ := nextAction_eq hstate hbelow
  rw [haction', Option.some.injEq] at haction
  have hplain : t.controller.state.thinkingLevel = none := by
    by_contra hlevel
    exact absurd (hretries.symm.trans (hkept hlevel).1) nofun
  have hrecord : (t.next f).controller =
      (t.controller.logAttempt (.failed f.reason) f.durationMs).retryTransient m :=
    (recordFailure_eq hstate hmax f.reason f.durationMs).trans (transition_of_retriesSame hretries)
  rw [hrecord, hstate] at hsame
  rw [hrecord]
  unfold FailoverController.retryTransient at hsame ⊢
  split_ifs at hsame ⊢
  · exact absurd hsame (modelIndex_advance m)
  · obtain ⟨delay', hagain⟩ := nextAction_eq (c := { t.controller.logAttempt (.failed f.reason)
      f.durationMs with
        consecutiveTransientRetries := t.controller.consecutiveTransientRetries + 1
        state := .tryProfile m t.controller.state.currentProfile }) rfl hmax
    refine ⟨_, hagain, ?_⟩
    subst haction
    refine ⟨?_, ?_, rfl, hplain.symm⟩
    · show (FailoverController.modelAt _ m).1 = _
      cases m <;> rfl
    · show (FailoverController.modelAt _ m).2 = _
      cases m <;> rfl

/-! ### Whole runs -/

/-- A new controller with some profiles for each model, before the first attempt. -/
def Trail.start (provider model : String) (config : FailoverConfig) (counts : List ℕ) : Trail :=
  ⟨(FailoverController.new provider model config).withProfileCounts counts, []⟩

theorem progress_start (provider model : String) (config : FailoverConfig) (counts : List ℕ) :
    Progress (Trail.start provider model config counts).controller
      (Trail.start provider model config counts) where
  config_eq := rfl
  profileCount_eq := rfl
  modelAt_eq := rfl
  model _ hp := absurd hp List.not_mem_nil
  profile _ hp := absurd hp List.not_mem_nil
  walk := ⟨some (0, 0), .start, .init, fun _ => rfl⟩

theorem totalAttempts_next (t : Trail) (f : Failure) :
    (t.next f).controller.totalAttempts = t.controller.totalAttempts + 1 := by
  unfold Trail.next FailoverController.recordFailure
  split_ifs
  · rfl
  · cases t.controller.state.modelIndex with
    | none => rfl
    | some m => exact (rebuilt_transition m f.reason).same.2.2.2

theorem totalAttempts_foldl (start : Trail) (failures : List Failure) :
    (failures.foldl Trail.next start).controller.totalAttempts =
      start.controller.totalAttempts + failures.length := by
  induction failures generalizing start with
  | nil => rfl
  | cons f failures ih =>
      rw [List.foldl_cons, ih, totalAttempts_next, List.length_cons, Nat.add_assoc,
        Nat.add_comm 1]

/-- A walk that is over its budget of attempts has ended. -/
theorem Progress.exhausted_of_le (hprofiles : ∀ m, 0 < c.profileCount m) (h : Progress c t)
    (hle : ∑ m ∈ Finset.range (models c), room c m ≤ t.controller.totalAttempts) :
    t.controller.state = .exhausted := by
  obtain ⟨place, hwalk, hstands, hlength⟩ := h.walk
  cases place with
  | none => exact hstands
  | some place =>
      have hlt := hwalk.length_lt (Nat.succ_pos _) (room_pos hprofiles)
      rw [List.length_map, hlength rfl] at hlt
      exact absurd hle hlt.not_ge

theorem profileCount_start_pos {provider model : String} {config : FailoverConfig} {counts : List ℕ}
    (hcounts : ∀ count ∈ counts, 0 < count) (m : ℕ) :
    0 < (Trail.start provider model config counts).controller.profileCount m := by
  show 0 < counts[m]?.getD 1
  cases hget : counts[m]? with
  | none => exact Nat.one_pos
  | some count => exact hcounts count (List.mem_of_getElem? hget)

end Runs

/-- **A controller whose states lose nothing that they need goes through its models in order.**
However the failures are classified, it is exhausted after as many as there are attempts for all
models. -/
theorem orderly_of_keeps {provider model : String} {config : FailoverConfig} {counts : List ℕ}
    {failures : List Failure} (hcounts : ∀ count ∈ counts, 0 < count)
    (hmax : failures.length < config.maxTotalAttempts)
    (hkept : EachStep Trail.next (.start provider model config counts) failures
      KeepsConfiguration) :
    Orderly (Trail.start provider model config counts).controller
        (failures.foldl Trail.next (.start provider model config counts)) ∧
      EachStep Trail.next (.start provider model config counts) failures RetriesSame ∧
      (∑ m ∈ Finset.range (config.fallbackModels.length + 1),
          2 * (Trail.start provider model config counts).controller.profileCount m * 4 ≤
            failures.length →
        (failures.foldl Trail.next (.start provider model config counts)).controller.state =
          .exhausted) := by
  have hprofiles : ∀ m, 0 < (Trail.start provider model config counts).controller.profileCount m :=
    profileCount_start_pos hcounts
  have hsteps : EachStep Trail.next (.start provider model config counts) failures fun t f =>
      KeepsConfiguration t f ∧ t.controller.totalAttempts + 1 < config.maxTotalAttempts := by
    refine hkept.and fun before f after hsplit => ?_
    have hlength : before.length + 1 ≤ failures.length := by
      rw [hsplit, List.length_append, List.length_cons]
      omega
    rw [totalAttempts_foldl]
    exact (Nat.add_right_comm 0 before.length 1).trans_lt (by omega)
  have hstart : Progress (Trail.start provider model config counts).controller
      (Trail.start provider model config counts) := progress_start ..
  have hstep : ∀ t f, Progress (Trail.start provider model config counts).controller t →
      KeepsConfiguration t f ∧ t.controller.totalAttempts + 1 < config.maxTotalAttempts →
        Progress (Trail.start provider model config counts).controller (t.next f) :=
    fun t f h hf => h.next hprofiles hf.2 hf.1
  have hprogress := hsteps.invariant hstart hstep
  refine ⟨hprogress.orderly hprofiles, hsteps.imp hstart hstep fun t f h hf => ?_, fun hle => ?_⟩
  · refine retriesSame_of_keeps ?_ hf.1
    rw [h.config_eq]
    exact hf.2
  · refine hprogress.exhausted_of_le hprofiles ?_
    rw [totalAttempts_foldl]
    exact hle.trans (Nat.le_add_left _ _)

/-! ### Thinking levels -/

/-- One model with one profile. -/
def single : Trail :=
  .start "anthropic" "claude" ⟨[], 15, true, 500, 30000⟩ [1]

/-- After a transient failure and a context overflow the lower levels are tried in turn. -/
theorem orderly_overflows :
    let failures : List Failure := [⟨.serverError, 0⟩, ⟨.contextOverflow, 0⟩, ⟨.contextOverflow, 0⟩,
      ⟨.contextOverflow, 0⟩, ⟨.contextOverflow, 0⟩]
    Orderly single.controller (failures.foldl Trail.next single) := by
  intro failures
  have hkept : EachStep Trail.next single failures KeepsConfiguration := by decide
  exact (orderly_of_keeps (by decide) (by decide) hkept).1

/-- **The thinking levels start over**: overflows and server errors in turn keep the
controller at its only model for as long as the limit of attempts allows. -/
theorem levels_start_over :
    let failures : List Failure := [⟨.contextOverflow, 0⟩, ⟨.serverError, 0⟩, ⟨.contextOverflow, 0⟩,
      ⟨.serverError, 0⟩, ⟨.contextOverflow, 0⟩, ⟨.serverError, 0⟩, ⟨.contextOverflow, 0⟩,
      ⟨.serverError, 0⟩, ⟨.contextOverflow, 0⟩]
    failures.length < single.controller.config.maxTotalAttempts ∧
      ¬ Orderly single.controller (failures.foldl Trail.next single) ∧
      ¬ EachStep Trail.next single failures RetriesSame ∧
      (failures.foldl Trail.next single).controller.state ≠ .exhausted := by
  intro failures
  refine ⟨by decide, fun h => ?_, fun h => ?_, by decide⟩
  · have hbound : 9 ≤ 8 := h.bounded 0
    omega
  · obtain ⟨again, hagain, -, -, -, hlevel⟩ :=
      h [⟨.contextOverflow, 0⟩] ⟨.serverError, 0⟩ _ rfl rfl rfl _ rfl
    cases hagain
    cases hlevel

end ClawDesk.Agents.Failover
