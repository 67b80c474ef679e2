import Mathlib.Data.Int.Notation
import Mathlib.Data.List.Basic

/-!
# Model fallback

The state machine that tries model candidates in turn.  `transition` is total;
a run is a fold of it over the events.

The history is threaded through the states by hand and is lost on the way: going
back from `retrying` to `selecting` drops it, a retryable error is recorded
without the error, and a fatal error ends the run with candidates left.  So the
history an exhausted run shows is the true one only for a single candidate that
failed fatally (`exhausted_faithful_iff`).
-/

namespace ClawDesk.Domain

/-- A model candidate for fallback selection. -/
structure ModelCandidate where
  provider : String
  model : String
  priority : ℤ
  maxRetries : ℕ
  deriving DecidableEq

structure TokenUsage where
  inputTokens : ℕ
  outputTokens : ℕ
  cacheReadTokens : Option ℕ
  cacheWriteTokens : Option ℕ
  deriving DecidableEq

/-- Response from a successful provider call; the latency is in nanoseconds. -/
structure ProviderResponse where
  provider : String
  model : String
  content : String
  usage : TokenUsage
  latency : ℕ
  deriving DecidableEq

/-- Errors that can occur during fallback. -/
inductive FallbackError where
  | rateLimit (retryAfter : Option ℕ) (provider : String)
  | authFailure (provider profileId : String)
  | timeout (after : ℕ) (provider : String)
  | billing (provider : String)
  | formatError (detail provider : String)
  | networkError (detail provider : String)
  | serverError (status : ℕ) (provider : String)
  deriving DecidableEq

/-- Record of a fallback attempt. -/
structure FallbackAttempt where
  candidate : ModelCandidate
  error : Option FallbackError
  latency : Option ℕ
  deriving DecidableEq

/-- Why the fallback was aborted. -/
inductive AbortReason where
  | user
  | timeout
  | fatalError (detail : String)
  deriving DecidableEq

/-- States of the fallback machine. -/
inductive FallbackState where
  | idle
  | selecting (candidates : List ModelCandidate)
  | attempting (current : ModelCandidate) (remaining : List ModelCandidate) (attempt : ℕ)
  | succeeded (model : ModelCandidate) (response : ProviderResponse)
  | retrying (failed : ModelCandidate) (error : FallbackError)
      (remaining : List ModelCandidate) (history : List FallbackAttempt)
  | exhausted (history : List FallbackAttempt)
  | aborted (reason : AbortReason)
  deriving DecidableEq

/-- Events that drive state transitions. -/
inductive FallbackEvent where
  | start (candidates : List ModelCandidate)
  | providerSuccess (response : ProviderResponse)
  | retryableError (error : FallbackError)
  | fatalError (error : FallbackError)
  | userAbort
  | timeout (after : ℕ)
  deriving DecidableEq

namespace FallbackState

def isTerminal : FallbackState → Bool
  | succeeded _ _ | exhausted _ | aborted _ => true
  | _ => false

/-- The transitions other than an abort. -/
def advance : FallbackState → FallbackEvent → FallbackState
  | idle, .start candidates =>
      if candidates.isEmpty then .exhausted [] else .selecting candidates
  | selecting (candidate :: candidates), _ => .attempting candidate candidates 0
  | selecting [], _ => .exhausted []
  | attempting current _ _, .providerSuccess response => .succeeded current response
  | attempting current remaining _, .retryableError error =>
      .retrying current error remaining
        [{ candidate := current
           error := none
           latency := none }]
  | attempting current _ _, .fatalError error =>
      .exhausted
        [{ candidate := current
           error := some error
           latency := none }]
  | retrying _ _ remaining history, _ =>
      if !remaining.isEmpty then .selecting remaining else .exhausted history
  | state, _ => state

/-- The transition function. -/
def transition (state : FallbackState) (event : FallbackEvent) : FallbackState :=
  match event with
  | .userAbort => if state.isTerminal then state.advance event else .aborted .user
  | .timeout _ => if state.isTerminal then state.advance event else .aborted .timeout
  | _ => state.advance event

/-- The state after a sequence of events. -/
def run (state : FallbackState) (events : List FallbackEvent) : FallbackState :=
  events.foldl transition state

/-! ### What really happened -/

/-- The candidate being attempted. -/
def current : FallbackState → Option ModelCandidate
  | attempting candidate _ _ => some candidate
  | _ => none

/-- The candidates that have been attempted, in order. -/
def attempted (state : FallbackState) (events : List FallbackEvent) : List ModelCandidate :=
  (events.scanl transition state).filterMap current

/-- The candidate that fails at the event, and its error. -/
def failure : FallbackState → FallbackEvent → Option (ModelCandidate × FallbackError)
  | attempting candidate _ _, .retryableError error => some (candidate, error)
  | attempting candidate _ _, .fatalError error => some (candidate, error)
  | _, _ => none

/-- The failures along a run, in order. -/
def failures : FallbackState → List FallbackEvent → List (ModelCandidate × FallbackError)
  | _, [] => []
  | state, event :: events =>
      (state.failure event).toList ++ (state.transition event).failures events

/-- Every candidate has been attempted once, in list order, and the history lists
exactly these attempts with the error each failed with. -/
structure Faithful (candidates : List ModelCandidate) (events : List FallbackEvent)
    (history : List FallbackAttempt) : Prop where
  inOrder : attempted (idle.transition (.start candidates)) events = candidates
  listed : history.map (·.candidate) = candidates
  complete : history.map (fun a => (a.candidate, a.error)) =
    (failures (idle.transition (.start candidates)) events).map fun f => (f.1, some f.2)

/-- Events other than an abort or a second start. -/
def Undisturbed (events : List FallbackEvent) : Prop :=
  ∀ event ∈ events, event ≠ .userAbort ∧ (∀ after, event ≠ .timeout after) ∧
    ∀ candidates, event ≠ .start candidates

@[simp] theorem run_nil (state : FallbackState) : state.run [] = state := rfl

@[simp] theorem run_cons (state : FallbackState) (event : FallbackEvent)
    (events : List FallbackEvent) :
    state.run (event :: events) = (state.transition event).run events := rfl

theorem attempted_cons (state : FallbackState) (event : FallbackEvent)
    (events : List FallbackEvent) :
    attempted state (event :: events) =
      state.current.toList ++ attempted (state.transition event) events := by
  rw [attempted, List.scanl_cons]
  cases h : state.current <;> simp [h, attempted]

/-- Terminal states absorb every event. -/
theorem transition_of_isTerminal {state : FallbackState} (h : state.isTerminal = true)
    (event : FallbackEvent) : state.transition event = state := by
  cases state with
  | succeeded | exhausted | aborted => cases event <;> rfl
  | _ => simp [isTerminal] at h

theorem run_of_isTerminal {state : FallbackState} (h : state.isTerminal = true)
    (events : List FallbackEvent) : state.run events = state := by
  induction events with
  | nil => rfl
  | cons event events ih => rw [run_cons, transition_of_isTerminal h, ih]

theorem failures_of_isTerminal {state : FallbackState} (h : state.isTerminal = true)
    (events : List FallbackEvent) : state.failures events = [] := by
  induction events with
  | nil => rfl
  | cons event events ih =>
      have hfailure : state.failure event = none := by
        cases state <;> first | rfl | simp [isTerminal] at h
      rw [failures, transition_of_isTerminal h, ih, hfailure]
      rfl

theorem attempted_of_isTerminal {state : FallbackState} (h : state.isTerminal = true)
    (events : List FallbackEvent) : attempted state events = [] := by
  have hcurrent : state.current = none := by
    cases state <;> first | rfl | simp [isTerminal] at h
  induction events with
  | nil => simp [attempted, hcurrent]
  | cons event events ih => rw [attempted_cons, transition_of_isTerminal h, ih, hcurrent]; rfl

/-! ### The history a run can show -/

/-- No state carries more than one attempt. -/
def Forgetful : FallbackState → Prop
  | retrying _ _ _ history => history.length ≤ 1
  | exhausted history => history.length ≤ 1
  | _ => True

/-- **One event.** -/
theorem Forgetful.transition {state : FallbackState} (h : state.Forgetful)
    (event : FallbackEvent) : (state.transition event).Forgetful := by
  cases state with
  | idle =>
      cases event with
      | start candidates => cases candidates <;> simp [FallbackState.transition, advance, Forgetful]
      | _ => trivial
  | selecting candidates =>
      cases candidates <;> cases event <;>
        simp [FallbackState.transition, advance, Forgetful, isTerminal]
  | attempting => cases event <;> simp [FallbackState.transition, advance, Forgetful, isTerminal]
  | retrying failed error remaining history =>
      have hlength : history.length ≤ 1 := h
      cases remaining <;> cases event <;>
        simp [FallbackState.transition, advance, Forgetful, isTerminal, hlength]
  | succeeded | aborted | exhausted => rwa [transition_of_isTerminal rfl]

/-- **A run.** -/
theorem Forgetful.run {state : FallbackState} (h : state.Forgetful)
    (events : List FallbackEvent) : (state.run events).Forgetful := by
  induction events generalizing state with
  | nil => exact h
  | cons event events ih => exact ih (h.transition event)

/-- Two attempts at least cannot be shown. -/
theorem length_le_one {candidates : List ModelCandidate} {events : List FallbackEvent}
    {history : List FallbackAttempt}
    (reached : idle.run (.start candidates :: events) = exhausted history) :
    history.length ≤ 1 := by
  have h : (idle.run (.start candidates :: events)).Forgetful :=
    (show idle.Forgetful from trivial).run _
  rwa [reached] at h

/-! ### When it is the true one -/

variable {candidates : List ModelCandidate} {events : List FallbackEvent}
  {history : List FallbackAttempt}

/-- A single candidate that fails at its second event. -/
theorem faithful_of_fatal (candidate : ModelCandidate) (error : FallbackError)
    (first : FallbackEvent) (hfirst : (selecting [candidate]).transition first =
      attempting candidate [] 0) (rest : List FallbackEvent) :
    Faithful [candidate] (first :: .fatalError error :: rest)
      [{ candidate := candidate
         error := some error
         latency := none }] := by
  have hstart : idle.transition (.start [candidate]) = selecting [candidate] := rfl
  have hfatal : (attempting candidate [] 0).transition (.fatalError error) =
      exhausted [⟨candidate, some error, none⟩] := rfl
  refine ⟨?_, rfl, ?_⟩
  · rw [hstart, attempted_cons, hfirst, attempted_cons, hfatal, attempted_of_isTerminal rfl]
    rfl
  · rw [hstart, failures, hfirst, failures, hfatal, failures_of_isTerminal rfl]
    cases first <;> rfl

/-- An undisturbed event takes a selection to its first candidate. -/
theorem transition_selecting {event : FallbackEvent} (h : Undisturbed [event])
    (candidate : ModelCandidate) (rest : List ModelCandidate) :
    (selecting (candidate :: rest)).transition event = attempting candidate rest 0 := by
  obtain ⟨habort, htimeout, -⟩ := h event (by simp)
  cases event with
  | userAbort => exact absurd rfl habort
  | timeout after => exact absurd rfl (htimeout after)
  | _ => rfl

/-- **The history of an exhausted run is the true one exactly when there was a
single candidate, and it failed fatally.**  The first event after the start only
picks the candidate; the second is the answer to the attempt. -/
theorem exhausted_faithful_iff (nonempty : candidates ≠ []) (undisturbed : Undisturbed events)
    (reached : idle.run (.start candidates :: events) = exhausted history) :
    Faithful candidates events history ↔
      ∃ candidate error, candidates = [candidate] ∧ events[1]? = some (.fatalError error) := by
  constructor
  · intro faithful
    have hlength : candidates.length ≤ 1 := by
      rw [← faithful.listed, List.length_map]
      exact length_le_one reached
    obtain ⟨candidate, rfl⟩ : ∃ candidate, candidates = [candidate] := by
      obtain _ | ⟨candidate, _ | ⟨other, rest⟩⟩ := candidates
      · exact absurd rfl nonempty
      · exact ⟨candidate, rfl⟩
      · simp at hlength
    have hstart : idle.transition (.start [candidate]) = selecting [candidate] := rfl
    have hcomplete := faithful.complete
    obtain _ | ⟨first, events⟩ := events
    · cases reached
    have hfirst := transition_selecting
      (show Undisturbed [first] from fun e he => undisturbed e (by simp_all)) candidate []
    rw [run_cons, hstart, run_cons, hfirst] at reached
    rw [hstart, failures, hfirst] at hcomplete
    obtain _ | ⟨second, events⟩ := events
    · cases reached
    obtain ⟨habort, htimeout, hagain⟩ := undisturbed second (by simp)
    cases second with
    | start others => exact absurd rfl (hagain others)
    | userAbort => exact absurd rfl habort
    | timeout after => exact absurd rfl (htimeout after)
    | fatalError error => exact ⟨candidate, error, rfl, rfl⟩
    | providerSuccess response =>
        have hsucceeded : (attempting candidate [] 0).transition (.providerSuccess response) =
            succeeded candidate response := rfl
        rw [run_cons, hsucceeded, run_of_isTerminal rfl] at reached
        cases reached
    | retryableError error =>
        -- The attempt is recorded, but not the error.
        have hretry : (attempting candidate [] 0).transition (.retryableError error) =
            retrying candidate error [] [⟨candidate, none, none⟩] := rfl
        rw [run_cons, hretry] at reached
        obtain _ | ⟨third, events⟩ := events
        · cases reached
        obtain ⟨habort, htimeout, -⟩ := undisturbed third (by simp)
        have hexhausted : (retrying candidate error [] [⟨candidate, none, none⟩]).transition third =
            exhausted [⟨candidate, none, none⟩] := by
          cases third with
          | userAbort => exact absurd rfl habort
          | timeout after => exact absurd rfl (htimeout after)
          | _ => rfl
        rw [run_cons, hexhausted, run_of_isTerminal rfl] at reached
        obtain rfl := exhausted.inj reached
        cases first <;> simp [failures, failure, hretry] at hcomplete
  · rintro ⟨candidate, error, rfl, hsecond⟩
    obtain _ | ⟨first, _ | ⟨second, rest⟩⟩ := events
    · simp at hsecond
    · simp at hsecond
    obtain rfl : second = .fatalError error := by simpa using hsecond
    have hfirst := transition_selecting
      (show Undisturbed [first] from fun e he => undisturbed e (by simp_all)) candidate []
    have hstart : idle.transition (.start [candidate]) = selecting [candidate] := rfl
    have hfatal : (attempting candidate [] 0).transition (.fatalError error) =
        exhausted [⟨candidate, some error, none⟩] := rfl
    rw [run_cons, hstart, run_cons, hfirst, run_cons, hfatal, run_of_isTerminal rfl] at reached
    obtain rfl := exhausted.inj reached
    exact faithful_of_fatal candidate error first hfirst rest

/-- A candidate of the given provider. -/
def candidateOf (provider : String) : ModelCandidate where
  provider := provider
  model := "m"
  priority := 0
  maxRetries := 1

theorem exhausted_faithful_iff_single :
    Faithful [candidateOf "a"] [.retryableError (.billing "a"), .fatalError (.billing "a")]
      [⟨candidateOf "a", some (.billing "a"), none⟩] :=
  (exhausted_faithful_iff (by decide) (by simp [Undisturbed]) rfl).mpr
    ⟨candidateOf "a", .billing "a", rfl, rfl⟩

/-- **A fatal error ends the run with a candidate never attempted.** -/
theorem candidate_skipped : ∃ candidates events history, candidates ≠ [] ∧ Undisturbed events ∧
    idle.run (.start candidates :: events) = exhausted history ∧
      ¬ Faithful candidates events history := by
  refine ⟨[candidateOf "a", candidateOf "b"],
    [.retryableError (.billing "a"), .fatalError (.billing "a")], _, by decide,
    by simp [Undisturbed], rfl, ?_⟩
  intro faithful
  exact absurd faithful.inOrder (by decide)

end FallbackState

end ClawDesk.Domain
