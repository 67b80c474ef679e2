import ClawDesk.Runtime.DagPath

/-!
# The order in which steps are executed

The step loop is a `for` over the indices.  Its retry branch pops the failed
result and continues, which advances to the next index: the step is skipped and
not repeated (`step_skipped`).  Without such a failure the results are those of
the steps in order, none missing (`steps_in_order_iff`).
-/

namespace ClawDesk.Runtime

open Foundations (Prog Json)
open Foundations.Prog
open Agents

/-- No failed execution has attempts left, as the loop counts them. -/
def NoRetry (policy : ErrorPolicy) (L : Path) : Prop :=
  ∀ maxAttempts backoffMs, policy = .retry maxAttempts backoffMs →
    ∀ x ∈ executions L, x.Failed → ¬ x.run.attempt < maxAttempts % 2 ^ 32

theorem NoRetry.mono {policy : ErrorPolicy} {L L' : Path} (h : NoRetry policy L)
    (hsub : executions L' ⊆ executions L) : NoRetry policy L' :=
  fun maxAttempts backoffMs hpolicy x hx => h maxAttempts backoffMs hpolicy x (hsub hx)

section Loop

variable {policy : ErrorPolicy} {ex : DagExecutor}

/-- The loop executes the steps in order, each at most once. -/
theorem executions_prefix {steps : List (PipelineStep × ℕ)} {st : Progress} {L : Path}
    {res : Except RuntimeError Progress} (h : (pipelineLoop policy steps st).Trace L res) :
    (executions L).map (·.stepIdx) <+: steps.map Prod.snd := by
  induction steps generalizing st L with
  | nil =>
      obtain ⟨rfl, -⟩ := trace_ret.mp h
      exact List.prefix_rfl
  | cons head rest ih =>
      obtain ⟨step, stepIdx⟩ := head
      cases iteration_of_trace h with
      | lost => simp
      | unsaved | stopped => simp
      | suspended lease run reason tail => simp [(suspendRun_trace tail).1]
      | completed lease run result tail => simpa using ih tail
      | continued lease run error durationMs continues tail => simpa using ih tail
      | retried lease run error durationMs maxAttempts backoffMs saved retries left tail =>
          simpa using ih tail

/-- The attempt counter never goes down. -/
theorem attempt_le {steps : List (PipelineStep × ℕ)} {st : Progress} {L : Path}
    {res : Except RuntimeError Progress} (h : (pipelineLoop policy steps st).Trace L res)
    (answered : Answered ex L) : ∀ x ∈ executions L, st.run.attempt ≤ x.run.attempt := by
  induction steps generalizing st L with
  | nil =>
      obtain ⟨rfl, -⟩ := trace_ret.mp h
      simp
  | cons head rest ih =>
      obtain ⟨step, stepIdx⟩ := head
      cases iteration_of_trace h with
      | lost => simp
      | unsaved lease run | stopped lease run =>
          have hrun : run.attempt = st.run.attempt := answered.turn.1
          simp [hrun]
      | suspended lease run reason tail =>
          have hrun : run.attempt = st.run.attempt := answered.turn.1
          simp [(suspendRun_trace tail).1, hrun]
      | completed lease run result tail =>
          have hrun : run.attempt = st.run.attempt := answered.turn.1
          have := ih tail (answered.drop 3)
          simpa [hrun, Progress.complete] using this
      | continued lease run error durationMs continues tail =>
          have hrun : run.attempt = st.run.attempt := answered.turn.1
          have := ih tail (answered.drop 2)
          simpa [hrun, Progress.fail] using this
      | retried lease run error durationMs maxAttempts backoffMs saved retries left tail =>
          have hrun : run.attempt = st.run.attempt := answered.turn.1
          have := ih tail (answered.drop 4)
          simp only [Progress.retry, Progress.fail, hrun] at this
          simpa [hrun] using fun x hx => (Nat.le_succ _).trans (this x hx)

/-- The first failure finds the attempt counter where the loop started. -/
theorem exists_first_failure {steps : List (PipelineStep × ℕ)} {st : Progress} {L : Path}
    {res : Except RuntimeError Progress} (h : (pipelineLoop policy steps st).Trace L res)
    (answered : Answered ex L) (hfailed : ∃ x ∈ executions L, x.Failed) :
    ∃ x ∈ executions L, x.Failed ∧ x.run.attempt = st.run.attempt := by
  induction steps generalizing st L with
  | nil =>
      obtain ⟨rfl, -⟩ := trace_ret.mp h
      simp at hfailed
  | cons head rest ih =>
      obtain ⟨step, stepIdx⟩ := head
      cases iteration_of_trace h with
      | lost => simp at hfailed
      | unsaved => simp [Execution.Failed] at hfailed
      | suspended lease run reason tail =>
          simp [(suspendRun_trace tail).1, Execution.Failed] at hfailed
      | completed lease run result tail =>
          have hrun : run.attempt = st.run.attempt := answered.turn.1
          obtain ⟨x, hx, hxfailed, hattempt⟩ := ih tail (answered.drop 3)
            (by simpa [Execution.Failed] using hfailed)
          exact ⟨x, by simp [hx], hxfailed, hattempt.trans hrun⟩
      | stopped lease run error durationMs | continued lease run error durationMs
      | retried lease run error durationMs =>
          have hrun : run.attempt = st.run.attempt := answered.turn.1
          exact ⟨⟨run, stepIdx, .failed error durationMs⟩, by simp, ⟨_, _, rfl⟩, hrun⟩

/-- Without retries, every execution leaves its result. -/
theorem stepResults_of_noRetry {steps : List (PipelineStep × ℕ)} {st st' : Progress} {L : Path}
    (h : (pipelineLoop policy steps st).Trace L (.ok st')) (answered : Answered ex L)
    (noRetry : NoRetry policy L) :
    st'.stepResults.map (·.stepIndex) =
      st.stepResults.map (·.stepIndex) ++ (executions L).map (·.stepIdx) := by
  induction steps generalizing st L with
  | nil =>
      obtain ⟨rfl, hst⟩ := trace_ret.mp h
      obtain rfl := Except.ok.inj hst
      simp
  | cons head rest ih =>
      obtain ⟨step, stepIdx⟩ := head
      cases iteration_of_trace h with
      | suspended lease run reason tail =>
          obtain ⟨-, ⟨err, ⟨⟩⟩, -⟩ := suspendRun_trace tail
      | completed lease run result tail =>
          have hindex := (answered.turn.2 result rfl).1
          rw [ih tail (answered.drop 3) (noRetry.mono (by simp))]
          simp [Progress.complete, hindex]
      | stopped lease run error durationMs => simp [Progress.fail, StepResult.failure]
      | continued lease run error durationMs continues tail =>
          rw [ih tail (answered.drop 2) (noRetry.mono (by simp))]
          simp [Progress.fail, StepResult.failure]
      | retried lease run error durationMs maxAttempts backoffMs saved retries left tail =>
          exact absurd left (noRetry _ _ retries ⟨run, stepIdx, .failed error durationMs⟩
            (by simp) ⟨_, _, rfl⟩)

/-- Under `Retry` without retries, the loop goes on after completed steps only. -/
theorem completed_of_noRetry {maxAttempts backoffMs : ℕ}
    {steps : List (PipelineStep × ℕ)} {st st' : Progress} {L : Path}
    (h : (pipelineLoop (.retry maxAttempts backoffMs) steps st).Trace L (.ok st'))
    (noRetry : NoRetry (.retry maxAttempts backoffMs) L) {before after : List Execution}
    {x : Execution} (hsplit : executions L = before ++ x :: after) :
    ∀ y ∈ before, y.Completed := by
  induction steps generalizing st L before with
  | nil =>
      obtain ⟨rfl, -⟩ := trace_ret.mp h
      simp at hsplit
  | cons head rest ih =>
      obtain ⟨step, stepIdx⟩ := head
      cases iteration_of_trace h with
      | suspended lease run reason tail =>
          obtain ⟨-, ⟨err, ⟨⟩⟩, -⟩ := suspendRun_trace tail
      | completed lease run result tail =>
          cases before with
          | nil => simp
          | cons y before =>
              obtain ⟨rfl, hrest⟩ : ⟨run, stepIdx, .completed result⟩ = y ∧
                  executions _ = before ++ x :: after := by simpa using hsplit
              intro z hz
              rcases List.mem_cons.mp hz with rfl | hz
              · exact ⟨result, rfl⟩
              · exact ih tail (noRetry.mono (by simp)) hrest z hz
      | stopped lease run error durationMs =>
          cases before with
          | nil => simp
          | cons y before => simp at hsplit
      | continued lease run error durationMs continues tail => cases continues
      | retried lease run error durationMs _ _ saved retries left tail =>
          exact absurd left (noRetry _ _ retries ⟨run, stepIdx, .failed error durationMs⟩
            (by simp) ⟨_, _, rfl⟩)

end Loop

/-! ### Steps in order -/

/-- What is expected of the step executions of a run that returns a result. -/
structure StepsInOrder (policy : ErrorPolicy) (L : Path) (result : PipelineResult) : Prop where
  /-- The results are those of the steps `0, …, k - 1`, in order. -/
  indices : result.steps.map (·.stepIndex) = List.range result.steps.length
  /-- Under `Retry` a step that failed with attempts left is executed again before
  any later step. -/
  repeated : ∀ {maxAttempts backoffMs before x after},
    policy = .retry maxAttempts backoffMs → executions L = before ++ x :: after → x.Failed →
      x.run.attempt < maxAttempts → ∃ between y rest, after = between ++ y :: rest ∧
        y.stepIdx = x.stepIdx ∧ ∀ z ∈ between, z.stepIdx ≤ x.stepIdx
  /-- Under `Retry` a step is executed only after all earlier ones have completed. -/
  afterEarlier : ∀ {maxAttempts backoffMs before x after},
    policy = .retry maxAttempts backoffMs → executions L = before ++ x :: after →
      ∀ i < x.stepIdx, ∃ y ∈ before, y.stepIdx = i ∧ y.Completed

/-- A step fails under a policy that gives it another attempt. -/
def NeedsRetry (policy : ErrorPolicy) (L : Path) : Prop :=
  ∃ maxAttempts backoffMs, policy = .retry maxAttempts backoffMs ∧ 1 < maxAttempts ∧
    ∃ x ∈ executions L, x.Failed

/-- A run that returns a result has gone through the loop, from the first attempt. -/
theorem loop_of_executeWith {ex : DagExecutor} {pipeline : AgentPipeline}
    {retryPolicy : RetryPolicy} {L : Path} {result : PipelineResult}
    (h : (ex.executeWith pipeline retryPolicy).Trace L (.ok result)) (answered : Answered ex L)
    (fresh : StartsFresh L) :
    ∃ L' st st', (pipelineLoop pipeline.errorPolicy (stepsFrom pipeline 0) st).Trace L' (.ok st') ∧
      Answered ex L' ∧ executions L' = executions L ∧ st.run.attempt = 1 ∧ st.stepResults = [] ∧
        result.steps = st'.stepResults := by
  obtain ⟨-, -, err, ⟨⟩⟩ | ⟨L₁, L₂, run, fence, rfl, hexec, -, hattempt, hrun⟩ :=
    trace_executeWith h fresh
  obtain ⟨L', L₃, looped, rfl, hexec', -, hloop, hresult⟩ := trace_runFrom hrun
  obtain ⟨st', rfl, hsteps, -⟩ := hresult result rfl
  refine ⟨L', _, st', hloop, ?_, ?_, hattempt, rfl, hsteps⟩
  · exact fun e r hmem => answered e r
      (List.mem_append_right _ (List.mem_append_left _ hmem))
  · simp [executions_append, hexec, hexec']

/-- The indices of the steps from the first on. -/
theorem stepsFrom_indices (pipeline : AgentPipeline) :
    (stepsFrom pipeline 0).map Prod.snd = List.range pipeline.steps.length := by
  simp [stepsFrom, List.zipIdx_map_snd, List.range_eq_range']

theorem eq_range_of_prefix {l : List ℕ} {n : ℕ} (h : l <+: List.range n) :
    l = List.range l.length := by
  have hlen : l.length ≤ n := by simpa using h.length_le
  rw [List.prefix_iff_eq_take.mp h]
  simp [List.take_range, hlen]

/-- **Steps are executed in order, none skipped, exactly when no step fails that
has another attempt.** -/
theorem steps_in_order_iff {ex : DagExecutor} {pipeline : AgentPipeline}
    {retryPolicy : RetryPolicy} {L : Path} {result : PipelineResult}
    (h : (ex.executeWith pipeline retryPolicy).Trace L (.ok result)) (answered : Answered ex L)
    (fresh : StartsFresh L) :
    StepsInOrder pipeline.errorPolicy L result ↔ ¬ NeedsRetry pipeline.errorPolicy L := by
  obtain ⟨L', st, st', hloop, hanswered, hexec, hattempt, hempty, hsteps⟩ :=
    loop_of_executeWith h answered fresh
  have hprefix := executions_prefix hloop
  rw [hexec, stepsFrom_indices] at hprefix
  have hrange := eq_range_of_prefix hprefix
  constructor
  · rintro inOrder ⟨maxAttempts, backoffMs, hpolicy, hmax, x, hx, hfailed⟩
    -- The first failure is followed by no second execution of its step.
    obtain ⟨x, hx, hfailed, hx1⟩ :=
      exists_first_failure hloop hanswered ⟨x, hexec ▸ hx, hfailed⟩
    obtain ⟨before, after, hsplit⟩ := List.append_of_mem (hexec ▸ hx)
    obtain ⟨between, y, rest, rfl, hy, -⟩ :=
      inOrder.repeated hpolicy hsplit hfailed (by omega)
    have hnodup : ((executions L).map (·.stepIdx)).Nodup := hrange ▸ List.nodup_range
    rw [hsplit] at hnodup
    simp [List.nodup_append, hy] at hnodup
  · intro hneeds
    have hge := attempt_le hloop hanswered
    rw [hexec] at hge
    have noRetry : NoRetry pipeline.errorPolicy L' := by
      intro maxAttempts backoffMs hpolicy x hx hfailed hleft
      have hx1 := hge x (hexec ▸ hx)
      have hmod := Nat.mod_le maxAttempts (2 ^ 32)
      exact hneeds ⟨maxAttempts, backoffMs, hpolicy, by omega, x, hexec ▸ hx, hfailed⟩
    refine ⟨?_, ?_, ?_⟩
    · have := stepResults_of_noRetry hloop hanswered noRetry
      rw [hempty, hexec, ← hsteps, List.map_nil, List.nil_append] at this
      rw [this, hrange]
      simp [← this]
    · intro maxAttempts backoffMs before x after hpolicy hsplit hfailed hleft
      have hx1 := hge x (by simp [hsplit])
      exact absurd ⟨maxAttempts, backoffMs, hpolicy, by omega, x, by simp [hsplit], hfailed⟩ hneeds
    · intro maxAttempts backoffMs before x after hpolicy hsplit i hi
      rw [hpolicy] at hloop noRetry
      have hcompleted := completed_of_noRetry hloop noRetry (hexec.trans hsplit)
      rw [hsplit] at hrange
      have hlen : x.stepIdx = before.length := by
        simpa using congrArg (·[before.length]?) hrange
      have hlt : i < before.length := hlen ▸ hi
      have hget : before[i].stepIdx = i := by
        have := congrArg (·[i]?) hrange
        simpa [hlt, List.getElem?_append_left, hlt.trans_le (Nat.le_add_right _ _)] using this
      exact ⟨_, List.getElem_mem _, hget, hcompleted _ (List.getElem_mem _)⟩

/-! ### A pipeline whose first step fails -/

/-- An agent that fails, and a transformation. -/
def failingFirst (errorPolicy : ErrorPolicy) : AgentPipeline where
  steps := [.agent "writer" 30, .transform "done"]
  errorPolicy := errorPolicy
  name := "draft"

/-- An executor in the first process, with leases of 30 seconds. -/
def soleExecutor : DagExecutor := ⟨⟨30, 0⟩, "w1"⟩

/-- Every agent refuses to work. -/
def refusal : Except ClawDeskError AgentResponse := .error (.agent .cancelled)

/-- The path of `failingFirst` in a world in which nothing but the agent fails. -/
def failingPath (errorPolicy : ErrorPolicy) : Path :=
  (soleExecutor.executeWith (failingFirst errorPolicy) .defaultPipeline).path
    (soleExecutor.serve refusal) (.initial 0)

/-- …and what `execute` returns there. -/
def failingResult (errorPolicy : ErrorPolicy) : Except RuntimeError PipelineResult :=
  ((soleExecutor.executeWith (failingFirst errorPolicy) .defaultPipeline).eval
    (soleExecutor.serve refusal) (.initial 0)).1

theorem trace_failingPath (errorPolicy : ErrorPolicy) :
    (soleExecutor.executeWith (failingFirst errorPolicy) .defaultPipeline).Trace
      (failingPath errorPolicy) (failingResult errorPolicy) :=
  trace_path _ _ _

theorem answered_failingPath (errorPolicy : ErrorPolicy) :
    Answered soleExecutor (failingPath errorPolicy) :=
  answered_path _ _ _ _

theorem steps_in_order_iff_continueOnError :
    ∃ result, StepsInOrder .continueOnError (failingPath .continueOnError) result ∧
      result.steps.map (·.stepIndex) = [0, 1] := by
  refine ⟨_, (steps_in_order_iff (trace_failingPath .continueOnError)
    (answered_failingPath _) (startsFresh_of_any rfl)).mpr ?_, rfl⟩
  rintro ⟨maxAttempts, backoffMs, ⟨⟩, -⟩

/-- With three attempts per step the failed first step is not tried again: the
result has the second step only. -/
theorem step_skipped :
    ∃ l result, (soleExecutor.execute (failingFirst (.retry 3 100)) .defaultPipeline).Trace l
        (.ok result) ∧
      result.steps.map (·.stepIndex) = [1] ∧ ∀ L, ¬ StepsInOrder (.retry 3 100) L result := by
  refine ⟨_, _, trace_path (World.serve refusal) _ (.initial 0), rfl, fun L h => ?_⟩
  exact absurd h.indices (by decide)

end ClawDesk.Runtime
