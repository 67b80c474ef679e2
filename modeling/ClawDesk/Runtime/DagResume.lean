import ClawDesk.Runtime.DagOrder

/-!
# Resuming a pipeline from a checkpoint

A checkpoint is handed to the store after a completed step, at a gate, and before
a retry.  The first two record the results of the steps before their position and
the output of the last one that completed, so that the loop can go on from there
(`same_end`).  The third is taken before the failed result is popped: it lists
the step it stands at as one already done (`failed_result_saved`).
-/

namespace ClawDesk.Runtime

open Foundations (Prog Json)
open Foundations.Prog
open Agents

/-! ### What a checkpoint should record -/

/-- The result that an execution leaves. -/
def Execution.result : Execution → Option StepResult
  | ⟨_, _, .completed result⟩ => some result
  | ⟨_, stepIdx, .failed error durationMs⟩ => some (StepResult.failure stepIdx durationMs error)
  | ⟨_, _, .suspended _⟩ => none

/-- The context after some executions: the output of the last one that completed. -/
def outputAfter : List Execution → Json → Json
  | [], context => context
  | ⟨_, _, .completed result⟩ :: rest, _ => outputAfter rest result.output
  | _ :: rest, context => outputAfter rest context

/-- Wherever both execute a step, it ends the same way. -/
def SameOutcomes (L L' : Path) : Prop :=
  ∀ x ∈ executions L, ∀ y ∈ executions L', x.stepIdx = y.stepIdx → x.outcome = y.outcome

/-- The outcomes of the first two executions agree if they are of the same step… -/
theorem SameOutcomes.head {L L' : Path} {x y : Execution} {xs ys : List Execution}
    (same : SameOutcomes L L') (hx : executions L = x :: xs) (hy : executions L' = y :: ys)
    (hindex : x.stepIdx = y.stepIdx) : x.outcome = y.outcome :=
  same x (by simp [hx]) y (by simp [hy]) hindex

/-- …and agreement is inherited by what is left. -/
theorem SameOutcomes.mono {L L' M M' : Path} (same : SameOutcomes L L')
    (h : executions M ⊆ executions L) (h' : executions M' ⊆ executions L') : SameOutcomes M M' :=
  fun x hx y hy => same x (h hx) y (h' hy)

/-- The run can go on from a checkpoint as if it had not been interrupted. -/
structure Resumable (ex : DagExecutor) (pipeline : AgentPipeline) (L : Path)
    (res : Except RuntimeError PipelineResult) (stepIndex : ℕ) (stepResults : List StepResult)
    (context : Json) : Prop where
  /-- The results are those of the steps before the position… -/
  indices : stepResults.map (·.stepIndex) = List.range stepIndex
  results : stepResults = ((executions L).take stepIndex).filterMap Execution.result
  /-- …the context is the output of the last one that completed… -/
  output : context = outputAfter ((executions L).take stepIndex) .null
  /-- …and the loop run from there ends with the same results and output. -/
  resumes : ∀ {run fence L' result result'}, 1 ≤ run.attempt →
    (runFrom pipeline run fence stepIndex stepResults context).Trace L' (.ok result') →
      Answered ex L' → SameOutcomes L L' → res = .ok result →
        result'.steps = result.steps ∧ result'.finalOutput = result.finalOutput

/-- What the loop has recorded before step `k`. -/
structure Recorded (before : List Execution) (st : Progress) (k : ℕ) : Prop where
  count : before.length = k
  indices : st.stepResults.map (·.stepIndex) = List.range k
  results : st.stepResults = before.filterMap Execution.result
  context : st.context = outputAfter before .null

theorem outputAfter_append (xs ys : List Execution) (context : Json) :
    outputAfter (xs ++ ys) context = outputAfter ys (outputAfter xs context) := by
  induction xs generalizing context with
  | nil => rfl
  | cons x xs ih =>
      obtain ⟨run, stepIdx, outcome⟩ := x
      cases outcome with
      | completed result | suspended reason | failed error durationMs => exact ih _

theorem Recorded.complete {before : List Execution} {st : Progress} {k : ℕ}
    (h : Recorded before st k) {run : WorkflowRun} {fence : ℕ} {result : StepResult}
    (hindex : result.stepIndex = k) :
    Recorded (before ++ [⟨run, k, .completed result⟩]) (st.complete run fence result) (k + 1) where
  count := by simp [h.count]
  indices := by simp [Progress.complete, h.indices, hindex, List.range_succ]
  results := by simp [Progress.complete, h.results, Execution.result]
  context := by simp [Progress.complete, outputAfter_append, outputAfter]

theorem Recorded.fail {before : List Execution} {st : Progress} {k : ℕ}
    (h : Recorded before st k) (run : WorkflowRun) (fence durationMs : ℕ) (error : String) :
    Recorded (before ++ [⟨run, k, .failed error durationMs⟩])
      (st.fail run fence k durationMs error) (k + 1) where
  count := by simp [h.count]
  indices := by simp [Progress.fail, h.indices, StepResult.failure, List.range_succ]
  results := by simp [Progress.fail, h.results, Execution.result]
  context := by simp [Progress.fail, outputAfter_append, outputAfter, h.context]

/-- The head of the remaining steps is the one at the position. -/
theorem stepsFrom_eq_cons {pipeline : AgentPipeline} {k stepIdx : ℕ} {step : PipelineStep}
    {rest : List (PipelineStep × ℕ)} (h : stepsFrom pipeline k = (step, stepIdx) :: rest) :
    stepIdx = k ∧ stepsFrom pipeline (k + 1) = rest := by
  constructor
  · have hget : (stepsFrom pipeline k)[0]? = some (step, stepIdx) := by rw [h]; rfl
    have : pipeline.steps[k]? = some step ∧ k = stepIdx := by
      simpa [stepsFrom, List.getElem?_zipIdx] using hget
    exact this.2.symm
  · simpa [stepsFrom] using congrArg List.tail h

/-! ### The positions of a run -/

/-- The loop stood at step `k`, in the state that `checkpoint` records, and went
on from there along `L`. -/
def StoodAt (ex : DagExecutor) (pipeline : AgentPipeline) (attempt : ℕ) (all : List Execution)
    (res : Except RuntimeError Progress) (checkpoint : Checkpoint) : Prop :=
  ∃ k st before L, checkpoint = .pipelineStep k st.stepResults st.context ∧
    Recorded before st k ∧ all = before ++ executions L ∧ st.run.attempt = attempt ∧
    Answered ex L ∧ NoRetry pipeline.errorPolicy L ∧
    ∀ st', res = .ok st' →
      (pipelineLoop pipeline.errorPolicy (stepsFrom pipeline k) st).Trace L res

section Loop

variable {pipeline : AgentPipeline} {ex : DagExecutor}

/-- **Without retries, every checkpoint records a position of the run.** -/
theorem stoodAt_of_mem_checkpoints {steps : List (PipelineStep × ℕ)} {k : ℕ} {st : Progress}
    {before : List Execution} {L : Path} {res : Except RuntimeError Progress}
    (hsteps : stepsFrom pipeline k = steps)
    (h : (pipelineLoop pipeline.errorPolicy steps st).Trace L res) (answered : Answered ex L)
    (noRetry : NoRetry pipeline.errorPolicy L) (recorded : Recorded before st k) :
    ∀ cp ∈ checkpoints L,
      StoodAt ex pipeline st.run.attempt (before ++ executions L) res cp := by
  induction steps generalizing k st before L with
  | nil =>
      obtain ⟨rfl, -⟩ := trace_ret.mp h
      simp
  | cons head rest ih =>
      obtain ⟨step, stepIdx⟩ := head
      obtain ⟨rfl, hrest⟩ := stepsFrom_eq_cons hsteps
      cases iteration_of_trace h with
      | lost => simp
      | stopped => simp
      | unsaved lease run result err =>
          have hrun : run.attempt = st.run.attempt := answered.turn.1
          have hindex := (answered.turn.2 result rfl).1
          intro cp hcp
          obtain rfl : cp = .pipelineStep (stepIdx + 1) (st.stepResults ++ [result])
              result.output := by simpa using hcp
          exact ⟨stepIdx + 1, st.complete run lease.fenceToken result, _, [], rfl,
            recorded.complete hindex, by simp, hrun, answered.drop 3, noRetry.mono (by simp),
            fun _ h => nomatch h⟩
      | suspended lease run reason tail =>
          obtain ⟨-, ⟨err, rfl⟩, hsaved⟩ := suspendRun_trace tail
          intro cp hcp
          obtain rfl := hsaved cp (by simpa using hcp)
          exact ⟨stepIdx, st, before, _, rfl, recorded, rfl, rfl, answered, noRetry,
            fun _ h => nomatch h⟩
      | completed lease run result tail =>
          have hrun : run.attempt = st.run.attempt := answered.turn.1
          have hindex := (answered.turn.2 result rfl).1
          have recorded' : Recorded _ (st.complete run lease.fenceToken result) _ :=
            recorded.complete hindex
          intro cp hcp
          rcases List.mem_cons.mp (by simpa using hcp) with rfl | hcp
          · rw [← hrest] at tail
            refine ⟨stepIdx + 1, _, _, _, rfl, recorded', ?_, hrun, answered.drop 3,
              noRetry.mono (by simp), fun _ _ => tail⟩
            simp
          · have := ih hrest tail (answered.drop 3) (noRetry.mono (by simp)) recorded' cp hcp
            simpa [hrun, Progress.complete] using this
      | continued lease run error durationMs continues tail =>
          have hrun : run.attempt = st.run.attempt := answered.turn.1
          have := ih hrest tail (answered.drop 2) (noRetry.mono (by simp)) (recorded.fail run _ _ _)
          simpa [hrun, Progress.fail] using this
      | retried lease run error durationMs maxAttempts backoffMs saved retries left tail =>
          exact absurd left (noRetry _ _ retries ⟨run, stepIdx, .failed error durationMs⟩
            (by simp) ⟨_, _, rfl⟩)

/-- **Two runs of the loop from the same position in which every step ends the same
way end with the same results and the same context.** -/
theorem same_end {policy : ErrorPolicy} {steps : List (PipelineStep × ℕ)}
    {st₁ st₂ st₁' st₂' : Progress} {L₁ L₂ : Path}
    (h₁ : (pipelineLoop policy steps st₁).Trace L₁ (.ok st₁'))
    (h₂ : (pipelineLoop policy steps st₂).Trace L₂ (.ok st₂'))
    (answered₁ : Answered ex L₁) (answered₂ : Answered ex L₂) (noRetry : NoRetry policy L₁)
    (hattempt : st₁.run.attempt ≤ st₂.run.attempt)
    (hresults : st₁.stepResults = st₂.stepResults) (hcontext : st₁.context = st₂.context)
    (same : SameOutcomes L₁ L₂) :
    st₁'.stepResults = st₂'.stepResults ∧ st₁'.context = st₂'.context := by
  induction steps generalizing st₁ st₂ L₁ L₂ with
  | nil =>
      obtain ⟨-, hst₁⟩ := trace_ret.mp h₁
      obtain ⟨-, hst₂⟩ := trace_ret.mp h₂
      rw [← Except.ok.inj hst₁, ← Except.ok.inj hst₂]
      exact ⟨hresults, hcontext⟩
  | cons head rest ih =>
      obtain ⟨step, stepIdx⟩ := head
      cases iteration_of_trace h₁ with
      | suspended lease run reason tail => obtain ⟨-, ⟨err, ⟨⟩⟩, -⟩ := suspendRun_trace tail
      | retried lease run error durationMs maxAttempts backoffMs saved retries left tail =>
          exact absurd left (noRetry _ _ retries ⟨run, stepIdx, .failed error durationMs⟩
            (by simp) ⟨_, _, rfl⟩)
      | completed lease₁ run₁ result₁ tail₁ =>
          have hrun₁ : run₁.attempt = st₁.run.attempt := answered₁.turn.1
          cases iteration_of_trace h₂ with
          | suspended lease run reason tail => obtain ⟨-, ⟨err, ⟨⟩⟩, -⟩ := suspendRun_trace tail
          | completed lease₂ run₂ result₂ tail₂ =>
              have hrun₂ : run₂.attempt = st₂.run.attempt := answered₂.turn.1
              obtain rfl : result₁ = result₂ := by
                simpa using same.head rfl rfl rfl
              refine ih tail₁ tail₂ (answered₁.drop 3) (answered₂.drop 3)
                (noRetry.mono (by simp)) ?_ ?_ rfl (same.mono (by simp) (by simp))
              · simpa [Progress.complete, hrun₁, hrun₂] using hattempt
              · simp [Progress.complete, hresults]
          | stopped | continued | retried => cases same.head rfl rfl rfl
      | stopped lease₁ run₁ error₁ durationMs₁ stops =>
          have hrun₁ : run₁.attempt = st₁.run.attempt := answered₁.turn.1
          cases iteration_of_trace h₂ with
          | suspended lease run reason tail => obtain ⟨-, ⟨err, ⟨⟩⟩, -⟩ := suspendRun_trace tail
          | completed => cases same.head rfl rfl rfl
          | stopped lease₂ run₂ error₂ durationMs₂ =>
              obtain ⟨rfl, rfl⟩ : error₁ = error₂ ∧ durationMs₁ = durationMs₂ := by
                simpa using same.head rfl rfl rfl
              simp [Progress.fail, hresults, hcontext]
          | continued lease₂ run₂ error₂ durationMs₂ continues =>
              obtain rfl | ⟨_, _, rfl, -⟩ := stops <;> cases continues
          | retried lease₂ run₂ error₂ durationMs₂ maxAttempts backoffMs saved retries left =>
              -- The second run has made at least as many attempts as the first.
              have hrun₂ : run₂.attempt = st₂.run.attempt := answered₂.turn.1
              obtain rfl | ⟨_, _, rfl, stops⟩ := stops <;> cases retries
              exact absurd (by omega) stops
      | continued lease₁ run₁ error₁ durationMs₁ continues tail₁ =>
          have hrun₁ : run₁.attempt = st₁.run.attempt := answered₁.turn.1
          subst continues
          cases iteration_of_trace h₂ with
          | suspended lease run reason tail => obtain ⟨-, ⟨err, ⟨⟩⟩, -⟩ := suspendRun_trace tail
          | completed => cases same.head rfl rfl rfl
          | stopped lease₂ run₂ error₂ durationMs₂ stops =>
              obtain ⟨⟨⟩⟩ | ⟨_, _, ⟨⟩, -⟩ := stops
          | continued lease₂ run₂ error₂ durationMs₂ _ tail₂ =>
              have hrun₂ : run₂.attempt = st₂.run.attempt := answered₂.turn.1
              obtain ⟨rfl, rfl⟩ : error₁ = error₂ ∧ durationMs₁ = durationMs₂ := by
                simpa using same.head rfl rfl rfl
              refine ih tail₁ tail₂ (answered₁.drop 2) (answered₂.drop 2)
                (noRetry.mono (by simp)) ?_ ?_ hcontext (same.mono (by simp) (by simp))
              · simpa [Progress.fail, hrun₁, hrun₂] using hattempt
              · simp [Progress.fail, hresults]
          | retried lease₂ run₂ error₂ durationMs₂ _ _ _ retries => cases retries

/-- A retry saves the failed result as that of a step already done. -/
theorem failed_result_saved {maxAttempts backoffMs : ℕ} {steps : List (PipelineStep × ℕ)} {k : ℕ}
    {st : Progress} {before : List Execution} {L : Path} {res : Except RuntimeError Progress}
    (hsteps : stepsFrom pipeline k = steps)
    (h : (pipelineLoop (.retry maxAttempts backoffMs) steps st).Trace L res)
    (answered : Answered ex L) (recorded : Recorded before st k)
    (left : st.run.attempt < maxAttempts % 2 ^ 32) (hfailed : ∃ x ∈ executions L, x.Failed) :
    ∃ stepIndex stepResults context, .pipelineStep stepIndex stepResults context ∈ checkpoints L ∧
      stepResults.length = stepIndex + 1 := by
  induction steps generalizing k st before L with
  | nil =>
      obtain ⟨rfl, -⟩ := trace_ret.mp h
      simp at hfailed
  | cons head rest ih =>
      obtain ⟨step, stepIdx⟩ := head
      obtain ⟨rfl, hrest⟩ := stepsFrom_eq_cons hsteps
      cases iteration_of_trace h with
      | lost => simp at hfailed
      | unsaved => simp [Execution.Failed] at hfailed
      | suspended lease run reason tail =>
          simp [(suspendRun_trace tail).1, Execution.Failed] at hfailed
      | stopped lease run error durationMs stops =>
          have hrun : run.attempt = st.run.attempt := answered.turn.1
          obtain ⟨⟨⟩⟩ | ⟨_, _, ⟨⟩, exhausted⟩ := stops
          exact absurd (hrun ▸ left) exhausted
      | continued lease run error durationMs continues tail => cases continues
      | completed lease run result tail =>
          have hrun : run.attempt = st.run.attempt := answered.turn.1
          have hindex := (answered.turn.2 result rfl).1
          obtain ⟨stepIndex, stepResults, context, hmem, hlen⟩ :=
            ih hrest tail (answered.drop 3) (recorded.complete hindex)
              (by simpa [Progress.complete, hrun] using left)
              (by simpa [Execution.Failed] using hfailed)
          exact ⟨stepIndex, stepResults, context, by simp [hmem], hlen⟩
      | retried lease run error durationMs _ _ saved retries left' tail =>
          have hlen : st.stepResults.length = stepIdx := by
            simpa using congrArg List.length recorded.indices
          exact ⟨stepIdx, _, _, by simp; exact .inl ⟨rfl, rfl⟩, by simp [hlen]⟩

end Loop

/-! ### Every checkpoint can be resumed from -/

/-- A step fails, and the loop gives it another attempt. -/
def RetryTaken (policy : ErrorPolicy) (L : Path) : Prop :=
  ∃ maxAttempts backoffMs, policy = .retry maxAttempts backoffMs ∧ 1 < maxAttempts % 2 ^ 32 ∧
    ∃ x ∈ executions L, x.Failed

theorem recorded_start (run : WorkflowRun) (fence : ℕ) :
    Recorded [] ⟨run, fence, [], .null, []⟩ 0 := ⟨rfl, rfl, rfl, rfl⟩

/-- A position that the loop stood at is one it can go on from. -/
theorem StoodAt.resumable {ex : DagExecutor} {pipeline : AgentPipeline} {L : Path}
    {looped : Except RuntimeError Progress} {res : Except RuntimeError PipelineResult}
    {stepIndex : ℕ} {stepResults : List StepResult} {context : Json}
    (h : StoodAt ex pipeline 1 (executions L) looped (.pipelineStep stepIndex stepResults context))
    (hresult : ∀ result, res = .ok result → ∃ st, looped = .ok st ∧
      result.steps = st.stepResults ∧ result.finalOutput = st.context) :
    Resumable ex pipeline L res stepIndex stepResults context := by
  obtain ⟨k, st, before, L₁, hcp, recorded, hall, hattempt, answered, noRetry, htail⟩ := h
  obtain ⟨rfl, rfl, rfl⟩ := Checkpoint.pipelineStep.inj hcp
  have htake : (executions L).take stepIndex = before := by
    rw [hall, ← recorded.count, List.take_left]
  refine ⟨recorded.indices, ?_, ?_, ?_⟩
  · rw [htake, recorded.results]
  · rw [htake, recorded.context]
  · intro run fence L' result result' hrun hresumed answered' same hok
    obtain ⟨st₁, rfl, hsteps, hfinal⟩ := hresult result hok
    obtain ⟨L₂, L₃, looped', rfl, hexec, -, hloop, hresult'⟩ := trace_runFrom hresumed
    obtain ⟨st₂, rfl, hsteps', hfinal'⟩ := hresult' result' rfl
    have hanswered₂ : Answered ex L₂ := fun e r hmem => answered' e r (List.mem_append_left _ hmem)
    obtain ⟨heq, hctx⟩ := same_end (htail st₁ rfl) hloop answered hanswered₂ noRetry
      (hattempt.trans_le hrun) rfl rfl
      (same.mono (by simp [hall]) (by simp [executions_append]))
    exact ⟨by rw [hsteps, hsteps', heq], by rw [hfinal, hfinal', hctx]⟩

/-- **Every checkpoint can be resumed from exactly when no step is retried.** -/
theorem checkpoints_resumable_iff {ex : DagExecutor} {pipeline : AgentPipeline}
    {retryPolicy : RetryPolicy} {L : Path} {res : Except RuntimeError PipelineResult}
    (h : (ex.executeWith pipeline retryPolicy).Trace L res) (answered : Answered ex L)
    (fresh : StartsFresh L) :
    (∀ stepIndex stepResults context,
      .pipelineStep stepIndex stepResults context ∈ checkpoints L →
        Resumable ex pipeline L res stepIndex stepResults context) ↔
      ¬ RetryTaken pipeline.errorPolicy L := by
  obtain ⟨hexec, hsaved, -⟩ | ⟨L₁, L₂, run, fence, rfl, hexec, hsaved, hattempt, hrun⟩ :=
    trace_executeWith h fresh
  · simp [hsaved, hexec, RetryTaken]
  obtain ⟨L', L₃, looped, rfl, hexec', hsaved', hloop, hresult⟩ := trace_runFrom hrun
  have hanswered : Answered ex L' := fun e r hmem =>
    answered e r (List.mem_append_right _ (List.mem_append_left _ hmem))
  have hexecs : executions (L₁ ++ (L' ++ L₃)) = executions L' := by
    simp [executions_append, hexec, hexec']
  have hcps : checkpoints (L₁ ++ (L' ++ L₃)) = checkpoints L' := by
    simp [checkpoints_append, hsaved, hsaved']
  rw [hcps]
  constructor
  · rintro hall ⟨maxAttempts, backoffMs, hpolicy, hleft, hfailed⟩
    rw [hpolicy] at hloop
    obtain ⟨stepIndex, stepResults, context, hmem, hlen⟩ :=
      failed_result_saved rfl hloop hanswered (recorded_start run fence)
        (hattempt ▸ hleft) (hexecs ▸ hfailed)
    have := congrArg List.length (hall _ _ _ hmem).indices
    simp [hlen] at this
  · intro hnever stepIndex stepResults context hmem
    have noRetry : NoRetry pipeline.errorPolicy L' := by
      intro maxAttempts backoffMs hpolicy x hx hfailed hleft
      have hx1 : 1 ≤ x.run.attempt := hattempt ▸ attempt_le hloop hanswered x hx
      exact hnever ⟨maxAttempts, backoffMs, hpolicy, by omega, x, hexecs ▸ hx, hfailed⟩
    have hstood :=
      stoodAt_of_mem_checkpoints rfl hloop hanswered noRetry (recorded_start run fence) _ hmem
    rw [hattempt, List.nil_append, ← hexecs] at hstood
    exact hstood.resumable hresult

/-- A failure that the pipeline goes on after: the checkpoint behind the second
step lists both results. -/
theorem checkpoints_resumable_iff_continueOnError :
    ∃ stepResults context,
      .pipelineStep 2 stepResults context ∈ checkpoints (failingPath .continueOnError) ∧
        Resumable soleExecutor (failingFirst .continueOnError) (failingPath .continueOnError)
          (failingResult .continueOnError) 2 stepResults context := by
  have hmem : ∃ stepResults context,
      .pipelineStep 2 stepResults context ∈ checkpoints (failingPath .continueOnError) :=
    ⟨_, _, .head _⟩
  obtain ⟨stepResults, context, hmem⟩ := hmem
  refine ⟨stepResults, context, hmem, (checkpoints_resumable_iff
    (trace_failingPath .continueOnError) (answered_failingPath _)
    (startsFresh_of_any rfl)).mpr ?_ _ _ _ hmem⟩
  rintro ⟨maxAttempts, backoffMs, ⟨⟩, -⟩

/-- With three attempts per step, the checkpoint saved when the first step fails
stands at that step and lists its failed result. -/
theorem failed_step_listed :
    ∃ L res stepResults context,
      (soleExecutor.executeWith (failingFirst (.retry 3 100)) .defaultPipeline).Trace L res ∧
      Answered soleExecutor L ∧ StartsFresh L ∧
      .pipelineStep 0 stepResults context ∈ checkpoints L ∧
      stepResults.map (·.stepIndex) = [0] ∧
      ¬ Resumable soleExecutor (failingFirst (.retry 3 100)) L res 0 stepResults context := by
  refine ⟨failingPath (.retry 3 100), _, _, _, trace_failingPath _, answered_failingPath _,
    startsFresh_of_any rfl, .head _, rfl, fun h => ?_⟩
  exact absurd h.indices (by decide)

end ClawDesk.Runtime
