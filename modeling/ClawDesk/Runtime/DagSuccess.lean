import ClawDesk.Runtime.DagOrder

/-!
# When a pipeline has succeeded

A run keeps two accounts of what went wrong.  A step that ends with an error is put
on the list of errors, and the run is a success if that list is empty; and the result
of every step says whether the step succeeded.  They are not the same.

* A parallel step completes, also when some of its branches fail: its result says so,
  and the list of errors does not.
* A failed step with attempts left is put on the list of errors, and its result is
  popped.

Results are told apart at any depth by their own flag (`executeStep_coherent`), so the
accounts agree exactly if the steps that end with an error are matched by results that
say so (`success_accounted_iff`).
-/

namespace ClawDesk.Runtime

open Foundations (Prog Json)
open Foundations.Prog
open Agents

/-! ### Results at any depth -/

mutual

/-- The step and everything inside of it succeeded. -/
def succeeds : StepResult → Bool
  | ⟨_, success, _, _, _, subResults⟩ => success && allSucceed subResults

def allSucceed : List StepResult → Bool
  | [] => true
  | r :: rest => succeeds r && allSucceed rest

end

theorem allSucceed_append (rs rs' : List StepResult) :
    allSucceed (rs ++ rs') = (allSucceed rs && allSucceed rs') := by
  induction rs with
  | nil => rfl
  | cons r rs ih => rw [List.cons_append, allSucceed, allSucceed, ih, Bool.and_assoc]

/-- The flag of a result speaks for everything inside of it. -/
def Coherent (r : StepResult) : Prop := succeeds r = r.success

theorem coherent_leaf (stepIdx durationMs : ℕ) (success : Bool) (output : Json)
    (error : Option String) : Coherent ⟨stepIdx, success, output, durationMs, error, []⟩ := by
  show (success && true) = success
  exact Bool.and_true success

theorem allSucceed_of_coherent {rs : List StepResult} (h : ∀ r ∈ rs, Coherent r) :
    allSucceed rs = rs.all (·.success) := by
  induction rs with
  | nil => rfl
  | cons r rs ih =>
      rw [List.forall_mem_cons] at h
      rw [allSucceed, List.all_cons, h.1, ih h.2]

theorem coherent_parallel (stepIdx durationMs : ℕ) (output : Json) {rs : List StepResult}
    (h : ∀ r ∈ rs, Coherent r) :
    Coherent ⟨stepIdx, rs.all (·.success), output, durationMs, none, rs⟩ := by
  show (rs.all (·.success) && allSucceed rs) = rs.all (·.success)
  rw [allSucceed_of_coherent h, Bool.and_self]

/-- What is said about the results of a step execution. -/
def CoherentOutcome : WorkflowRun × Except RuntimeError StepExecution → Prop
  | (_, outcome) => ∀ result, outcome = .ok (.completed result) → Coherent result

theorem executeAgent_coherent (agentId : String) (timeoutSecs : ℕ) (run : WorkflowRun)
    (stepIdx : ℕ) (context : Json) :
    (executeAgent agentId timeoutSecs run stepIdx context).Ensures CoherentOutcome := by
  refine .ask fun registered => .ask ?_
  rintro (e | -)
  · exact nofun
  refine .ask ?_
  rintro (- | e | response)
  · exact nofun
  · exact nofun
  refine .ask fun durationMs => .ask fun now => .ask fun completedAt => ?_
  refine .bind (Prog.ensures_true _) ?_
  rintro (e | -) -
  · exact nofun
  · rintro result ⟨⟩
    exact coherent_leaf ..

theorem executeGate_coherent (prompt : String) (timeoutSecs : ℕ) (defaultAction : GateDefault)
    (run : WorkflowRun) (stepIdx : ℕ) :
    (executeGate prompt timeoutSecs defaultAction run stepIdx).Ensures CoherentOutcome := by
  refine .ask fun decidedAt => .bind (Prog.ensures_true _) ?_
  rintro (e | -) -
  · exact nofun
  cases defaultAction with
  | proceed =>
      rintro result ⟨⟩
      exact coherent_leaf ..
  | abort => exact nofun
  | skip => exact nofun

mutual

/-- **Every step execution returns a coherent result**, by induction on the step. -/
theorem executeStep_coherent : ∀ (step : PipelineStep) (run : WorkflowRun) (stepIdx : ℕ)
    (context : Json), (executeStep step run stepIdx context).Ensures CoherentOutcome
  | .agent agentId timeoutSecs, run, stepIdx, context => by
      rw [executeStep]
      exact executeAgent_coherent agentId timeoutSecs run stepIdx context
  | .gate prompt timeoutSecs defaultAction, run, stepIdx, _ => by
      rw [executeStep]
      exact executeGate_coherent prompt timeoutSecs defaultAction run stepIdx
  | .transform expression, run, stepIdx, context => by
      rw [executeStep]
      refine .ask fun durationMs => ?_
      rintro result ⟨⟩
      exact coherent_leaf ..
  | .parallel branches, run, stepIdx, context => by
      rw [executeStep]
      refine .bind (executeBranches_coherent branches 0 [] run context (by simp)) ?_
      rintro ⟨run', reason | subResults⟩ hsub
      · exact nofun
      · refine .ask fun durationMs => ?_
        rintro result ⟨⟩
        exact coherent_parallel stepIdx durationMs _ (hsub subResults rfl)
  | .router _ (some step), run, stepIdx, context => by
      rw [executeStep]
      exact executeStep_coherent step run stepIdx context
  | .router ((_, step) :: _) none, run, stepIdx, context => by
      rw [executeStep]
      exact executeStep_coherent step run stepIdx context
  | .router [] none, run, _, _ => by
      rw [executeStep]
      exact nofun

theorem executeBranches_coherent : ∀ (branches : List PipelineStep) (i : ℕ)
    (subResults : List StepResult) (run : WorkflowRun) (context : Json),
    (∀ r ∈ subResults, Coherent r) →
    (executeBranches branches i subResults run context).Ensures
      fun result => ∀ rs, result.2 = .ok rs → ∀ r ∈ rs, Coherent r
  | [], _, _, _, _, hsub => by
      rw [executeBranches]
      rintro rs ⟨⟩
      exact hsub
  | branch :: rest, i, subResults, run, context, hsub => by
      have hconcat {r : StepResult} (hr : Coherent r) : ∀ r' ∈ subResults ++ [r], Coherent r' := by
        intro r' hr'
        rcases List.mem_append.mp hr' with hr' | hr'
        · exact hsub r' hr'
        · exact List.mem_singleton.mp hr' ▸ hr
      rw [executeBranches]
      refine .bind (executeStep_coherent branch run i context) ?_
      rintro ⟨run', e | result | reason⟩ hresult
      · exact executeBranches_coherent rest (i + 1) _ run' context (hconcat (coherent_leaf ..))
      · exact executeBranches_coherent rest (i + 1) _ run' context (hconcat (hresult result rfl))
      · exact nofun

end

theorem timedStep_coherent (step : PipelineStep) (run : WorkflowRun) (stepIdx : ℕ)
    (context : Json) : (timedStep step run stepIdx context).Ensures
      fun result => ∀ r, result.2 = .completed r → Coherent r := by
  refine .bind (executeStep_coherent step run stepIdx context) ?_
  rintro ⟨run', e | result | reason⟩ hresult
  · exact fun _ => nofun
  · rintro r ⟨⟩
    exact hresult _ rfl
  · exact nofun

/-! ### The two accounts -/

/-- The step completed with a result that says that it failed. -/
def Execution.Unsuccessful (x : Execution) : Prop :=
  ∃ result, x.outcome = .completed result ∧ result.success = false

/-- The step failed with attempts left, as the loop counts them. -/
def Execution.Retried (policy : ErrorPolicy) (x : Execution) : Prop :=
  x.Failed ∧ ∃ maxAttempts backoffMs, policy = .retry maxAttempts backoffMs ∧
    x.run.attempt < maxAttempts % 2 ^ 32

/-- A result that says so is left by the failure of the step. -/
def Execution.LeavesFailure (policy : ErrorPolicy) (x : Execution) : Prop :=
  x.Unsuccessful ∨ (x.Failed ∧ ¬ x.Retried policy)

theorem leavesFailure_completed {policy : ErrorPolicy} {run : WorkflowRun} {stepIdx : ℕ}
    {result : StepResult} : Execution.LeavesFailure policy ⟨run, stepIdx, .completed result⟩ ↔
      result.success = false := by
  simp [Execution.LeavesFailure, Execution.Unsuccessful, Execution.Failed]

theorem leavesFailure_failed {policy : ErrorPolicy} {run : WorkflowRun} {stepIdx durationMs : ℕ}
    {error : String} : Execution.LeavesFailure policy ⟨run, stepIdx, .failed error durationMs⟩ ↔
      ¬ Execution.Retried policy ⟨run, stepIdx, .failed error durationMs⟩ := by
  simp [Execution.LeavesFailure, Execution.Unsuccessful, Execution.Failed]

section Loop

variable {policy : ErrorPolicy} {ex : DagExecutor}

/-- The executed result in a turn of the loop is coherent. -/
theorem Answered.coherent {a : Sigma DagOp.Res} {L : Path} {run run' : WorkflowRun}
    {step : PipelineStep} {stepIdx : ℕ} {context : Json} {result : StepResult}
    (h : Answered ex (a :: ⟨.step run step stepIdx context, (run', .completed result)⟩ :: L)) :
    Coherent result := by
  obtain ⟨l, htrace⟩ := h _ _ (.tail _ (.head _))
  exact (timedStep_coherent step run stepIdx context).of_trace htrace result rfl

/-- The errors that the loop adds are those of the steps that failed. -/
theorem errors_eq_nil_iff {steps : List (PipelineStep × ℕ)} {st st' : Progress} {L : Path}
    (h : (pipelineLoop policy steps st).Trace L (.ok st')) :
    st'.errors = [] ↔ st.errors = [] ∧ ∀ x ∈ executions L, ¬ x.Failed := by
  have hfailed {run : WorkflowRun} {stepIdx durationMs : ℕ} {error : String} :
      Execution.Failed ⟨run, stepIdx, .failed error durationMs⟩ := ⟨_, _, rfl⟩
  induction steps generalizing st L with
  | nil =>
      obtain ⟨rfl, hst⟩ := trace_ret.mp h
      obtain rfl := Except.ok.inj hst
      simp
  | cons head rest ih =>
      obtain ⟨step, stepIdx⟩ := head
      cases iteration_of_trace h with
      | suspended lease run reason tail => obtain ⟨-, ⟨err, ⟨⟩⟩, -⟩ := suspendRun_trace tail
      | completed lease run result tail =>
          refine (ih tail).trans ?_
          simp [Progress.complete, Execution.Failed]
      | stopped lease run error durationMs => simp [Progress.fail, hfailed]
      | continued lease run error durationMs continues tail =>
          refine (ih tail).trans ?_
          simp [Progress.fail, hfailed]
      | retried lease run error durationMs maxAttempts backoffMs saved retries left tail =>
          refine (ih tail).trans ?_
          simp [Progress.fail, Progress.retry, hfailed]

/-- The results that the loop adds say of the steps what is not retried. -/
theorem allSucceed_iff {steps : List (PipelineStep × ℕ)} {st st' : Progress} {L : Path}
    (h : (pipelineLoop policy steps st).Trace L (.ok st')) (answered : Answered ex L) :
    allSucceed st'.stepResults = true ↔
      allSucceed st.stepResults = true ∧ ∀ x ∈ executions L, ¬ x.LeavesFailure policy := by
  have hfailure {stepIdx durationMs : ℕ} {error : String} :
      allSucceed [StepResult.failure stepIdx durationMs error] = false := rfl
  induction steps generalizing st L with
  | nil =>
      obtain ⟨rfl, hst⟩ := trace_ret.mp h
      obtain rfl := Except.ok.inj hst
      simp
  | cons head rest ih =>
      obtain ⟨step, stepIdx⟩ := head
      cases iteration_of_trace h with
      | suspended lease run reason tail => obtain ⟨-, ⟨err, ⟨⟩⟩, -⟩ := suspendRun_trace tail
      | completed lease run result tail =>
          have hresult : allSucceed [result] = result.success := by
            rw [allSucceed, allSucceed, Bool.and_true]
            exact answered.coherent
          refine (ih tail (answered.drop 3)).trans ?_
          simp [Progress.complete, allSucceed_append, hresult, leavesFailure_completed, and_assoc]
      | stopped lease run error durationMs stops =>
          have hleaves :
              Execution.LeavesFailure policy ⟨run, stepIdx, .failed error durationMs⟩ := by
            rw [leavesFailure_failed]
            rintro ⟨-, maxAttempts, backoffMs, hpolicy, left⟩
            rcases stops with hfast | ⟨maxAttempts', backoffMs', hpolicy', exhausted⟩
            · cases hfast.symm.trans hpolicy
            · cases hpolicy.symm.trans hpolicy'
              exact exhausted left
          simp [Progress.fail, allSucceed_append, hfailure, hleaves]
      | continued lease run error durationMs continues tail =>
          have hleaves :
              Execution.LeavesFailure policy ⟨run, stepIdx, .failed error durationMs⟩ := by
            rw [leavesFailure_failed]
            rintro ⟨-, maxAttempts, backoffMs, hpolicy, -⟩
            cases continues.symm.trans hpolicy
          refine (ih tail (answered.drop 2)).trans ?_
          simp [Progress.fail, allSucceed_append, hfailure, hleaves]
      | retried lease run error durationMs maxAttempts backoffMs saved retries left tail =>
          have hretried : Execution.Retried policy ⟨run, stepIdx, .failed error durationMs⟩ :=
            ⟨⟨_, _, rfl⟩, maxAttempts, backoffMs, retries, left⟩
          refine (ih tail (answered.drop 4)).trans ?_
          simp [Progress.fail, Progress.retry, leavesFailure_failed, hretried]

end Loop

/-! ### The stored run -/

/-- The last version of the run that was saved. -/
def lastSaved : Path → Option WorkflowRun
  | [] => none
  | ⟨.saveRun run, _⟩ :: L => (lastSaved L).or (some run)
  | _ :: L => lastSaved L

theorem lastSaved_append (L L' : Path) :
    lastSaved (L ++ L') = (lastSaved L').or (lastSaved L) := by
  induction L with
  | nil => exact (Option.or_none).symm
  | cons a L ih =>
      obtain ⟨e, r⟩ := a
      cases e with
      | saveRun run =>
          show (lastSaved (L ++ L')).or _ = _
          rw [ih, Option.or_assoc]
          rfl
      | _ => exact ih

/-- The run is stored as completed. -/
def StoredCompleted (L : Path) : Prop :=
  ∃ run output, lastSaved L = some run ∧ run.state = .completed output

/-- The end of a run says the same in its result and in the store. -/
theorem finishRun_success {pipeline : AgentPipeline} {st : Progress} {L : Path}
    {result : PipelineResult} (before : Path) (h : (finishRun pipeline st).Trace L (.ok result)) :
    result.success = st.errors.isEmpty ∧ result.steps = st.stepResults ∧
      (StoredCompleted (before ++ L) ↔ result.success = true) := by
  obtain ⟨totalDurationMs, L₁, rfl, h₁⟩ := trace_op.mp h
  obtain ⟨now, L₂, rfl, h₂⟩ := trace_op.mp h₁
  obtain ⟨saved, L₃, rfl, h₃⟩ := trace_op.mp h₂
  cases saved with
  | error err => cases (trace_ret.mp h₃).2
  | ok _ =>
      obtain ⟨released, L₄, rfl, h₄⟩ := trace_op.mp h₃
      obtain ⟨rfl, hresult⟩ := trace_ret.mp h₄
      obtain rfl := Except.ok.inj hresult
      refine ⟨rfl, rfl, ?_⟩
      have hlast (run : WorkflowRun) : lastSaved (before ++ [⟨.elapsedMs, totalDurationMs⟩,
          ⟨.clock, now⟩, ⟨.saveRun run, .ok ()⟩, ⟨.release st.run.id st.fence, released⟩]) =
          some run := by
        rw [lastSaved_append]
        rfl
      unfold StoredCompleted
      rw [hlast]
      cases st.errors.isEmpty <;> simp

/-! ### The accounts agree -/

/-- The result and the stored run are a success exactly if every step succeeded, and
everything inside of it. -/
structure SuccessAccounted (L : Path) (result : PipelineResult) : Prop where
  returned : result.success = true ↔ allSucceed result.steps = true
  stored : StoredCompleted L ↔ allSucceed result.steps = true

/-- **A run is a success exactly if all of its steps are, precisely if** either no step
ends with an error and all results are successes, or some step does and some result says
so. -/
theorem success_accounted_iff {ex : DagExecutor} {pipeline : AgentPipeline}
    {retryPolicy : RetryPolicy} {L : Path} {result : PipelineResult}
    (h : (ex.executeWith pipeline retryPolicy).Trace L (.ok result)) (answered : Answered ex L)
    (fresh : StartsFresh L) :
    SuccessAccounted L result ↔ ((∃ x ∈ executions L, x.Failed) ↔
      ∃ x ∈ executions L, x.LeavesFailure pipeline.errorPolicy) := by
  obtain ⟨-, -, err, ⟨⟩⟩ | ⟨L₁, L₂, run, fence, rfl, hexec, -, -, hrun⟩ :=
    trace_executeWith h fresh
  obtain ⟨L', L₃, looped, rfl, hloop, hfinish⟩ := trace_bind.mp hrun
  cases looped with
  | error err => cases (trace_ret.mp hfinish).2
  | ok st' =>
      have hanswered : Answered ex L' := fun e r hmem =>
        answered e r (List.mem_append_right _ (List.mem_append_left _ hmem))
      obtain ⟨hsuccess, hsteps, hstored⟩ := finishRun_success (L₁ ++ L') hfinish
      rw [List.append_assoc] at hstored
      have hexecutions : executions (L₁ ++ (L' ++ L₃)) = executions L' := by
        simp [executions_append, hexec, (trace_finishRun hfinish).1]
      have herrors : result.success = true ↔ ¬ ∃ x ∈ executions L', x.Failed := by
        rw [hsuccess, List.isEmpty_iff, errors_eq_nil_iff hloop]
        simp
      have hresults : allSucceed result.steps = true ↔
          ¬ ∃ x ∈ executions L', x.LeavesFailure pipeline.errorPolicy := by
        rw [hsteps, allSucceed_iff hloop hanswered]
        simp [allSucceed]
      rw [hexecutions]
      constructor
      · intro haccounted
        exact not_iff_not.mp ((herrors.symm.trans haccounted.returned).trans hresults)
      · intro hiff
        have hresult := (herrors.trans (not_congr hiff)).trans hresults.symm
        exact ⟨hresult, hstored.trans hresult⟩

/-- The path of a pipeline in a world in which nothing but the agents fails, and its
result. -/
def refusedPath (pipeline : AgentPipeline) : Path :=
  (soleExecutor.executeWith pipeline .defaultPipeline).path (soleExecutor.serve refusal)
    (.initial 0)

def refusedResult (pipeline : AgentPipeline) : Except RuntimeError PipelineResult :=
  ((soleExecutor.executeWith pipeline .defaultPipeline).eval (soleExecutor.serve refusal)
    (.initial 0)).1

/-- Two branches, of which the first fails. -/
def failingBranch : AgentPipeline where
  steps := [.parallel [.agent "writer" 30, .transform "done"]]
  errorPolicy := .failFast
  name := "draft"

theorem success_accounted_failFast : ∃ result,
    refusedResult (failingFirst .failFast) = .ok result ∧ result.success = false ∧
      SuccessAccounted (refusedPath (failingFirst .failFast)) result := by
  refine ⟨_, rfl, rfl, (success_accounted_iff (trace_path _ _ _) (answered_path _ _ _ _)
    (startsFresh_of_any rfl)).mpr (iff_of_true ?_ ?_)⟩
  · exact ⟨_, .head _, _, _, rfl⟩
  · refine ⟨_, .head _, .inr ⟨⟨_, _, rfl⟩, ?_⟩⟩
    rintro ⟨-, maxAttempts, backoffMs, ⟨⟩, -⟩

/-- A parallel step with a failed branch makes a run that is a success, and a failed
step with attempts left makes one that is none, although all its results are. -/
theorem success_unaccounted :
    (∃ result, (soleExecutor.executeWith failingBranch .defaultPipeline).Trace
        (refusedPath failingBranch) (.ok result) ∧
      StartsFresh (refusedPath failingBranch) ∧
      result.success = true ∧ ¬ SuccessAccounted (refusedPath failingBranch) result) ∧
    ∃ result, (soleExecutor.executeWith (failingFirst (.retry 3 100)) .defaultPipeline).Trace
        (refusedPath (failingFirst (.retry 3 100))) (.ok result) ∧
      StartsFresh (refusedPath (failingFirst (.retry 3 100))) ∧
      result.success = false ∧
      ¬ SuccessAccounted (refusedPath (failingFirst (.retry 3 100))) result := by
  refine ⟨⟨_, trace_path _ _ _, startsFresh_of_any rfl, rfl, fun h => ?_⟩,
    ⟨_, trace_path _ _ _, startsFresh_of_any rfl, rfl, fun h => ?_⟩⟩
  · exact absurd (h.returned.mp rfl) (by decide)
  · exact absurd (h.returned.mpr rfl) (by decide)

end ClawDesk.Runtime
