import ClawDesk.Runtime.Dag

/-!
# Paths of the pipeline executor

A path is a list of operations of the executor's collaborators with their
answers; every failure of a collaborator is on some path.  `Iteration` lists what
one turn of the step loop can do, and everything about the loop is an induction
over it.  `executions` and `checkpoints` pick out of a path the step executions
and the checkpoints that were saved.
-/

namespace ClawDesk.Runtime

open Foundations (Prog Json)
open Foundations.Prog
open Agents

/-- A path of the executor: the operations asked of its collaborators, and their
answers. -/
abbrev Path : Type := List (Sigma DagOp.Res)

/-! ### One turn of the loop -/

section Iteration

variable (policy : ErrorPolicy) (step : PipelineStep) (stepIdx : ℕ)
  (rest : List (PipelineStep × ℕ)) (st : Progress)

/-- What one turn of the loop can do. -/
inductive Iteration : Path → Except RuntimeError Progress → Prop
  /-- The lease could not be renewed. -/
  | lost (err : RuntimeError) :
      Iteration [⟨.renew st.run.id st.fence, .error err⟩] (.error err)
  | completed (lease : Lease) (run : WorkflowRun) (result : StepResult) {L : Path}
      {res : Except RuntimeError Progress}
      (tail : (pipelineLoop policy rest
        (st.complete run lease.fenceToken result)).Trace L res) :
      Iteration (⟨.renew st.run.id st.fence, .ok lease⟩ ::
        ⟨.step st.run step stepIdx st.context, (run, .completed result)⟩ ::
        ⟨.saveCheckpoint run.id (.pipelineStep (stepIdx + 1) (st.stepResults ++ [result])
          result.output), .ok ()⟩ :: L) res
  /-- The checkpoint after a completed step could not be saved. -/
  | unsaved (lease : Lease) (run : WorkflowRun) (result : StepResult) (err : RuntimeError) :
      Iteration [⟨.renew st.run.id st.fence, .ok lease⟩,
        ⟨.step st.run step stepIdx st.context, (run, .completed result)⟩,
        ⟨.saveCheckpoint run.id (.pipelineStep (stepIdx + 1) (st.stepResults ++ [result])
          result.output), .error err⟩] (.error err)
  | suspended (lease : Lease) (run : WorkflowRun) (reason : SuspendReason) {L : Path}
      {res : Except RuntimeError Progress}
      (tail : (suspendRun { st with run := run, fence := lease.fenceToken } stepIdx
        reason).Trace L res) :
      Iteration (⟨.renew st.run.id st.fence, .ok lease⟩ ::
        ⟨.step st.run step stepIdx st.context, (run, .suspended reason)⟩ :: L) res
  /-- The step failed and the loop ends. -/
  | stopped (lease : Lease) (run : WorkflowRun) (error : String) (durationMs : ℕ)
      (stops : policy = .failFast ∨ ∃ maxAttempts backoffMs,
        policy = .retry maxAttempts backoffMs ∧ ¬ run.attempt < maxAttempts % 2 ^ 32) :
      Iteration [⟨.renew st.run.id st.fence, .ok lease⟩,
        ⟨.step st.run step stepIdx st.context, (run, .failed error durationMs)⟩]
        (.ok (st.fail run lease.fenceToken stepIdx durationMs error))
  /-- The step failed and the loop goes on with the next. -/
  | continued (lease : Lease) (run : WorkflowRun) (error : String) (durationMs : ℕ) {L : Path}
      {res : Except RuntimeError Progress} (continues : policy = .continueOnError)
      (tail : (pipelineLoop policy rest
        (st.fail run lease.fenceToken stepIdx durationMs error)).Trace L res) :
      Iteration (⟨.renew st.run.id st.fence, .ok lease⟩ ::
        ⟨.step st.run step stepIdx st.context, (run, .failed error durationMs)⟩ :: L) res
  /-- The step failed with attempts left, and the loop goes on with the next. -/
  | retried (lease : Lease) (run : WorkflowRun) (error : String) (durationMs : ℕ)
      (maxAttempts backoffMs : ℕ) (saved : Except RuntimeError Unit) {L : Path}
      {res : Except RuntimeError Progress} (retries : policy = .retry maxAttempts backoffMs)
      (left : run.attempt < maxAttempts % 2 ^ 32)
      (tail : (pipelineLoop policy rest
        (st.fail run lease.fenceToken stepIdx durationMs error).retry).Trace L res) :
      Iteration (⟨.renew st.run.id st.fence, .ok lease⟩ ::
        ⟨.step st.run step stepIdx st.context, (run, .failed error durationMs)⟩ ::
        ⟨.sleep (retryDelay backoffMs (run.attempt + 1)), ()⟩ ::
        ⟨.saveCheckpoint run.id (.pipelineStep stepIdx
          (st.stepResults ++ [StepResult.failure stepIdx durationMs error]) st.context),
          saved⟩ :: L) res

variable {policy step stepIdx rest st}

/-- **There is nothing else a turn of the loop can do.** -/
theorem iteration_of_trace {L : Path} {res : Except RuntimeError Progress}
    (h : (pipelineLoop policy ((step, stepIdx) :: rest) st).Trace L res) :
    Iteration policy step stepIdx rest st L res := by
  obtain ⟨renewed, L₁, rfl, h₁⟩ := trace_op.mp h
  cases renewed with
  | error err =>
      obtain ⟨rfl, rfl⟩ := trace_ret.mp h₁
      exact .lost err
  | ok lease =>
      obtain ⟨⟨run, outcome⟩, L₂, rfl, h₂⟩ := trace_op.mp h₁
      cases outcome with
      | completed result =>
          obtain ⟨saved, L₃, rfl, h₃⟩ := trace_op.mp h₂
          cases saved with
          | error err =>
              obtain ⟨rfl, rfl⟩ := trace_ret.mp h₃
              exact .unsaved lease run result err
          | ok _ => exact .completed lease run result h₃
      | suspended reason => exact .suspended lease run reason h₂
      | failed error durationMs =>
          cases policy with
          | failFast =>
              obtain ⟨rfl, rfl⟩ := trace_ret.mp h₂
              exact .stopped lease run error durationMs (.inl rfl)
          | continueOnError => exact .continued lease run error durationMs rfl h₂
          | retry maxAttempts backoffMs =>
              change (if _ then _ else _ : DagProg _).Trace _ _ at h₂
              split_ifs at h₂ with left
              · obtain ⟨slept, L₃, rfl, h₃⟩ := trace_op.mp h₂
                obtain ⟨saved, L₄, rfl, h₄⟩ := trace_op.mp h₃
                exact .retried lease run error durationMs maxAttempts backoffMs saved rfl left h₄
              · obtain ⟨rfl, rfl⟩ := trace_ret.mp h₂
                exact .stopped lease run error durationMs (.inr ⟨maxAttempts, backoffMs, rfl, left⟩)

end Iteration

/-! ### The step executions of a path -/

/-- One execution of a step: the run as it left it, the index, and how it ended. -/
structure Execution where
  run : WorkflowRun
  stepIdx : ℕ
  outcome : StepOutcome

def Execution.Failed (x : Execution) : Prop :=
  ∃ error durationMs, x.outcome = .failed error durationMs

def Execution.Completed (x : Execution) : Prop := ∃ result, x.outcome = .completed result

/-- The step executions of a path, in order. -/
def executions : Path → List Execution
  | [] => []
  | ⟨.step _ _ stepIdx _, r⟩ :: L => ⟨r.1, stepIdx, r.2⟩ :: executions L
  | _ :: L => executions L

/-- The checkpoints of a path that were handed to the store, in order. -/
def checkpoints : Path → List Checkpoint
  | [] => []
  | ⟨.saveCheckpoint _ checkpoint, _⟩ :: L => checkpoint :: checkpoints L
  | _ :: L => checkpoints L

section Executions

variable {run : WorkflowRun} {stepIdx : ℕ} {L : Path}

@[simp] theorem executions_nil : executions [] = [] := rfl

@[simp] theorem executions_step {step : PipelineStep} {context : Json}
    {r : WorkflowRun × StepOutcome} :
    executions (⟨.step run step stepIdx context, r⟩ :: L) =
      ⟨r.1, stepIdx, r.2⟩ :: executions L := rfl

@[simp] theorem executions_renew {runId : RunId} {fence : ℕ} {r : Except RuntimeError Lease} :
    executions (⟨.renew runId fence, r⟩ :: L) = executions L := rfl

@[simp] theorem executions_saveCheckpoint {runId : RunId} {checkpoint : Checkpoint}
    {r : Except RuntimeError Unit} :
    executions (⟨.saveCheckpoint runId checkpoint, r⟩ :: L) = executions L := rfl

@[simp] theorem executions_sleep {ms : ℕ} {r : Unit} :
    executions (⟨.sleep ms, r⟩ :: L) = executions L := rfl

@[simp] theorem checkpoints_nil : checkpoints [] = [] := rfl

@[simp] theorem checkpoints_step {step : PipelineStep} {context : Json}
    {r : WorkflowRun × StepOutcome} :
    checkpoints (⟨.step run step stepIdx context, r⟩ :: L) = checkpoints L := rfl

@[simp] theorem checkpoints_renew {runId : RunId} {fence : ℕ} {r : Except RuntimeError Lease} :
    checkpoints (⟨.renew runId fence, r⟩ :: L) = checkpoints L := rfl

@[simp] theorem checkpoints_saveCheckpoint {runId : RunId} {checkpoint : Checkpoint}
    {r : Except RuntimeError Unit} :
    checkpoints (⟨.saveCheckpoint runId checkpoint, r⟩ :: L) = checkpoint :: checkpoints L := rfl

@[simp] theorem checkpoints_sleep {ms : ℕ} {r : Unit} :
    checkpoints (⟨.sleep ms, r⟩ :: L) = checkpoints L := rfl

theorem executions_append (L L' : Path) :
    executions (L ++ L') = executions L ++ executions L' := by
  induction L with
  | nil => rfl
  | cons a L ih =>
      obtain ⟨e, r⟩ := a
      cases e with
      | step => simpa using ih
      | _ => exact ih

theorem checkpoints_append (L L' : Path) :
    checkpoints (L ++ L') = checkpoints L ++ checkpoints L' := by
  induction L with
  | nil => rfl
  | cons a L ih =>
      obtain ⟨e, r⟩ := a
      cases e with
      | saveCheckpoint => simpa using ih
      | _ => exact ih

end Executions

/-- Every answer of a path is one that the runtime can give. -/
def Answered (ex : DagExecutor) (L : Path) : Prop :=
  ∀ e r, (⟨e, r⟩ : Sigma DagOp.Res) ∈ L → ∃ l, (DagOp.run ex e).Trace l r

theorem Answered.drop {ex : DagExecutor} {L : Path} (h : Answered ex L) (n : ℕ) :
    Answered ex (L.drop n) :=
  fun e r hmem => h e r (List.mem_of_mem_drop hmem)

/-- A path of the real executor is one of its program, and is answered by the runtime. -/
theorem exists_answered_path {ex : DagExecutor} {pipeline : AgentPipeline}
    {retryPolicy : RetryPolicy} {l : List (Sigma Op.Res)} {res : Except RuntimeError PipelineResult}
    (h : (ex.execute pipeline retryPolicy).Trace l res) :
    ∃ L, (ex.executeWith pipeline retryPolicy).Trace L res ∧ Answered ex L := by
  obtain ⟨L, htrace, himplements⟩ := Trace.of_expand h
  exact ⟨L, htrace, fun _ _ hmem => himplements.exists_trace hmem⟩

/-- The collaborators in a world in which nothing fails and every agent answers
`reply`. -/
def DagExecutor.serve (ex : DagExecutor) (reply : Except ClawDeskError AgentResponse) (e : DagOp) :
    World → e.Res × World :=
  (DagOp.run ex e).eval (World.serve reply)

theorem answered_path {α : Type} (ex : DagExecutor) (reply : Except ClawDeskError AgentResponse)
    (p : DagProg α) (w : World) : Answered ex (p.path (ex.serve reply) w) := by
  intro e r hmem
  obtain ⟨w', rfl⟩ := exists_of_mem_path hmem
  exact ⟨_, trace_path _ _ _⟩

/-- The step execution in a turn of the loop keeps its contract. -/
theorem Answered.turn {ex : DagExecutor} {a : Sigma DagOp.Res} {L : Path}
    {run run' : WorkflowRun} {step : PipelineStep} {stepIdx : ℕ} {context : Json}
    {outcome : StepOutcome}
    (h : Answered ex (a :: ⟨.step run step stepIdx context, (run', outcome)⟩ :: L)) :
    run'.attempt = run.attempt ∧ ∀ result, outcome = .completed result →
      result.stepIndex = stepIdx ∧ result.error = none := by
  obtain ⟨l, htrace⟩ := h _ _ (.tail _ (.head _))
  exact (timedStep_contract step run stepIdx context).of_trace htrace

/-- A suspended loop saves one checkpoint, at its position, and returns an error. -/
theorem suspendRun_trace {st : Progress} {stepIdx : ℕ} {reason : SuspendReason} {L : Path}
    {res : Except RuntimeError Progress} (h : (suspendRun st stepIdx reason).Trace L res) :
    executions L = [] ∧ (∃ err, res = .error err) ∧
      ∀ cp ∈ checkpoints L, cp = .pipelineStep stepIdx st.stepResults st.context := by
  obtain ⟨now, L₁, rfl, h₁⟩ := trace_op.mp h
  obtain ⟨saved, L₂, rfl, h₂⟩ := trace_op.mp h₁
  cases saved with
  | error err =>
      obtain ⟨rfl, rfl⟩ := trace_ret.mp h₂
      exact ⟨rfl, ⟨_, rfl⟩, by rintro cp ⟨⟩⟩
  | ok _ =>
      obtain ⟨saved, L₃, rfl, h₃⟩ := trace_op.mp h₂
      cases saved with
      | error err | ok =>
          obtain ⟨rfl, rfl⟩ := trace_ret.mp h₃
          exact ⟨rfl, ⟨_, rfl⟩, fun cp hcp => List.mem_singleton.mp hcp⟩

/-! ### The parts of a path of `execute` -/

/-- The answer is a stored checkpoint. -/
def foundCheckpoint : Sigma DagOp.Res → Bool
  | ⟨.loadCheckpoint _, .ok (some _)⟩ => true
  | _ => false

/-- No checkpoint is stored under the new run id. -/
def StartsFresh (L : Path) : Prop := ∀ a ∈ L, foundCheckpoint a = false

theorem startsFresh_of_any {L : Path} (h : L.any foundCheckpoint = false) : StartsFresh L := by
  simpa [StartsFresh] using h

/-- A run that starts fresh either fails before the loop or runs it from the first
step. -/
theorem trace_executeWith {ex : DagExecutor} {pipeline : AgentPipeline}
    {retryPolicy : RetryPolicy} {L : Path} {res : Except RuntimeError PipelineResult}
    (h : (ex.executeWith pipeline retryPolicy).Trace L res) (fresh : StartsFresh L) :
    (executions L = [] ∧ checkpoints L = [] ∧ ∃ err, res = .error err) ∨
    ∃ L₁ L₂ run fence, L = L₁ ++ L₂ ∧ executions L₁ = [] ∧ checkpoints L₁ = [] ∧
      run.attempt = 1 ∧ (runFrom pipeline run fence 0 [] .null).Trace L₂ res := by
  obtain ⟨created, L₁, rfl, h₁⟩ := trace_op.mp h
  obtain ⟨runId, L₂, rfl, h₂⟩ := trace_op.mp h₁
  obtain ⟨updated, L₃, rfl, h₃⟩ := trace_op.mp h₂
  obtain ⟨saved, L₄, rfl, h₄⟩ := trace_op.mp h₃
  cases saved with
  | error err =>
      obtain ⟨rfl, rfl⟩ := trace_ret.mp h₄
      exact .inl ⟨rfl, rfl, _, rfl⟩
  | ok _ =>
    obtain ⟨acquired, L₅, rfl, h₅⟩ := trace_op.mp h₄
    cases acquired with
    | error err =>
        obtain ⟨rfl, rfl⟩ := trace_ret.mp h₅
        exact .inl ⟨rfl, rfl, _, rfl⟩
    | ok lease =>
      obtain ⟨loaded, L₆, rfl, h₆⟩ := trace_op.mp h₅
      rcases loaded with err | - | checkpoint
      · obtain ⟨rfl, rfl⟩ := trace_ret.mp h₆
        exact .inl ⟨rfl, rfl, _, rfl⟩
      · exact .inr ⟨[_, _, _, _, _, _], L₆, _, _, rfl, rfl, rfl, rfl, h₆⟩
      · exact absurd (fresh ⟨.loadCheckpoint runId, .ok (some checkpoint)⟩ (by simp)) nofun

/-- The end of a run executes no step and saves no checkpoint. -/
theorem trace_finishRun {pipeline : AgentPipeline} {st : Progress} {L : Path}
    {res : Except RuntimeError PipelineResult} (h : (finishRun pipeline st).Trace L res) :
    executions L = [] ∧ checkpoints L = [] ∧
      ∀ result, res = .ok result → result.steps = st.stepResults ∧
        result.finalOutput = st.context := by
  obtain ⟨totalDurationMs, L₁, rfl, h₁⟩ := trace_op.mp h
  obtain ⟨now, L₂, rfl, h₂⟩ := trace_op.mp h₁
  obtain ⟨saved, L₃, rfl, h₃⟩ := trace_op.mp h₂
  cases saved with
  | error err =>
      obtain ⟨rfl, rfl⟩ := trace_ret.mp h₃
      exact ⟨rfl, rfl, by rintro result ⟨⟩⟩
  | ok _ =>
      obtain ⟨released, L₄, rfl, h₄⟩ := trace_op.mp h₃
      obtain ⟨rfl, rfl⟩ := trace_ret.mp h₄
      refine ⟨rfl, rfl, ?_⟩
      rintro result ⟨⟩
      exact ⟨rfl, rfl⟩

/-- A run from a position is a run of the loop and, if that ends well, the end. -/
theorem trace_runFrom {pipeline : AgentPipeline} {run : WorkflowRun} {fence start : ℕ}
    {stepResults : List StepResult} {context : Json} {L : Path}
    {res : Except RuntimeError PipelineResult}
    (h : (runFrom pipeline run fence start stepResults context).Trace L res) :
    ∃ L₁ L₂ looped, L = L₁ ++ L₂ ∧ executions L₂ = [] ∧ checkpoints L₂ = [] ∧
      (pipelineLoop pipeline.errorPolicy (stepsFrom pipeline start)
        ⟨run, fence, stepResults, context, []⟩).Trace L₁ looped ∧
      ∀ result, res = .ok result → ∃ st, looped = .ok st ∧ result.steps = st.stepResults ∧
        result.finalOutput = st.context := by
  obtain ⟨L₁, L₂, looped, rfl, h₁, h₂⟩ := trace_bind.mp h
  cases looped with
  | error err =>
      obtain ⟨rfl, rfl⟩ := trace_ret.mp h₂
      exact ⟨L₁, [], _, rfl, rfl, rfl, h₁, by rintro result ⟨⟩⟩
  | ok st =>
      obtain ⟨hexec, hsaved, hresult⟩ := trace_finishRun h₂
      exact ⟨L₁, L₂, _, rfl, hexec, hsaved, h₁, fun result hres =>
        ⟨st, rfl, (hresult result hres).1, (hresult result hres).2⟩⟩

end ClawDesk.Runtime
