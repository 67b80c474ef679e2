import ClawDesk.Foundations.Json

/-!
# Agent pipelines

The pipeline a user composes: its steps, what to do when one fails, and the
results an execution collects.  Fields that no execution reads (edges, merge
strategies, routing conditions, descriptions) are left out.
-/

namespace ClawDesk.Agents

open Foundations (Json)

/-- What happens when a gate times out. -/
inductive GateDefault where
  | proceed
  | abort
  | skip
  deriving DecidableEq

/-- A single step of a pipeline. -/
inductive PipelineStep where
  | agent (agentId : String) (timeoutSecs : ℕ)
  | parallel (branches : List PipelineStep)
  | router (routes : List (String × PipelineStep)) (defaultRoute : Option PipelineStep)
  | gate (prompt : String) (timeoutSecs : ℕ) (defaultAction : GateDefault)
  | transform (expression : String)

/-- What happens when a step fails. -/
inductive ErrorPolicy where
  | failFast
  | continueOnError
  | retry (maxAttempts backoffMs : ℕ)
  deriving DecidableEq

structure AgentPipeline where
  steps : List PipelineStep
  errorPolicy : ErrorPolicy
  /-- `metadata.name`. -/
  name : String

/-- The result of one step; `subResults` are the branches of a parallel step. -/
structure StepResult where
  stepIndex : ℕ
  success : Bool
  output : Json
  durationMs : ℕ
  error : Option String
  subResults : List StepResult

structure PipelineResult where
  pipelineName : String
  success : Bool
  steps : List StepResult
  finalOutput : Json
  totalDurationMs : ℕ
  errors : List String

/-! ### Serialization

`serde_json::to_value`: one member per field, under the field's name; the map
is printed in key order. -/

mutual

def StepResult.toJson : StepResult → Json
  | ⟨stepIndex, success, output, durationMs, error, subResults⟩ =>
      .object [
        ("duration_ms", .number (toString durationMs)),
        ("error", error.elim .null .string),
        ("output", output),
        ("step_index", .number (toString stepIndex)),
        ("sub_results", .array (StepResult.listToJson subResults)),
        ("success", .bool success)]

def StepResult.listToJson : List StepResult → List Json
  | [] => []
  | r :: rest => r.toJson :: StepResult.listToJson rest

end

def PipelineResult.toJson (result : PipelineResult) : Json :=
  .object [
    ("errors", .array (result.errors.map .string)),
    ("final_output", result.finalOutput),
    ("pipeline_name", .string result.pipelineName),
    ("steps", .array (StepResult.listToJson result.steps)),
    ("success", .bool result.success),
    ("total_duration_ms", .number (toString result.totalDurationMs))]

end ClawDesk.Agents
