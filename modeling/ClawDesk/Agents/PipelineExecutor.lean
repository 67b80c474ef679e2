import ClawDesk.Agents.PipelineOrder
import ClawDesk.Foundations.Program
import Mathlib.Algebra.Group.Nat.Defs

/-!
# Running a pipeline

The steps run one after the other in the order that Kahn's algorithm found.  A step is given the
output of the step before it in the graph, or an object with the outputs of all of them; a step with
nothing before it gets whatever was put out last.  With the policy to retry, a step that fails is
tried again after a pause.  A step that fails for good ends the run, or leaves no output and is
noted, as the policy says.

Whatever the agents answer, the inputs solve the equations that the edges set up: every step is run
when all that leads to it is done, so that its input is made of the outputs that the whole run has
of these steps (`inputs_solve`).  A run is reported as a success just when every step has put
something out (`success_iff`).

What a step does when it is tried is left open, as is the time that passes; a pause is without its
jitter, and the events for monitoring are left out.
-/

namespace ClawDesk.Agents

open Foundations EdgeList

/-! ### Errors -/

/-- Pipeline execution error. -/
inductive PipelineError where
  | agentFailed (agentId detail : String)
  | validationFailed (errors : String)
  | stepTimeout (stepIndex timeoutSecs : ℕ)
  | gateRejected (prompt : String)
  | gateTimeout (prompt : String)
  | noRouteMatch
  | cycleDetected
  | transformFailed (detail : String)
  | cancelled

def PipelineError.toString : PipelineError → String
  | agentFailed agentId detail => "agent '" ++ agentId ++ "' failed: " ++ detail
  | validationFailed errors => "pipeline validation failed: " ++ errors
  | stepTimeout stepIndex timeoutSecs => "step " ++ ToString.toString stepIndex ++
      " timed out after " ++ ToString.toString timeoutSecs ++ "s"
  | gateRejected prompt => "gate '" ++ prompt ++ "' was rejected"
  | gateTimeout prompt => "gate '" ++ prompt ++ "' timed out, default action = Abort"
  | noRouteMatch => "no route matched for condition"
  | cycleDetected => "pipeline contains a cycle"
  | transformFailed detail => "transform failed: " ++ detail
  | cancelled => "cancelled"

/-! ### Inputs -/

def valueToString : Json → String
  | .string s => s
  | .null => ""
  | other => other.render

/-- Insert into a map that is kept in key order. -/
def insertMember (member : String × Json) : List (String × Json) → List (String × Json)
  | [] => [member]
  | other :: rest =>
      if member.1 < other.1 then member :: other :: rest
      else if member.1 = other.1 then member :: rest
      else other :: insertMember member rest

/-- The steps that lead to a step, an edge at a time. -/
def predecessors (edges : List (ℕ × ℕ)) (index : ℕ) : List ℕ :=
  (edges.filter fun edge => edge.2 = index).map (·.1)

/-- Resolve input for a step from its predecessor edges. -/
def resolveInput (edges : List (ℕ × ℕ)) (outputs : ℕ → Option Json) (index : ℕ)
    (fallback : Json) : String :=
  match predecessors edges index with
  | [] => valueToString fallback
  | [predecessor] => ((outputs predecessor).map valueToString).getD ""
  | several =>
      let members := several.filterMap fun i =>
        (outputs i).map fun v => ("step_" ++ toString i, v)
      valueToString (.object (members.foldl (fun map member => insertMember member map) []))

/-! ### The run -/

inductive ExecOp where
  | isCancelled
  /-- The milliseconds since the step, or the pipeline, was started. -/
  | elapsed
  | sleep (ms : ℕ)
  /-- `execute_step_inner`. -/
  | attempt (index : ℕ) (input : String)

abbrev ExecOp.Res : ExecOp → Type
  | isCancelled => Bool
  | elapsed => ℕ
  | sleep _ => Unit
  | attempt .. => Except PipelineError StepResult

abbrev ExecProc := Prog ExecOp ExecOp.Res

/-- Pause before every attempt but the first. -/
def backoff (backoffMs attempt : ℕ) : ExecProc Unit :=
  if attempt > 0 then Prog.ask (ExecOp.sleep (backoffMs * 2 ^ min (attempt - 1) 6)) else .ret ()

/-- The attempts that are left, the next one having this number. -/
def tryAttempts (backoffMs index : ℕ) (input : String) :
    ℕ → ℕ → Option PipelineError → ExecProc (Except PipelineError StepResult)
  | 0, _, last =>
      .ret (.error (last.getD (.agentFailed "unknown" "all retry attempts exhausted")))
  | left + 1, number, _ =>
      (backoff backoffMs number).bind fun _ =>
        (Prog.ask (ExecOp.attempt index input)).bind fun (result : Except PipelineError _) =>
          match result with
          | .ok result => .ret (.ok result)
          | .error e => tryAttempts backoffMs index input left (number + 1) (some e)

def ErrorPolicy.maxAttempts : ErrorPolicy → ℕ
  | retry maxAttempts _ => maxAttempts
  | failFast | continueOnError => 1

def ErrorPolicy.backoffMs : ErrorPolicy → ℕ
  | retry _ backoffMs => backoffMs
  | failFast | continueOnError => 0

/-- Execute a single step, handling retries per error policy. -/
def executeStep (policy : ErrorPolicy) (index : ℕ) (input : String) :
    ExecProc (Except PipelineError StepResult) :=
  tryAttempts policy.backoffMs index input policy.maxAttempts 0 none

/-- What the loop over the steps carries along. -/
structure Progress where
  outputs : ℕ → Option Json
  results : List StepResult
  errors : List String
  lastOutput : Json

namespace PipelineDag

/-- The run ends, after these steps. -/
def finish (pipeline : PipelineDag) (success : Bool) (results : List StepResult) (output : Json)
    (errors : List String) : ExecProc (Except PipelineError PipelineResult) :=
  (Prog.ask ExecOp.elapsed).bind fun total => .ret (.ok ⟨pipeline.name, success, results, output,
    total, errors⟩)

/-- Run the steps that are left. -/
def runSteps (pipeline : PipelineDag) :
    List ℕ → Progress → ExecProc (Except PipelineError PipelineResult)
  | [], st => pipeline.finish st.errors.isEmpty st.results st.lastOutput st.errors
  | index :: rest, st =>
      (Prog.ask ExecOp.isCancelled).bind fun (cancelled : Bool) =>
        if cancelled then .ret (.error .cancelled)
        else
          let input := resolveInput pipeline.edges st.outputs index st.lastOutput
          (executeStep pipeline.errorPolicy index input).bind fun result =>
            (Prog.ask ExecOp.elapsed).bind fun (duration : ℕ) =>
              match result with
              | .ok result =>
                  runSteps pipeline rest
                    { st with
                      outputs := Function.update st.outputs index (some result.output)
                      results := st.results ++ [result]
                      lastOutput := result.output }
              | .error e =>
                  let results := st.results ++
                    [⟨index, false, .null, duration, some e.toString, []⟩]
                  if pipeline.errorPolicy = .failFast then
                    pipeline.finish false results .null [e.toString]
                  else
                    runSteps pipeline rest
                      { st with results := results, errors := st.errors ++ [e.toString] }

/-- Execute a pipeline, returning the aggregate result. -/
def execute (pipeline : PipelineDag) (initialInput : String) :
    ExecProc (Except PipelineError PipelineResult) :=
  match pipeline.validate with
  | .error errors => .ret (.error (.validationFailed ("; ".intercalate errors)))
  | .ok _ =>
      match pipeline.topologicalOrder with
      | some (.ok order) =>
          pipeline.runSteps order ⟨fun _ => none, [], [], .string initialInput⟩
      | _ => .ret (.error .cycleDetected)

end PipelineDag

/-! ### What a run has shown -/

/-- An attempt at a step, with its input and its answer. -/
structure Attempt where
  index : ℕ
  input : String
  answer : Except PipelineError StepResult

def attempts (l : List (Sigma ExecOp.Res)) : List Attempt :=
  l.filterMap fun
    | ⟨.attempt index input, answer⟩ => some ⟨index, input, answer⟩
    | _ => none

/-- What the attempt put out, if it was at this step. -/
def Attempt.output (index : ℕ) (attempt : Attempt) : Option Json :=
  if attempt.index = index then attempt.answer.toOption.map (·.output) else none

/-- The output that a run has of a step. -/
def produced (l : List (Sigma ExecOp.Res)) (index : ℕ) : Option Json :=
  (attempts l).findSome? (Attempt.output index)

variable {l l' : List (Sigma ExecOp.Res)} {policy : ErrorPolicy} {index : ℕ} {input : String}
  {edges : List (ℕ × ℕ)}

theorem attempts_append (l l' : List (Sigma ExecOp.Res)) :
    attempts (l ++ l') = attempts l ++ attempts l' :=
  List.filterMap_append ..

/-- Only the steps that were tried put something out. -/
theorem produced_eq_none {i : ℕ} (h : ∀ a ∈ attempts l, a.index ≠ i) : produced l i = none :=
  List.findSome?_eq_none_iff.mpr fun a ha => if_neg (h a ha)

theorem countP_attempts_eq_zero {i : ℕ} (h : ∀ a ∈ attempts l, a.index ≠ i) :
    (attempts l).countP (fun a => a.index = i) = 0 :=
  List.countP_eq_zero.mpr fun a ha hi => h a ha (of_decide_eq_true hi)

/-! ### One step -/

/-- What the attempts at one step show, and its result. -/
structure Tried (index : ℕ) (input : String) (count : ℕ) (l : List (Sigma ExecOp.Res))
    (result : Except PipelineError StepResult) : Prop where
  same : ∀ a ∈ attempts l, a.index = index ∧ a.input = input
  length : (attempts l).length ≤ count
  output : produced l index = result.toOption.map (·.output)

theorem attempts_backoff {backoffMs number : ℕ} {u : Unit}
    (h : (backoff backoffMs number).Trace l u) : attempts l = [] := by
  unfold backoff at h
  by_cases hfirst : number > 0
  · rw [if_pos hfirst] at h
    obtain ⟨r, l', rfl, hrest⟩ := Prog.trace_op.mp h
    obtain ⟨rfl, -⟩ := Prog.trace_ret.mp hrest
    rfl
  · rw [if_neg hfirst] at h
    obtain ⟨rfl, -⟩ := Prog.trace_ret.mp h
    rfl

theorem tried_of_trace {backoffMs left number : ℕ} {last : Option PipelineError}
    {result : Except PipelineError StepResult}
    (h : (tryAttempts backoffMs index input left number last).Trace l result) :
    Tried index input left l result := by
  induction left generalizing number last l with
  | zero =>
      obtain ⟨rfl, rfl⟩ := Prog.trace_ret.mp h
      exact ⟨fun a ha => absurd ha List.not_mem_nil, le_rfl, rfl⟩
  | succ left ih =>
      rw [tryAttempts] at h
      obtain ⟨l₁, l₂, u, rfl, hpause, h⟩ := Prog.trace_bind.mp h
      obtain ⟨answer, l₃, rfl, hnext⟩ := Prog.trace_ask_bind.mp h
      clear h
      have hattempts : attempts (l₁ ++ ⟨.attempt index input, answer⟩ :: l₃) =
          ⟨index, input, answer⟩ :: attempts l₃ := by
        rw [attempts_append, attempts_backoff hpause]
        rfl
      have hproduced : produced (l₁ ++ ⟨.attempt index input, answer⟩ :: l₃) index =
          (Attempt.output index ⟨index, input, answer⟩).or (produced l₃ index) := by
        rw [produced, hattempts]
        cases hfirst : Attempt.output index ⟨index, input, answer⟩ with
        | none => rw [List.findSome?_cons_of_isNone (by rw [hfirst]; rfl)]; rfl
        | some v => rw [List.findSome?_cons_of_isSome (by rw [hfirst]; rfl), hfirst]; rfl
      rw [Attempt.output, if_pos rfl] at hproduced
      cases answer with
      | ok success =>
          obtain ⟨rfl, rfl⟩ := Prog.trace_ret.mp hnext
          refine ⟨?_, ?_, hproduced⟩
          · rw [hattempts]
            exact List.forall_mem_cons.mpr ⟨⟨rfl, rfl⟩, fun a ha => absurd ha List.not_mem_nil⟩
          · rw [hattempts]
            exact Nat.succ_le_succ (Nat.zero_le left)
      | error e =>
          have hrest := ih hnext
          refine ⟨?_, ?_, hproduced.trans hrest.output⟩
          · rw [hattempts]
            exact List.forall_mem_cons.mpr ⟨⟨rfl, rfl⟩, hrest.same⟩
          · rw [hattempts]
            exact Nat.succ_le_succ hrest.length

/-! ### All steps -/

theorem mem_predecessors {p : ℕ} : p ∈ predecessors edges index ↔ Edge edges p index := by
  simp [predecessors, Edge]

/-- An input is made of the outputs of what leads to the step. -/
theorem resolveInput_congr {outputs outputs' : ℕ → Option Json} {fallback fallback' : Json}
    (hsome : predecessors edges index ≠ [])
    (h : ∀ p, Edge edges p index → outputs p = outputs' p) :
    resolveInput edges outputs index fallback = resolveInput edges outputs' index fallback' := by
  have hpreds : ∀ p ∈ predecessors edges index, outputs p = outputs' p :=
    fun p hp => h p (mem_predecessors.mp hp)
  unfold resolveInput
  split
  next hnone => exact absurd hnone hsome
  next predecessor hone =>
    rw [hone] at hpreds
    rw [hpreds predecessor (List.mem_singleton_self _)]
  next =>
    have hmembers : ((predecessors edges index).filterMap fun i => (outputs i).map fun v =>
        ("step_" ++ toString i, v)) = (predecessors edges index).filterMap fun i =>
          (outputs' i).map fun v => ("step_" ++ toString i, v) :=
      List.filterMap_congr fun i hi => by rw [hpreds i hi]
    dsimp only
    rw [hmembers]

namespace PipelineDag

variable {pipeline : PipelineDag} {st : Progress} {steps : List ℕ}
  {result : Except PipelineError PipelineResult}

/-- What a run of the steps that are left shows, and its result. -/
structure Ran (pipeline : PipelineDag) (steps : List ℕ) (st : Progress)
    (l : List (Sigma ExecOp.Res)) (result : Except PipelineError PipelineResult) : Prop where
  left : ∀ a ∈ attempts l, a.index ∈ steps
  inputs : ∀ a ∈ attempts l, predecessors pipeline.edges a.index ≠ [] →
    a.input = resolveInput pipeline.edges (fun i => (st.outputs i).or (produced l i)) a.index .null
  success : ∀ r, result = .ok r →
    (r.success = true ↔ st.errors = [] ∧ ∀ i ∈ steps, (produced l i).isSome)
  count : ∀ i, (attempts l).countP (fun a => a.index = i) ≤ pipeline.errorPolicy.maxAttempts

/-- Nothing that leads to a step is left when it is run. -/
def Ready (edges : List (ℕ × ℕ)) (steps : List ℕ) : Prop :=
  ∀ front index back, steps = front ++ index :: back → ∀ p, Edge edges p index → p ∉ index :: back

theorem Ready.tail {rest : List ℕ} (h : Ready edges (index :: rest)) : Ready edges rest :=
  fun front i back heq => h (index :: front) i back (by rw [heq]; rfl)

theorem finish_trace {success : Bool} {results : List StepResult} {output : Json}
    {errors : List String}
    (h : (pipeline.finish success results output errors).Trace l result) :
    attempts l = [] ∧ ∃ total, result = .ok ⟨pipeline.name, success, results, output, total,
      errors⟩ := by
  obtain ⟨total, l', rfl, hend⟩ := Prog.trace_ask_bind.mp h
  obtain ⟨rfl, rfl⟩ := Prog.trace_ret.mp hend
  exact ⟨rfl, total, rfl⟩

/-- A run that tries nothing more. -/
theorem ran_of_silent (hnone : attempts l = []) (hsuccess : ∀ r, result = .ok r →
    (r.success = true ↔ st.errors = [] ∧ ∀ i ∈ steps, (produced l i).isSome)) :
    Ran pipeline steps st l result := by
  refine ⟨?_, ?_, hsuccess, fun i => ?_⟩
  · rw [hnone]
    exact fun a ha => absurd ha List.not_mem_nil
  · rw [hnone]
    exact fun a ha => absurd ha List.not_mem_nil
  · rw [hnone]
    exact Nat.zero_le _

/-- What is shown up to the end of a step, and then of the steps that are left. -/
def after (l l' : List (Sigma ExecOp.Res)) (duration : ℕ) : List (Sigma ExecOp.Res) :=
  ⟨.isCancelled, false⟩ :: (l ++ ⟨.elapsed, duration⟩ :: l')

variable {rest : List ℕ} {st' : Progress} {answer : Except PipelineError StepResult} {duration : ℕ}

theorem attempts_after : attempts (after l l' duration) = attempts l ++ attempts l' := by
  change attempts (l ++ ⟨.elapsed, duration⟩ :: l') = _
  rw [attempts_append]
  rfl

theorem produced_after (i : ℕ) :
    produced (after l l' duration) i = (produced l i).or (produced l' i) := by
  rw [produced, attempts_after, List.findSome?_append]
  rfl

/-- One more step before those that are left. -/
theorem Ran.cons (hout : index ∉ rest) (hready : Ready pipeline.edges (index :: rest))
    (hfresh : st.outputs index = none)
    (htried : Tried index (resolveInput pipeline.edges st.outputs index st.lastOutput)
      pipeline.errorPolicy.maxAttempts l answer)
    (houtputs : st'.outputs = Function.update st.outputs index (answer.toOption.map (·.output)))
    (herrors : st'.errors = [] ↔ st.errors = [] ∧ answer.toOption.isSome)
    (h : Ran pipeline rest st' l' result) :
    Ran pipeline (index :: rest) st (after l l' duration) result := by
  have htriedAt : ∀ i, i ≠ index → ∀ a ∈ attempts l, a.index ≠ i :=
    fun i hne a ha heq => hne (heq.symm.trans (htried.same a ha).1)
  have hleftAt : ∀ i, i ∉ rest → ∀ a ∈ attempts l', a.index ≠ i :=
    fun i hi a ha heq => hi (heq ▸ h.left a ha)
  have hother : ∀ i, i ≠ index → produced l i = none :=
    fun i hne => produced_eq_none (htriedAt i hne)
  have hlater : ∀ i, i ∉ rest → produced l' i = none :=
    fun i hi => produced_eq_none (hleftAt i hi)
  have hfinal : (fun i => (st'.outputs i).or (produced l' i)) =
      fun i => (st.outputs i).or (produced (after l l' duration) i) := by
    funext i
    rw [houtputs, produced_after]
    rcases eq_or_ne i index with rfl | hne
    · rw [Function.update_self, hfresh, htried.output, hlater i hout]
      rfl
    · rw [Function.update_of_ne hne, hother i hne]
      rfl
  refine ⟨fun a ha => ?_, fun a ha hsome => ?_, fun r hr => ?_, fun i => ?_⟩
  · rw [attempts_after] at ha
    rcases List.mem_append.mp ha with ha | ha
    · rw [(htried.same a ha).1]
      exact List.mem_cons_self
    · exact List.mem_cons_of_mem _ (h.left a ha)
  · rw [attempts_after] at ha
    rcases List.mem_append.mp ha with ha | ha
    · obtain ⟨hindex, hinput⟩ := htried.same a ha
      rw [hindex] at hsome ⊢
      rw [hinput]
      refine resolveInput_congr hsome fun p hp => ?_
      have hdone := hready [] index rest rfl p hp
      rw [produced_after, hother p (List.ne_of_not_mem_cons hdone),
        hlater p (List.not_mem_of_not_mem_cons hdone)]
      exact (Option.or_none ..).symm
    · rw [h.inputs a ha hsome, hfinal]
  · rw [h.success r hr, herrors, List.forall_mem_cons, produced_after, htried.output,
      hlater index hout, and_assoc]
    have hrest : (∀ i ∈ rest, (produced l' i).isSome) ↔
        ∀ i ∈ rest, (produced (after l l' duration) i).isSome := by
      refine forall₂_congr fun i hi => ?_
      rw [produced_after, hother i fun heq => hout (heq ▸ hi)]
      rfl
    rw [hrest]
    cases answer <;> simp [Except.toOption]
  · rw [attempts_after, List.countP_append]
    rcases eq_or_ne i index with rfl | hne
    · rw [countP_attempts_eq_zero (hleftAt i hout), Nat.add_zero]
      exact (List.countP_le_length ..).trans htried.length
    · rw [countP_attempts_eq_zero (htriedAt i hne), Nat.zero_add]
      exact h.count i

theorem ran_of_trace (hnodup : steps.Nodup) (hready : Ready pipeline.edges steps)
    (hfresh : ∀ i ∈ steps, st.outputs i = none) (h : (pipeline.runSteps steps st).Trace l result) :
    Ran pipeline steps st l result := by
  induction steps generalizing st l with
  | nil =>
      obtain ⟨hnone, total, rfl⟩ := finish_trace h
      refine ran_of_silent hnone ?_
      rintro r ⟨⟩
      simp
  | cons index rest ih =>
      obtain ⟨hout, hrest⟩ := List.nodup_cons.mp hnodup
      rw [runSteps] at h
      obtain ⟨cancelled, l₁, rfl, hgo⟩ := Prog.trace_ask_bind.mp h
      clear h
      cases cancelled with
      | true =>
          obtain ⟨rfl, rfl⟩ := Prog.trace_ret.mp hgo
          exact ran_of_silent rfl fun r hr => nomatch hr
      | false =>
          obtain ⟨l₂, l₃, answer, rfl, hstep, hnext⟩ := Prog.trace_bind.mp hgo
          obtain ⟨duration, l₄, rfl, hrun⟩ := Prog.trace_ask_bind.mp hnext
          clear hgo hnext
          have htried := tried_of_trace hstep
          have hindex := hfresh index List.mem_cons_self
          have hleft : ∀ i ∈ rest, st.outputs i = none :=
            fun i hi => hfresh i (List.mem_cons_of_mem _ hi)
          cases answer with
          | ok success =>
              refine Ran.cons hout hready hindex htried rfl ?_ (ih hrest hready.tail ?_ hrun)
              · simp [Except.toOption]
              · intro i hi
                have hne : i ≠ index := fun heq => hout (heq ▸ hi)
                exact (Function.update_of_ne hne ..).trans (hleft i hi)
          | error e =>
              have houtputs : st.outputs = Function.update st.outputs index none := by
                rw [← hindex, Function.update_eq_self]
              have hstopped : Ran pipeline rest
                  { st with
                    results := st.results ++
                      [⟨index, false, .null, duration, some e.toString, []⟩]
                    errors := st.errors ++ [e.toString] } l₄ result := by
                dsimp only at hrun
                split at hrun
                next =>
                  -- the run ends here, and is not reported as a success
                  obtain ⟨hnone, total, rfl⟩ := finish_trace hrun
                  refine ran_of_silent hnone ?_
                  rintro r ⟨⟩
                  simp
                next => exact ih hrest hready.tail hleft hrun
              refine hstopped.cons hout hready hindex htried ?_ ?_
              · exact houtputs
              · simp [Except.toOption]

/-- An order in which each step stands behind all that lead to it is one in which it is ready. -/
theorem ready_of_topological {order : List ℕ} (h : Topological (Edge edges) order)
    (hnodup : order.Nodup) : Ready edges order := by
  intro front i back heq p hp hmem
  have hfront := h front i back heq p hp
  rw [heq] at hnodup
  exact (List.nodup_append.mp hnodup).2.2 p hfront p hmem rfl

/-- What a run of the whole pipeline shows, and its result. -/
theorem ran_of_execute (hvalid : pipeline.validate = .ok ()) {initialInput : String}
    (h : (pipeline.execute initialInput).Trace l result) :
    Ran pipeline (List.range pipeline.steps.length) ⟨fun _ => none, [], [], .string initialInput⟩
      l result := by
  obtain ⟨order, horder, hperm, htopological⟩ := topologicalOrder_of_validate hvalid
  rw [execute, hvalid, horder] at h
  have hnodup : order.Nodup := hperm.nodup_iff.mpr List.nodup_range
  have hran := ran_of_trace hnodup (ready_of_topological htopological hnodup) (fun _ _ => rfl) h
  exact ⟨fun a ha => hperm.mem_iff.mp (hran.left a ha), hran.inputs,
    fun r hr => (hran.success r hr).trans (and_congr_right fun _ =>
      forall_congr' fun i => imp_congr_left hperm.mem_iff), hran.count⟩

theorem trace_of_invalid {errors : List String} (hinvalid : pipeline.validate = .error errors)
    {initialInput : String} (h : (pipeline.execute initialInput).Trace l result) :
    l = [] ∧ result = .error (.validationFailed ("; ".intercalate errors)) := by
  rw [execute, hinvalid] at h
  obtain ⟨rfl, hresult⟩ := Prog.trace_ret.mp h
  exact ⟨rfl, hresult.symm⟩

/-- **A run is a success just when every step has put something out**, whatever the policy. -/
theorem success_iff {initialInput : String} {r : PipelineResult}
    (h : (pipeline.execute initialInput).Trace l (.ok r)) :
    r.success = true ↔ ∀ i < pipeline.steps.length, (produced l i).isSome := by
  cases hvalid : pipeline.validate with
  | error errors => cases (trace_of_invalid hvalid h).2
  | ok =>
      rw [(ran_of_execute hvalid h).success r rfl, and_iff_right rfl]
      exact forall_congr' fun i => imp_congr_left List.mem_range

/-! ### Two steps -/

def answered (index : ℕ) (text : String) : StepResult := ⟨index, true, .string text, 5, none, []⟩

/-- Both agents answer. -/
def twoAnswered : List (Sigma ExecOp.Res) :=
  [⟨.isCancelled, false⟩, ⟨.attempt 0 "topic", .ok (answered 0 "facts")⟩, ⟨.elapsed, (5 : ℕ)⟩,
    ⟨.isCancelled, false⟩, ⟨.attempt 1 "facts", .ok (answered 1 "text")⟩, ⟨.elapsed, (5 : ℕ)⟩,
    ⟨.elapsed, (10 : ℕ)⟩]

theorem two_order : two.topologicalOrder = some (.ok [0, 1]) := by decide

theorem two_trace : (two.execute "topic").Trace twoAnswered (.ok ⟨"research", true,
    [answered 0 "facts", answered 1 "text"], .string "text", 10, []⟩) := by
  have hvalid : two.validate = .ok () := rfl
  rw [execute, hvalid, two_order]
  exact .op _ (.op _ (.op _ (.op _ (.op _ (.op _ (.op _ (.ret _)))))))

theorem success_iff_two : (produced twoAnswered 0).isSome ∧ (produced twoAnswered 1).isSome := by
  have hall := (success_iff two_trace).mp rfl
  exact ⟨hall 0 (by decide), hall 1 (by decide)⟩

end PipelineDag

end ClawDesk.Agents
