import ClawDesk.Agents.Pipeline
import ClawDesk.Foundations.EdgeList

/-!
# In which order a pipeline runs

A pipeline is a list of steps with edges between their places.  Validation wants every edge to lead
forward, among other things; the order to run in is then found by Kahn's algorithm, whose queue is a
vector that nodes are taken off at the end, so that it is the node freed last that comes next.

The algorithm does not need validation: as long as no edge leads out of range it answers with an
order of all steps just when there is one (`topologicalOrder_spec`).  After validation there always
is (`topologicalOrder_of_validate`), although it is not the order in which the steps are listed.
-/

namespace ClawDesk.Agents

open Foundations EdgeList Relation

/-- A pipeline with its edges. -/
structure PipelineDag extends AgentPipeline where
  /-- `(from, to)`: the output of the one is input of the other. -/
  edges : List (ℕ × ℕ)

/-! ### Validation -/

mutual

/-- What is wrong with a step. -/
def validateStep : PipelineStep → ℕ → List String
  | .agent agentId _, index =>
      if agentId.isEmpty then ["step " ++ toString index ++ " has empty agent_id"] else []
  | .parallel branches, index =>
      (if branches.isEmpty then ["step " ++ toString index ++ " (Parallel) has no branches"]
        else []) ++ validateBranches branches (index * 100)
  | .router routes _, index =>
      if routes.isEmpty then ["step " ++ toString index ++ " (Router) has no routes"] else []
  | .gate prompt _ _, index =>
      if prompt.isEmpty then ["step " ++ toString index ++ " (Gate) has empty prompt"] else []
  | .transform expression, index =>
      if expression.isEmpty then
        ["step " ++ toString index ++ " (Transform) has empty expression"]
      else []

/-- What is wrong with the steps from this index on. -/
def validateBranches : List PipelineStep → ℕ → List String
  | [], _ => []
  | branch :: branches, index =>
      validateStep branch index ++ validateBranches branches (index + 1)

end

/-- What is wrong with an edge. -/
def validateEdge (count : ℕ) (edge : ℕ × ℕ) : List String :=
  (if edge.1 ≥ count then ["edge source " ++ toString edge.1 ++ " out of bounds"] else []) ++
  (if edge.2 ≥ count then ["edge target " ++ toString edge.2 ++ " out of bounds"] else []) ++
  if edge.1 ≥ edge.2 then
    ["edge (" ++ toString edge.1 ++ ", " ++ toString edge.2 ++ ") creates a cycle or self-loop"]
  else []

namespace PipelineDag

/-- All that is wrong with the pipeline. -/
def validationErrors (pipeline : PipelineDag) : List String :=
  (if pipeline.steps.isEmpty then ["pipeline has no steps"] else []) ++
    pipeline.edges.flatMap (validateEdge pipeline.steps.length) ++
    validateBranches pipeline.steps 0

/-- Validate the pipeline structure. -/
def validate (pipeline : PipelineDag) : Except (List String) Unit :=
  if pipeline.validationErrors.isEmpty then .ok () else .error pipeline.validationErrors

variable {pipeline : PipelineDag}

theorem edge_of_validate (h : pipeline.validate = .ok ()) :
    ∀ edge ∈ pipeline.edges, edge.1 < edge.2 ∧ edge.2 < pipeline.steps.length := by
  intro edge hedge
  unfold validate at h
  split at h
  next hempty =>
    have hnone := List.isEmpty_iff.mp hempty
    rw [validationErrors, List.append_eq_nil_iff, List.append_eq_nil_iff] at hnone
    have hedge := List.flatMap_eq_nil_iff.mp hnone.1.2 edge hedge
    simp only [validateEdge, List.append_eq_nil_iff, ite_eq_right_iff, reduceCtorEq,
      imp_false, ge_iff_le, not_le] at hedge
    exact ⟨hedge.2, hedge.1.2⟩
  next => cases h

/-! ### Kahn's algorithm -/

/-- The order to run the steps in.  None if an edge leads out of range, where the code panics. -/
def topologicalOrder (pipeline : PipelineDag) : Option (Except String (List ℕ)) :=
  let n := pipeline.steps.length
  if pipeline.edges.any fun edge => n ≤ edge.2 then none
  else
    let inDegree : Degrees ℕ :=
      (pipeline.edges.map (·.2)).foldl count ((List.range n).foldl enter ∅)
    let adj : AList fun _ : ℕ => List ℕ := pipeline.edges.foldl push ∅
    let queue := (List.range n).filter fun i => inDegree.lookup i = some 0
    (drainLast (fun node => (adj.lookup node).getD []) n (inDegree, queue) []).map fun st =>
      if st.2.length ≠ n then .error "pipeline contains a cycle" else .ok st.2

/-- The steps that a list of edges is about. -/
abbrev InRange (pipeline : PipelineDag) : Prop :=
  ∀ edge ∈ pipeline.edges, edge.2 < pipeline.steps.length

/-- At first every edge counts. -/
theorem counts_inDegree (hrange : pipeline.InRange) :
    Counts pipeline.edges (· < pipeline.steps.length)
      ((pipeline.edges.map (·.2)).foldl count
        ((List.range pipeline.steps.length).foldl enter ∅)) [] := by
  have hcounts := counts_foldl (List.range pipeline.steps.length) pipeline.edges
  have hknown : (fun s => s ∈ List.range pipeline.steps.length ∨ ∃ x, Edge pipeline.edges x s) =
      (· < pipeline.steps.length) := by
    funext s
    refine propext (or_iff_left_of_imp ?_ |>.trans List.mem_range)
    rintro ⟨x, hx⟩
    exact List.mem_range.mpr (hrange _ hx)
  rwa [hknown] at hcounts

/-- **What the algorithm answers**: it puts in order the steps that come after no cycle and after
nothing out of range, each behind all that leads to it, and is content if these are all. -/
theorem topologicalOrder_spec (hrange : pipeline.InRange) :
    ∃ order, order.Nodup ∧ Topological (Edge pipeline.edges) order ∧
      (∀ i, i ∈ order ↔ i < pipeline.steps.length ∧
        ¬ HeldUp (Edge pipeline.edges) (· < pipeline.steps.length) i) ∧
      pipeline.topologicalOrder = some (if order.length ≠ pipeline.steps.length then
        .error "pipeline contains a cycle" else .ok order) := by
  have hcounts := counts_inDegree hrange
  unfold topologicalOrder
  rw [if_neg (by simpa using hrange)]
  dsimp only
  set degrees := (pipeline.edges.map (·.2)).foldl count
    ((List.range pipeline.steps.length).foldl enter ∅) with hdegrees
  have hadj : (fun node => ((pipeline.edges.foldl push ∅).lookup node).getD []) =
      after pipeline.edges := by
    funext node
    rw [lookup_foldl_push]
    rfl
  have hqueue : ((List.range pipeline.steps.length).filter fun i =>
      degrees.lookup i = some 0).Perm (free degrees) := by
    refine (List.perm_ext_iff_of_nodup (List.nodup_range.filter _) (nodup_free _)).mpr fun i => ?_
    rw [List.mem_filter, mem_free, List.mem_range, decide_eq_true_iff]
    exact and_iff_right_of_imp fun hzero => ((hcounts i 0).mp hzero).1
  have hkeys : degrees.keys.length ≤ pipeline.steps.length := by
    have hsub : degrees.keys ⊆ List.range pipeline.steps.length := fun i hi =>
      List.mem_range.mpr (hcounts.mem_keys_iff.mp hi)
    have hlength := (List.subperm_of_subset degrees.keys_nodup hsub).length_le
    rwa [List.length_range] at hlength
  obtain ⟨degrees', order, hrun, hnodup, htopological, hmem⟩ :=
    drainLast_spec (fun x y hxy => hrange (x, y) hxy) hcounts hqueue hkeys
  refine ⟨order, hnodup, htopological, hmem, ?_⟩
  rw [hadj, hrun, Option.map_some]

/-- **A validated pipeline has an order**, which holds every step once, and each behind all that
lead to it. -/
theorem topologicalOrder_of_validate (h : pipeline.validate = .ok ()) :
    ∃ order, pipeline.topologicalOrder = some (.ok order) ∧
      order.Perm (List.range pipeline.steps.length) ∧
      Topological (Edge pipeline.edges) order := by
  have hedge := edge_of_validate h
  obtain ⟨order, hnodup, htopological, hmem, hanswer⟩ :=
    topologicalOrder_spec fun edge he => (hedge edge he).2
  -- edges lead forward, so that there is no cycle, and from within range
  have hforward : ∀ x y, TransGen (Edge pipeline.edges) x y → x < y := by
    intro x y hway
    induction hway with
    | single hxy => exact (hedge _ hxy).1
    | tail _ hyz ih => exact ih.trans (hedge _ hyz).1
  have hfree : ∀ i < pipeline.steps.length,
      ¬ HeldUp (Edge pipeline.edges) (· < pipeline.steps.length) i := by
    rintro i hi ⟨origin, hway, hcycle | hout⟩
    · exact lt_irrefl origin (hforward _ _ hcycle)
    · rcases reflTransGen_iff_eq_or_transGen.mp hway with rfl | hway
      · exact hout hi
      · exact hout ((hforward _ _ hway).trans hi)
  have hperm : order.Perm (List.range pipeline.steps.length) := by
    refine (List.perm_ext_iff_of_nodup hnodup List.nodup_range).mpr fun i => ?_
    rw [hmem, List.mem_range]
    exact and_iff_left_of_imp (hfree i)
  refine ⟨order, ?_, hperm, htopological⟩
  rw [hanswer, if_neg (not_not.mpr (hperm.length_eq.trans List.length_range))]

/-- One agent works on what another has found. -/
def two : PipelineDag where
  steps := [.agent "researcher" 60, .agent "writer" 60]
  errorPolicy := .failFast
  name := "research"
  edges := [(0, 1)]

theorem topologicalOrder_of_validate_two : ∃ order, two.topologicalOrder = some (.ok order) ∧
    order.Perm (List.range 2) ∧ Topological (Edge two.edges) order :=
  topologicalOrder_of_validate rfl

end PipelineDag

end ClawDesk.Agents
