import ClawDesk.Foundations.Digraph
import ClawDesk.Foundations.Json
import Mathlib.Algebra.Order.Field.Rat
import Mathlib.Data.List.AList

/-!
# The dynamic task graph

Tasks are the nodes of a graph whose edges say which task waits for which; the graph is rewritten
while it runs.

Pruning a node prunes what only came after it: a successor is pruned with it unless something before
it is pending, running or completed.  The nodes that go are those that a cascade from the first one
reaches (`pruneNode_eq`), in whatever order the successors are walked through.

A list stands for a hash map or a hash set in the order in which it is iterated.
-/

namespace ClawDesk.Planner

open Foundations (Json Cascade Acyclic)

/-! ### Nodes -/

/-- Unique identifier for a task node within the graph. -/
abbrev NodeId := String

/-- Status of an individual task node. -/
inductive NodeStatus where
  | pending
  | running
  | completed
  | failed
  | pruned
  | skipped
  deriving DecidableEq

namespace NodeStatus

/-- Something may still come of the task. -/
def IsOpen (status : NodeStatus) : Prop := status = .pending ∨ status = .running

/-- The task has ended without completing. -/
def IsGone (status : NodeStatus) : Prop :=
  status = .failed ∨ status = .pruned ∨ status = .skipped

variable {status : NodeStatus}

theorem open_completed_or_gone (status : NodeStatus) :
    status.IsOpen ∨ status = .completed ∨ status.IsGone := by
  cases status <;> simp [IsOpen, IsGone]

theorem IsGone.ne_completed (h : status.IsGone) : status ≠ .completed := by
  rintro rfl
  simp [IsGone] at h

theorem IsGone.not_isOpen (h : status.IsGone) : ¬ status.IsOpen := by
  rintro (rfl | rfl)
  · simp [IsGone] at h
  · simp [IsGone] at h

end NodeStatus

/-- A single task node in the dynamic graph. -/
structure TaskNode where
  id : NodeId
  description : String
  weight : ℚ
  status : NodeStatus
  output : Option Json
  error : Option String
  metadata : AList fun _ : String => Json

namespace TaskNode

def new (id : NodeId) (description : String) : TaskNode where
  id := id
  description := description
  weight := 1
  status := .pending
  output := none
  error := none
  metadata := ∅

def withWeight (node : TaskNode) (w : ℚ) : TaskNode := { node with weight := w }

def isTerminal (node : TaskNode) : Bool :=
  match node.status with
  | .completed | .failed | .pruned | .skipped => true
  | _ => false

theorem isTerminal_iff {node : TaskNode} : node.isTerminal = true ↔ ¬ node.status.IsOpen := by
  rw [isTerminal, NodeStatus.IsOpen]
  cases node.status <;> simp

/-- The node, pruned. -/
def prune (node : TaskNode) : TaskNode := { node with status := .pruned }

end TaskNode

/-! ### Adjacency lists -/

/-- Sets of nodes, keyed by a node. -/
abbrev Adjacency := AList fun _ : NodeId => List NodeId

namespace Adjacency

/-- The set under a key; empty if there is none. -/
def members (m : Adjacency) (id : NodeId) : List NodeId := (m.lookup id).getD []

/-- `entry(id).or_default()`. -/
def orDefault (m : Adjacency) (id : NodeId) : Adjacency := m.insert id (m.members id)

/-- One more member. -/
def add (m : Adjacency) (id member : NodeId) : Adjacency :=
  m.insert id ((m.members id).insert member)

/-- One member less. -/
def remove (m : Adjacency) (id member : NodeId) : Adjacency :=
  match m.lookup id with
  | none => m
  | some members => m.insert id (members.filter (· ≠ member))

variable {m : Adjacency} {id member other x : NodeId}

theorem members_insert (set : List NodeId) :
    Adjacency.members (m.insert id set) other = if other = id then set else m.members other := by
  rw [members]
  split
  · subst_vars
    rw [AList.lookup_insert]
    rfl
  · rename_i hne
    rw [AList.lookup_insert_ne hne]
    rfl

@[simp] theorem members_orDefault : (m.orDefault id).members other = m.members other := by
  rw [orDefault, members_insert]
  split
  · subst_vars
    rfl
  · rfl

theorem mem_add :
    x ∈ (m.add id member).members other ↔ x ∈ m.members other ∨ (other = id ∧ x = member) := by
  rw [add, members_insert]
  split
  · subst_vars
    rw [List.mem_insert_iff]
    tauto
  · rename_i hne
    simp [hne]

theorem mem_remove :
    x ∈ (m.remove id member).members other ↔
      x ∈ m.members other ∧ ¬ (other = id ∧ x = member) := by
  rw [remove]
  cases hset : m.lookup id with
  | none =>
      rcases eq_or_ne other id with rfl | hne
      · simp [members, hset]
      · simp [hne]
  | some set =>
      simp only [members_insert]
      split
      · subst_vars
        simp [members, hset]
      · rename_i hne
        simp [hne]

end Adjacency

/-! ### The graph -/

/-- An edge in the task graph. -/
structure TaskEdge where
  source : NodeId
  target : NodeId
  commCost : ℚ

/-- Snapshot of the graph at a single point in time. -/
structure GraphSnapshot where
  generation : ℕ
  nodes : List TaskNode
  edges : List TaskEdge

/-- The live, mutable task graph. -/
structure DynamicTaskGraph where
  nodes : AList fun _ : NodeId => TaskNode
  forwardEdges : Adjacency
  reverseEdges : Adjacency
  edgeCosts : AList fun _ : NodeId × NodeId => ℚ
  generation : ℕ

namespace DynamicTaskGraph

def new : DynamicTaskGraph := ⟨∅, ∅, ∅, ∅, 0⟩

/-- The tasks that wait for one. -/
def succs (g : DynamicTaskGraph) (id : NodeId) : List NodeId := g.forwardEdges.members id

/-- The tasks that one waits for. -/
def preds (g : DynamicTaskGraph) (id : NodeId) : List NodeId := g.reverseEdges.members id

def Edge (g : DynamicTaskGraph) (a b : NodeId) : Prop := b ∈ g.succs a

/-- Insert a new task node. -/
def insertNode (g : DynamicTaskGraph) (node : TaskNode) : DynamicTaskGraph :=
  { g with
    nodes := g.nodes.insert node.id node
    forwardEdges := g.forwardEdges.orDefault node.id
    reverseEdges := g.reverseEdges.orDefault node.id
    generation := g.generation + 1 }

/-- Add a directed edge. -/
def addEdge (g : DynamicTaskGraph) (source target : NodeId) (commCost : ℚ) : DynamicTaskGraph :=
  { g with
    forwardEdges := g.forwardEdges.add source target
    reverseEdges := g.reverseEdges.add target source
    edgeCosts := g.edgeCosts.insert (source, target) commCost
    generation := g.generation + 1 }

/-- Remove an edge. -/
def removeEdge (g : DynamicTaskGraph) (source target : NodeId) : DynamicTaskGraph :=
  { g with
    forwardEdges := g.forwardEdges.remove source target
    reverseEdges := g.reverseEdges.remove target source
    edgeCosts := g.edgeCosts.erase (source, target)
    generation := g.generation + 1 }

/-- Change a node in place, if there is one. -/
def updateNode (g : DynamicTaskGraph) (id : NodeId) (f : TaskNode → TaskNode) : DynamicTaskGraph :=
  match g.nodes.lookup id with
  | none => g
  | some node => { g with nodes := g.nodes.insert id (f node) }

/-- Something before the node is pending, running or completed. -/
def hasLivePred (g : DynamicTaskGraph) (succ : NodeId) : Bool :=
  (g.preds succ).any fun p =>
    match g.nodes.lookup p with
    | none => false
    | some n => !n.isTerminal || n.status = .completed

/-- Prune downstream nodes that have no remaining live predecessors; none when it runs too deep. -/
def pruneRecursive : ℕ → NodeId → DynamicTaskGraph × List NodeId →
    Option (DynamicTaskGraph × List NodeId)
  | 0, _, _ => none
  | depth + 1, id, (g, pruned) =>
      let successors := (g.succs id).foldlM fun st succ =>
        if hasLivePred st.1 succ then some st else pruneRecursive depth succ st
      match g.nodes.lookup id with
      | none => successors (g, pruned)
      | some node =>
          if node.status = .pruned then some (g, pruned)
          else successors (g.updateNode id .prune, pruned ++ [id])

/-- No recursion that comes to an end goes deeper: between two nodes that are pruned for the first
time it passes each key at most once. -/
def maxDepth (g : DynamicTaskGraph) : ℕ := (g.forwardEdges.entries.length + 1) ^ 2 + 1

/-- Prune a node and all downstream nodes that become unreachable; none if that does not end. -/
def pruneNode (g : DynamicTaskGraph) (id : NodeId) : Option (DynamicTaskGraph × List NodeId) :=
  (pruneRecursive g.maxDepth id (g, [])).map fun st =>
    ({ st.1 with generation := st.1.generation + 1 }, st.2)

/-- Mark a node as running. -/
def markRunning (g : DynamicTaskGraph) (id : NodeId) : DynamicTaskGraph :=
  g.updateNode id fun node => { node with status := .running }

/-- Mark a node as completed with its output. -/
def markCompleted (g : DynamicTaskGraph) (id : NodeId) (output : Json) : DynamicTaskGraph :=
  g.updateNode id fun node => { node with status := .completed, output := some output }

/-- Mark a node as failed. -/
def markFailed (g : DynamicTaskGraph) (id : NodeId) (error : String) : DynamicTaskGraph :=
  g.updateNode id fun node => { node with status := .failed, error := some error }

/-- Get nodes that are ready to execute. -/
def readyNodes (g : DynamicTaskGraph) : List NodeId :=
  (g.nodes.entries.filter fun entry =>
    entry.2.status = .pending && (g.preds entry.1).all fun p =>
      match g.nodes.lookup p with
      | none => true
      | some n => n.isTerminal).map (·.1)

/-- Get all failed nodes. -/
def failedNodes (g : DynamicTaskGraph) : List NodeId :=
  (g.nodes.entries.filter fun entry => entry.2.status = .failed).map (·.1)

/-- Snapshot the current graph state. -/
def snapshot (g : DynamicTaskGraph) : GraphSnapshot where
  generation := g.generation
  nodes := g.nodes.entries.map (·.2)
  edges := g.forwardEdges.entries.flatMap fun entry => entry.2.map fun target =>
    ⟨entry.1, target, (g.edgeCosts.lookup (entry.1, target)).getD 0⟩

/-- Get a node by ID. -/
def getNode (g : DynamicTaskGraph) (id : NodeId) : Option TaskNode := g.nodes.lookup id

/-- The status of a node. -/
def statusOf (g : DynamicTaskGraph) (id : NodeId) : Option NodeStatus :=
  (g.nodes.lookup id).map (·.status)

/-! ### What the operations do -/

variable {g : DynamicTaskGraph} {id a b : NodeId} {node : TaskNode}

/-- The two adjacency lists say the same. -/
def Mirrored (g : DynamicTaskGraph) : Prop := ∀ a b, a ∈ g.preds b ↔ g.Edge a b

theorem insertNode_edge : (g.insertNode node).Edge a b ↔ g.Edge a b := by
  rw [Edge, succs, insertNode, Adjacency.members_orDefault]
  rfl

theorem insertNode_mirrored (h : g.Mirrored) : (g.insertNode node).Mirrored := by
  intro a b
  rw [insertNode_edge, ← h, preds, insertNode, Adjacency.members_orDefault]
  rfl

theorem addEdge_edge {source target : NodeId} {cost : ℚ} :
    (g.addEdge source target cost).Edge a b ↔ g.Edge a b ∨ (a = source ∧ b = target) :=
  Adjacency.mem_add

theorem addEdge_mirrored {source target : NodeId} {cost : ℚ} (h : g.Mirrored) :
    (g.addEdge source target cost).Mirrored := by
  intro a b
  rw [addEdge_edge, ← h, preds, addEdge, Adjacency.mem_add, and_comm (a := b = target)]
  rfl

theorem removeEdge_mirrored {source target : NodeId} (h : g.Mirrored) :
    (g.removeEdge source target).Mirrored := by
  intro a b
  rw [Edge, succs, preds, removeEdge, Adjacency.mem_remove, Adjacency.mem_remove,
    and_comm (a := b = target)]
  exact and_congr_left' (h a b)

/-- Only the nodes are other than before. -/
structure SameEdges (g g' : DynamicTaskGraph) : Prop where
  forward : g'.forwardEdges = g.forwardEdges
  reverse : g'.reverseEdges = g.reverseEdges
  costs : g'.edgeCosts = g.edgeCosts

theorem updateNode_sameEdges (f : TaskNode → TaskNode) : SameEdges g (g.updateNode id f) := by
  rw [updateNode]
  split <;> exact ⟨rfl, rfl, rfl⟩

theorem lookup_updateNode (f : TaskNode → TaskNode) (other : NodeId) :
    (g.updateNode id f).nodes.lookup other =
      if other = id then (g.nodes.lookup id).map f else g.nodes.lookup other := by
  rw [updateNode]
  cases hnode : g.nodes.lookup id with
  | none =>
      rcases eq_or_ne other id with rfl | hne
      · rw [if_pos rfl, hnode]
        rfl
      · rw [if_neg hne]
  | some node =>
      rcases eq_or_ne other id with rfl | hne
      · rw [if_pos rfl]
        exact AList.lookup_insert _
      · rw [if_neg hne]
        exact AList.lookup_insert_ne hne

theorem statusOf_updateNode {f : TaskNode → TaskNode} (status : NodeStatus)
    (hf : ∀ node, (f node).status = status) (other : NodeId) :
    (g.updateNode id f).statusOf other =
      (g.statusOf other).map fun before => if other = id then status else before := by
  rw [statusOf, statusOf, lookup_updateNode, Option.map_map]
  rcases eq_or_ne other id with rfl | hne
  · rw [if_pos rfl, Option.map_map]
    refine congrFun (congrArg Option.map ?_) _
    funext node
    exact (hf node).trans (if_pos rfl).symm
  · rw [if_neg hne]
    refine congrFun (congrArg Option.map ?_) _
    funext node
    exact (if_neg hne).symm

/-- A node is ready if it is pending and each node before it is terminal or missing. -/
theorem mem_readyNodes : id ∈ g.readyNodes ↔ g.statusOf id = some .pending ∧
    ∀ p ∈ g.preds id, ∀ n, g.nodes.lookup p = some n → n.isTerminal = true := by
  have hpreds : ((g.preds id).all fun p =>
      match g.nodes.lookup p with
      | none => true
      | some n => n.isTerminal) = true ↔
      ∀ p ∈ g.preds id, ∀ n, g.nodes.lookup p = some n → n.isTerminal = true := by
    rw [List.all_eq_true]
    refine forall₂_congr fun p _ => ?_
    cases g.nodes.lookup p <;> simp
  rw [readyNodes, List.mem_map, statusOf, Option.map_eq_some_iff, ← hpreds]
  constructor
  · rintro ⟨⟨id', node⟩, hentry, rfl⟩
    obtain ⟨hmem, hready⟩ := List.mem_filter.mp hentry
    rw [Bool.and_eq_true, decide_eq_true_eq] at hready
    exact ⟨⟨node, AList.mem_lookup_iff.mpr hmem, hready.1⟩, hready.2⟩
  · rintro ⟨⟨node, hlookup, hpending⟩, hready⟩
    refine ⟨⟨id, node⟩, List.mem_filter.mpr ⟨AList.mem_lookup_iff.mp hlookup, ?_⟩, rfl⟩
    rw [Bool.and_eq_true, decide_eq_true_eq]
    exact ⟨hpending, hready⟩

/-- The same, by the statuses alone. -/
theorem mem_readyNodes_iff : id ∈ g.readyNodes ↔ g.statusOf id = some .pending ∧
    ∀ p ∈ g.preds id, ∀ status, g.statusOf p = some status → ¬ status.IsOpen := by
  rw [mem_readyNodes]
  refine and_congr_right fun _ => forall₂_congr fun p _ => ?_
  rw [statusOf]
  cases g.nodes.lookup p with
  | none => exact iff_of_true nofun nofun
  | some n => simp [TaskNode.isTerminal_iff]

/-! ### Pruning -/

/-- Nothing comes of the node any more. -/
def isDead (g : DynamicTaskGraph) (id : NodeId) : Bool :=
  match g.nodes.lookup id with
  | none => true
  | some n => n.isTerminal && n.status ≠ .completed

/-- How a pruning spreads. -/
def cascade (g : DynamicTaskGraph) : Cascade NodeId where
  succs := g.succs
  preds := g.preds
  closed id := (g.nodes.lookup id).any (·.status = .pruned)
  solid id := (g.nodes.lookup id).isSome
  dead := g.isDead

/-- The node goes when another is pruned: it is that one, or comes after one that goes, with nothing
alive before it that stays. -/
def Stranded (g : DynamicTaskGraph) (pruned id : NodeId) : Prop := g.cascade.Reached pruned id

/-- The graph with some nodes pruned. -/
def withPruned (g : DynamicTaskGraph) (ids : List NodeId) : DynamicTaskGraph :=
  ids.foldr (fun id g => g.updateNode id .prune) g

theorem withPruned_sameEdges (ids : List NodeId) : SameEdges g (g.withPruned ids) := by
  induction ids with
  | nil => exact ⟨rfl, rfl, rfl⟩
  | cons id ids ih =>
      have h : SameEdges (g.withPruned ids) (g.withPruned (id :: ids)) := updateNode_sameEdges _
      exact ⟨h.forward.trans ih.forward, h.reverse.trans ih.reverse, h.costs.trans ih.costs⟩

theorem lookup_withPruned (ids : List NodeId) (id : NodeId) :
    (g.withPruned ids).nodes.lookup id =
      if id ∈ ids then (g.nodes.lookup id).map .prune else g.nodes.lookup id := by
  induction ids with
  | nil => rfl
  | cons first ids ih =>
      have hstep : (g.withPruned (first :: ids)).nodes.lookup id =
          if id = first then ((g.withPruned ids).nodes.lookup first).map .prune
          else (g.withPruned ids).nodes.lookup id := lookup_updateNode _ _
      rw [hstep]
      rcases eq_or_ne id first with rfl | hne
      · rw [if_pos rfl, if_pos List.mem_cons_self, ih]
        split
        · rw [Option.map_map]
          rfl
        · rfl
      · rw [if_neg hne, ih]
        simp [hne]

/-- Once some nodes have been visited. -/
def visitedState (g : DynamicTaskGraph) (ids : List NodeId) : DynamicTaskGraph × List NodeId :=
  (g.withPruned ids, ids.reverse.filter fun id => (g.nodes.lookup id).isSome)

theorem visitedState_cons_none {visited : List NodeId} (hnode : g.nodes.lookup id = none) :
    g.visitedState (id :: visited) = g.visitedState visited := by
  have hsame : g.withPruned (id :: visited) = g.withPruned visited := by
    show (g.withPruned visited).updateNode id .prune = _
    simp [updateNode, lookup_withPruned, hnode]
  rw [visitedState, hsame]
  simp [visitedState, hnode]

theorem visitedState_cons_some {visited : List NodeId} (hnode : g.nodes.lookup id = some node) :
    g.visitedState (id :: visited) =
      ((g.withPruned visited).updateNode id .prune, (g.visitedState visited).2 ++ [id]) := by
  refine Prod.ext rfl ?_
  simp [visitedState, hnode]

theorem hasLivePred_withPruned (visited : List NodeId) (y : NodeId) :
    (g.withPruned visited).hasLivePred y = !g.cascade.ready visited y := by
  have hpreds : (g.withPruned visited).preds y = g.cascade.preds y := by
    rw [preds, (withPruned_sameEdges visited).reverse]
    rfl
  rw [hasLivePred, hpreds, Cascade.ready, List.not_all_eq_any_not]
  congr 1
  funext p
  rw [lookup_withPruned]
  show _ = !(g.isDead p || decide (p ∈ visited))
  rw [isDead]
  by_cases hvisited : p ∈ visited
  · rw [if_pos hvisited, decide_eq_true hvisited, Bool.or_true]
    cases g.nodes.lookup p <;> rfl
  · rw [if_neg hvisited, decide_eq_false hvisited, Bool.or_false]
    cases g.nodes.lookup p with
    | none => rfl
    | some n => cases hstatus : n.status <;> simp [TaskNode.isTerminal, hstatus]

/-- The loop over the successors, if the recursion below it is the search of the cascade. -/
theorem pruneSuccs_eq {depth : ℕ} (hbelow : ∀ (id : NodeId) (visited : List NodeId),
      pruneRecursive depth id (g.visitedState visited) =
        (g.cascade.visit depth id visited).map g.visitedState)
    (ys visited : List NodeId) :
    ys.foldlM (fun st succ => if hasLivePred st.1 succ then some st
        else pruneRecursive depth succ st) (g.visitedState visited) =
      (ys.foldlM (fun visited y => if g.cascade.ready visited y
        then g.cascade.visit depth y visited else some visited) visited).map g.visitedState := by
  induction ys generalizing visited with
  | nil => rfl
  | cons y ys ih =>
      -- the check sees the nodes pruned so far, which are those that have been visited
      have hlive : hasLivePred (g.visitedState visited).1 y = !g.cascade.ready visited y :=
        hasLivePred_withPruned visited y
      rw [List.foldlM_cons, List.foldlM_cons, hlive]
      cases g.cascade.ready visited y with
      | false => exact ih visited
      | true =>
          simp only [Bool.not_true, Bool.false_eq_true, if_false, if_true, hbelow]
          cases g.cascade.visit depth y visited with
          | none => rfl
          | some visited' => exact ih visited'

/-- **Pruning is the search of the cascade.** -/
theorem pruneRecursive_eq (depth : ℕ) (id : NodeId) (visited : List NodeId) :
    pruneRecursive depth id (g.visitedState visited) =
      (g.cascade.visit depth id visited).map g.visitedState := by
  induction depth generalizing id visited with
  | zero => rfl
  | succ depth ih =>
      have hloop := pruneSuccs_eq ih
      have hsuccs : (g.withPruned visited).succs id = g.cascade.succs id := by
        rw [succs, (withPruned_sameEdges visited).forward]
        rfl
      have hlookup := lookup_withPruned (g := g) visited id
      rw [Cascade.visit, visitedState, pruneRecursive]
      cases hnode : g.nodes.lookup id with
      | none =>
          have hstops : g.cascade.stops visited id = false := by
            simp [Cascade.stops, cascade, hnode]
          rw [hnode, Option.map_none, ite_self] at hlookup
          rw [hlookup, hstops, hsuccs, if_neg Bool.false_ne_true, ← hloop,
            visitedState_cons_none hnode]
          rfl
      | some node =>
          rw [hnode, Option.map_some] at hlookup
          by_cases hstop : node.status = .pruned ∨ id ∈ visited
          · -- pruned before, or in the course of this search
            have hstops : g.cascade.stops visited id = true := by
              simpa [Cascade.stops, cascade, hnode] using hstop
            have hpruned : ∃ n, (g.withPruned visited).nodes.lookup id = some n ∧
                n.status = .pruned := by
              rw [hlookup]
              split
              · exact ⟨node.prune, rfl, rfl⟩
              · rename_i hfresh
                exact ⟨node, rfl, hstop.resolve_right hfresh⟩
            obtain ⟨n, hn, hstatus⟩ := hpruned
            rw [hn, hstops, if_pos rfl]
            exact if_pos hstatus
          · obtain ⟨hstatus, hfresh⟩ := not_or.mp hstop
            have hstops : g.cascade.stops visited id = false := by
              simp [Cascade.stops, cascade, hnode, hstatus, hfresh]
            rw [if_neg hfresh] at hlookup
            rw [hlookup, hstops, hsuccs, if_neg Bool.false_ne_true, ← hloop,
              visitedState_cons_some hnode]
            exact if_neg hstatus

theorem cascade_mirrored (h : g.Mirrored) : g.cascade.Mirrored := h

/-- Only what is a key has successors. -/
theorem mem_keys_of_edge (h : g.cascade.Edge a b) : a ∈ g.forwardEdges.keys.toFinset := by
  rw [List.mem_toFinset, ← AList.mem_keys, ← AList.lookup_isSome]
  cases hset : g.forwardEdges.lookup a with
  | some set => rfl
  | none =>
      have hempty : g.succs a = [] := by
        rw [succs, Adjacency.members, hset]
        rfl
      have hmem : b ∈ g.succs a := h
      rw [hempty] at hmem
      exact absurd hmem List.not_mem_nil

theorem card_keys_le : g.forwardEdges.keys.toFinset.card ≤ g.forwardEdges.entries.length :=
  (List.toFinset_card_le _).trans_eq (List.length_map _)

/-- Where the search of the cascade ends, so does the pruning, and the stranded nodes go. -/
theorem pruneNode_eq_of_isSome (hmirrored : g.Mirrored) {id : NodeId}
    (hends : (g.cascade.visit g.maxDepth id []).isSome) :
    ∃ ids, (∀ other, other ∈ ids ↔ g.Stranded id other) ∧
      g.pruneNode id = some ({ g.withPruned ids with
        generation := (g.withPruned ids).generation + 1 }, (g.visitedState ids).2) := by
  obtain ⟨ids, hids⟩ := Option.isSome_iff_exists.mp hends
  refine ⟨ids, fun other => Cascade.mem_visit_iff (cascade_mirrored hmirrored) hids, ?_⟩
  have hrun := pruneRecursive_eq (g := g) g.maxDepth id []
  rw [hids] at hrun
  exact congrArg _ hrun

/-- **Pruning ends in a graph without cycles, and the stranded nodes go.** -/
theorem pruneNode_eq (hmirrored : g.Mirrored) (hacyclic : Acyclic g.Edge) (id : NodeId) :
    ∃ ids, (∀ other, other ∈ ids ↔ g.Stranded id other) ∧
      g.pruneNode id = some ({ g.withPruned ids with
        generation := (g.withPruned ids).generation + 1 }, (g.visitedState ids).2) := by
  have hdepth : g.forwardEdges.keys.toFinset.card < g.maxDepth := by
    have hcard := card_keys_le (g := g)
    have hsquare := Nat.le_self_pow two_ne_zero (g.forwardEdges.entries.length + 1)
    rw [maxDepth]
    omega
  exact pruneNode_eq_of_isSome hmirrored
    (Cascade.visit_isSome (fun _ _ => mem_keys_of_edge) hacyclic hdepth)

theorem SameEdges.mirrored {g' : DynamicTaskGraph} (h : SameEdges g g') (hmirrored : g.Mirrored) :
    g'.Mirrored := by
  intro a b
  rw [preds, h.reverse, Edge, succs, h.forward]
  exact hmirrored a b

/-- Pruning leaves the edges alone. -/
theorem pruneNode_sameEdges {st : DynamicTaskGraph × List NodeId}
    (h : g.pruneNode id = some st) : SameEdges g st.1 := by
  obtain ⟨st', hrun, rfl⟩ := Option.map_eq_some_iff.mp h
  have heq := pruneRecursive_eq (g := g) g.maxDepth id []
  rw [show g.visitedState [] = (g, []) from rfl, hrun] at heq
  obtain ⟨ids, -, rfl⟩ := Option.map_eq_some_iff.mp heq.symm
  have hsame := withPruned_sameEdges (g := g) ids
  exact ⟨hsame.forward, hsame.reverse, hsame.costs⟩

end DynamicTaskGraph

end ClawDesk.Planner
