import ClawDesk.Planner.TaskGraph
import Mathlib.Data.List.Destutter

/-!
# Rewriting the task graph

A failed task can be replaced by others, or by a human: new nodes are put where the failed one was,
between what came before it and what comes after it.

Both rules prune the failed node first and wire the new ones then, so what would have waited for the
replacement is pruned along with the failed node unless something else before it is alive.  And a
task is ready when all before it are terminal, completed or not.  So the tasks that waited for the
failed one wait for its replacement exactly if none is stranded by the pruning, and the last new
node does not fail while one of them waits for nothing else (`substitutions_keep_iff`).
-/

namespace ClawDesk.Planner

open Foundations (Json Acyclic Rewired acyclic_rewired_iff)
open Relation

/-- Outcome of applying a single rewrite rule. -/
structure RewriteOutcome where
  ruleName : String
  applied : Bool
  nodesInserted : List NodeId
  nodesPruned : List NodeId
  edgesAdded : List (NodeId × NodeId)
  edgesRemoved : List (NodeId × NodeId)
  description : String

def RewriteOutcome.noop (ruleName : String) : RewriteOutcome where
  ruleName := ruleName
  applied := false
  nodesInserted := []
  nodesPruned := []
  edgesAdded := []
  edgesRemoved := []
  description := "no action taken"

/-- A graph rewriting rule. -/
inductive RewriteRule where
  /-- Prune a failed node and all unreachable descendants. -/
  | pruneOnFailure (target : NodeId)
  /-- Insert a new node between two existing nodes. -/
  | insertBetween (predecessor successor : NodeId) (newNode : TaskNode)
      (commCostBefore commCostAfter : ℚ)
  /-- Replace a failed node with an alternative subgraph. -/
  | substituteOnFailure (failedNode : NodeId) (replacementNodes : List TaskNode)
      (replacementEdges : List (NodeId × NodeId × ℚ)) (entryNode exitNode : NodeId)
  /-- Add a parallel branch alongside an existing node for redundancy. -/
  | addRedundantBranch (originalNode : NodeId) (redundantNode : TaskNode)
  /-- Remove an edge to break a dependency. -/
  | breakDependency (source target : NodeId)
  /-- Auto-prune all failed branches in the graph. -/
  | pruneAllFailed
  /-- Substitute a failed/low-confidence task with a human escalation subgraph. -/
  | humanEscalation (target : NodeId) (reason : String) (channel : Option String)

namespace RewriteRule

/-! ### The rules -/

/-- What comes before a node, as a snapshot has it. -/
def snapPreds (g : DynamicTaskGraph) (id : NodeId) : List NodeId :=
  (g.snapshot.edges.filter fun e => e.target = id).map (·.source)

/-- What comes after a node, as a snapshot has it. -/
def snapSuccs (g : DynamicTaskGraph) (id : NodeId) : List NodeId :=
  (g.snapshot.edges.filter fun e => e.source = id).map (·.target)

/-- A graph, and the edges added to it so far. -/
abbrev Wiring := DynamicTaskGraph × List (NodeId × NodeId)

/-- Add an edge, and note it. -/
def addWire (st : Wiring) (edge : NodeId × NodeId) (cost : ℚ) : Wiring :=
  (st.1.addEdge edge.1 edge.2 cost, st.2 ++ [edge])

/-- Wire each of some nodes. -/
def wireAll (edge : NodeId → NodeId × NodeId) (cost : ℚ) (ids : List NodeId) (st : Wiring) :
    Wiring :=
  ids.foldl (fun st id => addWire st (edge id) cost) st

/-- Wire each of some nodes that exists and is not pruned. -/
def wireUnpruned (edge : NodeId → NodeId × NodeId) (cost : ℚ) (ids : List NodeId) (st : Wiring) :
    Wiring :=
  ids.foldl (fun st id =>
    match st.1.getNode id with
    | none => st
    | some n => if n.status ≠ .pruned then addWire st (edge id) cost else st) st

def applyPruneOnFailure (g : DynamicTaskGraph) (target : NodeId) :
    Option (DynamicTaskGraph × RewriteOutcome) :=
  match g.getNode target with
  | none => some (g, .noop "PruneOnFailure")
  | some n =>
      if n.status = .failed then
        (g.pruneNode target).map fun st => (st.1,
          { ruleName := "PruneOnFailure"
            applied := true
            nodesPruned := st.2
            nodesInserted := []
            edgesAdded := []
            edgesRemoved := []
            description := "pruned failed node '" ++ target ++ "' and descendants" })
      else some (g, .noop "PruneOnFailure")

def applyInsertBetween (g : DynamicTaskGraph) (predecessor successor : NodeId)
    (newNode : TaskNode) (commCostBefore commCostAfter : ℚ) : DynamicTaskGraph × RewriteOutcome :=
  let g := (g.removeEdge predecessor successor).insertNode newNode
  let g := g.addEdge predecessor newNode.id commCostBefore
  (g.addEdge newNode.id successor commCostAfter,
    { ruleName := "InsertBetween"
      applied := true
      nodesInserted := [newNode.id]
      nodesPruned := []
      edgesAdded := [(predecessor, newNode.id), (newNode.id, successor)]
      edgesRemoved := [(predecessor, successor)]
      description := "inserted node between '" ++ predecessor ++ "' and '" ++ successor ++ "'" })

/-- The part of `SubstituteOnFailure` after the check of the status. -/
def substitute (g : DynamicTaskGraph) (failedNode : NodeId) (replacementNodes : List TaskNode)
    (replacementEdges : List (NodeId × NodeId × ℚ)) (entryNode exitNode : NodeId) :
    Option (DynamicTaskGraph × RewriteOutcome) :=
  let preds := snapPreds g failedNode
  let succs := snapSuccs g failedNode
  (g.pruneNode failedNode).map fun st =>
    let st : Wiring := (replacementNodes.foldl .insertNode st.1, [])
    let st := replacementEdges.foldl (fun st e => addWire st (e.1, e.2.1) e.2.2) st
    let st := wireAll (fun pred => (pred, entryNode)) (1 / 10) preds st
    -- only to successors that the first step has not pruned
    let st := wireUnpruned (fun succ => (exitNode, succ)) (1 / 10) succs st
    (st.1,
      { ruleName := "SubstituteOnFailure"
        applied := true
        nodesInserted := replacementNodes.map (·.id)
        nodesPruned := [failedNode]
        edgesAdded := st.2
        edgesRemoved := []
        description := "substituted failed node '" ++ failedNode ++ "' with " ++
          toString replacementNodes.length ++ " replacement nodes" })

def applySubstituteOnFailure (g : DynamicTaskGraph) (failedNode : NodeId)
    (replacementNodes : List TaskNode) (replacementEdges : List (NodeId × NodeId × ℚ))
    (entryNode exitNode : NodeId) : Option (DynamicTaskGraph × RewriteOutcome) :=
  match g.getNode failedNode with
  | none => some (g, .noop "SubstituteOnFailure")
  | some n =>
      if n.status ≠ .failed then some (g, .noop "SubstituteOnFailure")
      else substitute g failedNode replacementNodes replacementEdges entryNode exitNode

def applyAddRedundantBranch (g : DynamicTaskGraph) (originalNode : NodeId)
    (redundantNode : TaskNode) : DynamicTaskGraph × RewriteOutcome :=
  let preds := snapPreds g originalNode
  let succs := snapSuccs g originalNode
  let st : Wiring := (g.insertNode redundantNode, [])
  let st := wireAll (fun pred => (pred, redundantNode.id)) 0 preds st
  let st := wireAll (fun succ => (redundantNode.id, succ)) 0 succs st
  (st.1,
    { ruleName := "AddRedundantBranch"
      applied := true
      nodesInserted := [redundantNode.id]
      nodesPruned := []
      edgesAdded := st.2
      edgesRemoved := []
      description := "added redundant branch for '" ++ originalNode ++ "'" })

def applyBreakDependency (g : DynamicTaskGraph) (source target : NodeId) :
    DynamicTaskGraph × RewriteOutcome :=
  (g.removeEdge source target,
    { ruleName := "BreakDependency"
      applied := true
      nodesInserted := []
      nodesPruned := []
      edgesAdded := []
      edgesRemoved := [(source, target)]
      description := "removed dependency '" ++ source ++ "' → '" ++ target ++ "'" })

def applyPruneAllFailed (g : DynamicTaskGraph) : Option (DynamicTaskGraph × RewriteOutcome) :=
  let failed := g.failedNodes
  if failed.isEmpty then some (g, .noop "PruneAllFailed")
  else
    (failed.foldlM (fun (st : DynamicTaskGraph × List NodeId) f =>
      (st.1.pruneNode f).map fun st' => (st'.1, st.2 ++ st'.2)) (g, [])).map fun st => (st.1,
        { ruleName := "PruneAllFailed"
          applied := true
          nodesPruned := (st.2.mergeSort fun a b => decide (a ≤ b)).destutter (· ≠ ·)
          nodesInserted := []
          edgesAdded := []
          edgesRemoved := []
          description := "pruned " ++ toString failed.length ++ " failed branches" })

def notifyId (target : NodeId) : NodeId := target ++ "_notify_human"

def awaitId (target : NodeId) : NodeId := target ++ "_await_response"

/-- The node that notifies the human. -/
def notifyNode (target : NodeId) (reason : String) (channel : Option String) : TaskNode :=
  let node := TaskNode.new (notifyId target) ("Notify human: " ++ reason)
  let metadata := node.metadata.insert "escalation_reason" (.string reason)
  let metadata := metadata.insert "action" (.string "notify_human")
  let metadata :=
    match channel with
    | none => metadata
    | some ch => metadata.insert "channel" (.string ch)
  { node with metadata := metadata }.withWeight (1 / 10)

/-- The node that waits for the response. -/
def awaitNode (target : NodeId) (reason : String) : TaskNode :=
  let node := TaskNode.new (awaitId target) ("Await human response for: " ++ reason)
  let metadata := node.metadata.insert "awaiting_human" (.bool true)
  let metadata := metadata.insert "original_task" (.string target)
  { node with metadata := metadata }.withWeight (1 / 100)

def applyHumanEscalation (g : DynamicTaskGraph) (target : NodeId) (reason : String)
    (channel : Option String) : Option (DynamicTaskGraph × RewriteOutcome) :=
  match g.getNode target with
  | none => some (g, .noop "HumanEscalation")
  | some _ =>
      let preds := snapPreds g target
      let succs := snapSuccs g target
      (g.pruneNode target).map fun st =>
        let g := (st.1.insertNode (notifyNode target reason channel)).insertNode
          (awaitNode target reason)
        let st := addWire (g, []) (notifyId target, awaitId target) 0
        -- unlike a substitution, only from predecessors that are there and not pruned
        let st := wireUnpruned (fun pred => (pred, notifyId target)) (1 / 10) preds st
        let st := wireUnpruned (fun succ => (awaitId target, succ)) (1 / 10) succs st
        (st.1,
          { ruleName := "HumanEscalation"
            applied := true
            nodesInserted := [notifyId target, awaitId target]
            nodesPruned := [target]
            edgesAdded := st.2
            edgesRemoved := []
            description := "escalated task '" ++ target ++ "' to human: " ++ reason })

/-- Apply a rule to the graph; none if a pruning does not end. -/
def apply (g : DynamicTaskGraph) : RewriteRule → Option (DynamicTaskGraph × RewriteOutcome)
  | pruneOnFailure target => applyPruneOnFailure g target
  | insertBetween predecessor successor newNode commCostBefore commCostAfter =>
      some (applyInsertBetween g predecessor successor newNode commCostBefore commCostAfter)
  | substituteOnFailure failedNode replacementNodes replacementEdges entryNode exitNode =>
      applySubstituteOnFailure g failedNode replacementNodes replacementEdges entryNode exitNode
  | addRedundantBranch originalNode redundantNode =>
      some (applyAddRedundantBranch g originalNode redundantNode)
  | breakDependency source target => some (applyBreakDependency g source target)
  | pruneAllFailed => applyPruneAllFailed g
  | humanEscalation target reason channel => applyHumanEscalation g target reason channel

/-! ### What the wiring does -/

variable {g g' : DynamicTaskGraph} {f a b entry exit : NodeId}

theorem mem_snapEdges {e : TaskEdge} (h : e ∈ g.snapshot.edges) : g.Edge e.source e.target := by
  obtain ⟨⟨source, targets⟩, hentry, htarget⟩ := List.mem_flatMap.mp h
  obtain ⟨target, hmem, rfl⟩ := List.mem_map.mp htarget
  have hlookup : g.forwardEdges.lookup source = some targets := AList.mem_lookup_iff.mpr hentry
  rw [DynamicTaskGraph.Edge, DynamicTaskGraph.succs, Adjacency.members, hlookup]
  exact hmem

theorem exists_snapEdge (h : g.Edge a b) :
    ∃ e ∈ g.snapshot.edges, e.source = a ∧ e.target = b := by
  rw [DynamicTaskGraph.Edge, DynamicTaskGraph.succs, Adjacency.members] at h
  cases htargets : g.forwardEdges.lookup a with
  | none =>
      rw [htargets] at h
      exact absurd h List.not_mem_nil
  | some targets =>
      rw [htargets] at h
      refine ⟨⟨a, b, (g.edgeCosts.lookup (a, b)).getD 0⟩,
        List.mem_flatMap.mpr ⟨⟨a, targets⟩, ?_, ?_⟩, rfl, rfl⟩
      · exact AList.mem_lookup_iff.mp htargets
      · exact List.mem_map.mpr ⟨b, h, rfl⟩

theorem mem_snapPreds : a ∈ snapPreds g f ↔ g.Edge a f := by
  rw [snapPreds, List.mem_map]
  constructor
  · rintro ⟨e, he, rfl⟩
    obtain ⟨hmem, htarget⟩ := List.mem_filter.mp he
    exact of_decide_eq_true htarget ▸ mem_snapEdges hmem
  · intro h
    obtain ⟨e, he, hsource, htarget⟩ := exists_snapEdge h
    exact ⟨e, List.mem_filter.mpr ⟨he, decide_eq_true htarget⟩, hsource⟩

theorem mem_snapSuccs : b ∈ snapSuccs g f ↔ g.Edge f b := by
  rw [snapSuccs, List.mem_map]
  constructor
  · rintro ⟨e, he, rfl⟩
    obtain ⟨hmem, hsource⟩ := List.mem_filter.mp he
    exact of_decide_eq_true hsource ▸ mem_snapEdges hmem
  · intro h
    obtain ⟨e, he, hsource, htarget⟩ := exists_snapEdge h
    exact ⟨e, List.mem_filter.mpr ⟨he, decide_eq_true hsource⟩, htarget⟩

/-- A wiring adds some edges and leaves the nodes alone. -/
structure Wires (st st' : Wiring) (edge : NodeId → NodeId → Prop) : Prop where
  edge : ∀ a b, st'.1.Edge a b ↔ st.1.Edge a b ∨ edge a b
  nodes : st'.1.nodes = st.1.nodes
  mirrored : st.1.Mirrored → st'.1.Mirrored

variable {st st' st'' : Wiring} {r r' : NodeId → NodeId → Prop}

theorem Wires.trans (h : Wires st st' r) (h' : Wires st' st'' r') :
    Wires st st'' fun a b => r a b ∨ r' a b where
  edge a b := by rw [h'.edge, h.edge, or_assoc]
  nodes := h'.nodes.trans h.nodes
  mirrored := h'.mirrored ∘ h.mirrored

theorem Wires.congr (h : Wires st st' r) (heq : ∀ a b, r a b ↔ r' a b) : Wires st st' r' where
  edge a b := by rw [h.edge, heq]
  nodes := h.nodes
  mirrored := h.mirrored

theorem Wires.refl (st : Wiring) : Wires st st fun _ _ => False where
  edge _ _ := (or_iff_left id).symm
  nodes := rfl
  mirrored := id

theorem addWire_wires (st : Wiring) (edge : NodeId × NodeId) (cost : ℚ) :
    Wires st (addWire st edge cost) fun a b => (a, b) = edge where
  edge a b := by
    rw [addWire, DynamicTaskGraph.addEdge_edge, Prod.ext_iff]
  nodes := rfl
  mirrored := DynamicTaskGraph.addEdge_mirrored

theorem addWires_wires (edges : List (NodeId × NodeId × ℚ)) (st : Wiring) :
    Wires st (edges.foldl (fun st e => addWire st (e.1, e.2.1) e.2.2) st)
      fun a b => ∃ cost, (a, b, cost) ∈ edges := by
  induction edges generalizing st with
  | nil => exact (Wires.refl st).congr fun a b => by simp
  | cons e edges ih =>
      refine ((addWire_wires st (e.1, e.2.1) e.2.2).trans (ih _)).congr fun a b => ?_
      obtain ⟨source, target, cost⟩ := e
      simp only [List.mem_cons, Prod.mk.injEq, exists_or]
      simp

theorem wireAll_wires (edge : NodeId → NodeId × NodeId) (cost : ℚ) (ids : List NodeId)
    (st : Wiring) :
    Wires st (wireAll edge cost ids st) fun a b => ∃ id ∈ ids, (a, b) = edge id := by
  induction ids generalizing st with
  | nil => exact (Wires.refl st).congr fun a b => by simp
  | cons id ids ih =>
      refine ((addWire_wires st (edge id) cost).trans (ih _)).congr fun a b => ?_
      rw [List.exists_mem_cons_iff]

/-- There is such a node, and it is not pruned. -/
def Unpruned (g : DynamicTaskGraph) (id : NodeId) : Prop :=
  ∃ n, g.nodes.lookup id = some n ∧ n.status ≠ .pruned

theorem wireUnpruned_wires (edge : NodeId → NodeId × NodeId) (cost : ℚ) (ids : List NodeId)
    (st : Wiring) :
    Wires st (wireUnpruned edge cost ids st)
      fun a b => ∃ id ∈ ids, Unpruned st.1 id ∧ (a, b) = edge id := by
  induction ids generalizing st with
  | nil => exact (Wires.refl st).congr fun a b => by simp
  | cons id ids ih =>
      rw [wireUnpruned, List.foldl_cons]
      cases hnode : st.1.getNode id with
      | none =>
          have hmissing : ¬ Unpruned st.1 id := fun ⟨n, hn, _⟩ => nomatch hnode.symm.trans hn
          refine (ih st).congr fun a b => ?_
          rw [List.exists_mem_cons_iff, or_iff_right fun h => hmissing h.1]
      | some n =>
          by_cases hpruned : n.status = .pruned
          · have hgone : ¬ Unpruned st.1 id := by
              rintro ⟨n', hn', hstatus⟩
              exact hstatus (Option.some.inj (hnode.symm.trans hn') ▸ hpruned)
            simp only [hpruned, ne_eq, not_true_eq_false, if_false]
            refine (ih st).congr fun a b => ?_
            rw [List.exists_mem_cons_iff, or_iff_right fun h => hgone h.1]
          · have hthere : Unpruned st.1 id := ⟨n, hnode, hpruned⟩
            simp only [ne_eq, hpruned, not_false_eq_true, if_true]
            refine ((addWire_wires st (edge id) cost).trans (ih _)).congr fun a b => ?_
            rw [List.exists_mem_cons_iff, and_iff_right hthere]
            rfl

/-! ### What the two rules make of a graph -/

/-- The node is there after the pruning, and not pruned. -/
def Survives (g : DynamicTaskGraph) (f id : NodeId) : Prop := Unpruned g id ∧ ¬ g.Stranded f id

/-- What the pruning makes of the graph. -/
structure Prunes (g g' : DynamicTaskGraph) (f : NodeId) : Prop where
  edge : ∀ a b, g'.Edge a b ↔ g.Edge a b
  mirrored : g'.Mirrored
  stranded : ∀ id, g.Stranded f id → g'.nodes.lookup id = (g.nodes.lookup id).map .prune
  kept : ∀ id, ¬ g.Stranded f id → g'.nodes.lookup id = g.nodes.lookup id

theorem pruneNode_prunes (hmirrored : g.Mirrored) (hacyclic : Acyclic g.Edge) (f : NodeId) :
    ∃ g' pruned, g.pruneNode f = some (g', pruned) ∧ Prunes g g' f := by
  obtain ⟨ids, hids, hprune⟩ := DynamicTaskGraph.pruneNode_eq hmirrored hacyclic f
  have hsame := DynamicTaskGraph.withPruned_sameEdges (g := g) ids
  have hedge : ∀ a b, (g.withPruned ids).Edge a b ↔ g.Edge a b := by
    intro a b
    rw [DynamicTaskGraph.Edge, DynamicTaskGraph.succs, hsame.forward]
    rfl
  refine ⟨_, _, hprune, hedge, fun a b => ?_, fun id hid => ?_, fun id hid => ?_⟩
  · refine Iff.trans ?_ ((hmirrored a b).trans (hedge a b).symm)
    show a ∈ (g.withPruned ids).preds b ↔ a ∈ g.preds b
    rw [DynamicTaskGraph.preds, hsame.reverse]
    rfl
  · exact (DynamicTaskGraph.lookup_withPruned ids id).trans (if_pos ((hids id).mpr hid))
  · exact (DynamicTaskGraph.lookup_withPruned ids id).trans (if_neg (mt (hids id).mp hid))

/-- The new node of an id: the last of them. -/
def newNode (nodes : List TaskNode) (id : NodeId) : Option TaskNode :=
  nodes.reverse.find? fun node => node.id = id

theorem newNode_eq_none_iff {nodes : List TaskNode} {id : NodeId} :
    newNode nodes id = none ↔ id ∉ nodes.map (·.id) := by
  rw [newNode, List.find?_eq_none, List.mem_map]
  simp

/-- The status in which a task goes on: that of the new node; of an old one its own, unless it is
stranded. -/
inductive StartsAs (g : DynamicTaskGraph) (f : NodeId) (nodes : List TaskNode) (id : NodeId) :
    NodeStatus → Prop where
  | new {node : TaskNode} (hnode : newNode nodes id = some node) : StartsAs g f nodes id node.status
  | kept {status : NodeStatus} (hold : newNode nodes id = none) (hkept : ¬ g.Stranded f id)
      (hstatus : g.statusOf id = some status) : StartsAs g f nodes id status
  | stranded {status : NodeStatus} (hold : newNode nodes id = none) (hstranded : g.Stranded f id)
      (hstatus : g.statusOf id = some status) : StartsAs g f nodes id .pruned

/-- What the new nodes and their wiring make of it. -/
structure Replaces (g g' : DynamicTaskGraph) (f entry exit : NodeId) (nodes : List TaskNode)
    (inner : NodeId → NodeId → Prop) (before : NodeId → Prop) : Prop where
  edge : ∀ a b, g'.Edge a b ↔
    Rewired g.Edge inner before (fun s => g.Edge f s ∧ Survives g f s) entry exit a b
  mirrored : g'.Mirrored
  status : ∀ id status, g'.statusOf id = some status ↔ StartsAs g f nodes id status

section InsertNodes

variable {nodes : List TaskNode}

theorem insertNodes_edge : (nodes.foldl .insertNode g).Edge a b ↔ g.Edge a b := by
  induction nodes generalizing g with
  | nil => exact Iff.rfl
  | cons node nodes ih => exact ih.trans DynamicTaskGraph.insertNode_edge

theorem insertNodes_mirrored (hmirrored : g.Mirrored) : (nodes.foldl .insertNode g).Mirrored := by
  induction nodes generalizing g with
  | nil => exact hmirrored
  | cons node nodes ih => exact ih (DynamicTaskGraph.insertNode_mirrored hmirrored)

theorem lookup_insertNodes (id : NodeId) :
    (nodes.foldl .insertNode g).nodes.lookup id = (newNode nodes id).or (g.nodes.lookup id) := by
  induction nodes generalizing g with
  | nil => rfl
  | cons node nodes ih =>
      have hlast : newNode (node :: nodes) id =
          (newNode nodes id).or (if node.id = id then some node else none) := by
        rw [newNode, List.reverse_cons, List.find?_append, List.find?_singleton]
        simp [newNode]
      have hfirst : (g.insertNode node).nodes.lookup id =
          (if node.id = id then some node else none).or (g.nodes.lookup id) := by
        split
        · subst_vars
          exact AList.lookup_insert _
        · rename_i hne
          exact AList.lookup_insert_ne (Ne.symm hne)
      rw [List.foldl_cons, ih, hlast, hfirst, Option.or_assoc]

/-- The statuses once the nodes are pruned and the new ones are in. -/
theorem statusOf_insertNodes {g₁ : DynamicTaskGraph} (hprunes : Prunes g g₁ f) (id : NodeId)
    (status : NodeStatus) :
    (nodes.foldl .insertNode g₁).statusOf id = some status ↔ StartsAs g f nodes id status := by
  rw [DynamicTaskGraph.statusOf, lookup_insertNodes]
  cases hnode : newNode nodes id with
  | some node =>
      -- the new node hides an old one of the same id
      constructor
      · intro h
        obtain rfl := Option.some.inj h
        exact .new hnode
      · intro h
        cases h with
        | new h => rw [Option.some.inj (hnode.symm.trans h)]; rfl
        | kept hold => exact absurd (hnode.symm.trans hold) (Option.some_ne_none node)
        | stranded hold => exact absurd (hnode.symm.trans hold) (Option.some_ne_none node)
  | none =>
      rw [Option.none_or]
      constructor
      · intro h
        by_cases hstranded : g.Stranded f id
        · rw [hprunes.stranded id hstranded, Option.map_map] at h
          obtain ⟨n, hn, rfl⟩ := Option.map_eq_some_iff.mp h
          exact .stranded hnode hstranded (congrArg (Option.map TaskNode.status) hn)
        · rw [hprunes.kept id hstranded] at h
          exact .kept hnode hstranded h
      · intro h
        cases h with
        | new h => exact absurd (h.symm.trans hnode) (Option.some_ne_none _)
        | kept _ hkept hstatus =>
            rw [hprunes.kept id hkept]
            exact hstatus
        | stranded _ hstranded hstatus =>
            obtain ⟨n, hn, -⟩ := Option.map_eq_some_iff.mp hstatus
            rw [hprunes.stranded id hstranded, hn]
            rfl

/-- What survives is what can be wired after the new nodes are there. -/
theorem unpruned_iff {g₁ : DynamicTaskGraph} {id : NodeId} (hprunes : Prunes g g₁ f)
    (hold : newNode nodes id = none) :
    Unpruned (nodes.foldl .insertNode g₁) id ↔ Survives g f id := by
  rw [Unpruned, lookup_insertNodes, hold, Option.none_or, Survives, Unpruned]
  by_cases hstranded : g.Stranded f id
  · rw [hprunes.stranded id hstranded]
    refine iff_of_false ?_ fun h => h.2 hstranded
    rintro ⟨n, hn, hstatus⟩
    obtain ⟨m, -, rfl⟩ := Option.map_eq_some_iff.mp hn
    exact hstatus rfl
  · rw [hprunes.kept id hstranded, and_iff_left hstranded]

end InsertNodes

/-- New, in that the graph has no such node and no edge that names it. -/
structure Fresh (g : DynamicTaskGraph) (id : NodeId) : Prop where
  node : g.nodes.lookup id = none
  source : ∀ b, ¬ g.Edge id b
  target : ∀ a, ¬ g.Edge a id

/-- The wires into the entry, from some of the nodes that came before. -/
theorem wired_preds_iff {p : NodeId → Prop} :
    (∃ id ∈ snapPreds g f, p id ∧ (a, b) = (id, entry)) ↔ (g.Edge a f ∧ p a) ∧ b = entry := by
  constructor
  · rintro ⟨id, hid, hp, heq⟩
    obtain ⟨rfl, rfl⟩ := Prod.mk.inj heq
    exact ⟨⟨mem_snapPreds.mp hid, hp⟩, rfl⟩
  · rintro ⟨⟨hedge, hp⟩, rfl⟩
    exact ⟨a, mem_snapPreds.mpr hedge, hp, rfl⟩

/-- The wires out of the exit, to some of the nodes that came after. -/
theorem wired_succs_iff {p : NodeId → Prop} :
    (∃ id ∈ snapSuccs g f, p id ∧ (a, b) = (exit, id)) ↔ a = exit ∧ g.Edge f b ∧ p b := by
  constructor
  · rintro ⟨id, hid, hp, heq⟩
    obtain ⟨rfl, rfl⟩ := Prod.mk.inj heq
    exact ⟨rfl, mem_snapSuccs.mp hid, hp⟩
  · rintro ⟨rfl, hedge, hp⟩
    exact ⟨b, mem_snapSuccs.mpr hedge, hp, rfl⟩

theorem newNode_eq_none {nodes : List TaskNode} (hfresh : ∀ node ∈ nodes, Fresh g node.id)
    {id : NodeId} (hold : ¬ Fresh g id) : newNode nodes id = none := by
  rw [newNode_eq_none_iff, List.mem_map]
  rintro ⟨node, hnode, rfl⟩
  exact hold (hfresh node hnode)

theorem substitute_replaces (hmirrored : g.Mirrored) (hacyclic : Acyclic g.Edge)
    {nodes : List TaskNode} (edges : List (NodeId × NodeId × ℚ)) (entry exit : NodeId)
    (hfresh : ∀ node ∈ nodes, Fresh g node.id) :
    ∃ g' outcome, substitute g f nodes edges entry exit = some (g', outcome) ∧
      Replaces g g' f entry exit nodes (fun a b => ∃ cost, (a, b, cost) ∈ edges)
        (fun p => g.Edge p f) := by
  obtain ⟨g₁, pruned, hprune, hprunes⟩ := pruneNode_prunes hmirrored hacyclic f
  let st₀ : Wiring := (nodes.foldl .insertNode g₁, [])
  let st₁ := edges.foldl (fun st e => addWire st (e.1, e.2.1) e.2.2) st₀
  let st₂ := wireAll (fun pred => (pred, entry)) (1 / 10) (snapPreds g f) st₁
  let st₃ := wireUnpruned (fun succ => (exit, succ)) (1 / 10) (snapSuccs g f) st₂
  have hwires : Wires st₀ st₂ _ := (addWires_wires edges st₀).trans
    (wireAll_wires (fun pred => (pred, entry)) (1 / 10) (snapPreds g f) st₁)
  have hlast : Wires st₂ st₃ _ := wireUnpruned_wires _ _ _ _
  -- the wiring changes no node, so what can be wired is seen after the pruning already
  refine ⟨st₃.1, _, by rw [substitute, hprune]; rfl, ?_⟩
  have hnodes : st₃.1.nodes = st₀.1.nodes := hlast.nodes.trans hwires.nodes
  have hsurvives : ∀ id, g.Edge f id → (Unpruned st₂.1 id ↔ Survives g f id) := by
    intro id hedge
    rw [Unpruned, hwires.nodes]
    exact unpruned_iff hprunes (newNode_eq_none hfresh fun h => h.target f hedge)
  refine ⟨fun a b => ?_, hlast.mirrored (hwires.mirrored (insertNodes_mirrored hprunes.mirrored)),
    fun id status => ?_⟩
  · have hpreds : (∃ id ∈ snapPreds g f, (a, b) = (id, entry)) ↔ g.Edge a f ∧ b = entry := by
      simpa using wired_preds_iff (p := fun _ => True) (g := g) (f := f) (a := a) (b := b)
    rw [hlast.edge, hwires.edge, wired_succs_iff, hpreds, insertNodes_edge, hprunes.edge, Rewired,
      or_assoc, or_assoc]
    refine or_congr_right (or_congr_right (or_congr_right (and_congr_right fun _ => ?_)))
    exact and_congr_right (hsurvives b)
  · rw [DynamicTaskGraph.statusOf, hnodes]
    exact statusOf_insertNodes hprunes id status

/-- What came before the pruned node is not stranded. -/
theorem not_stranded_of_edge (hacyclic : Acyclic g.Edge) (hedge : g.Edge a f) :
    ¬ g.Stranded f a :=
  fun h => hacyclic f (TransGen.tail' h.reflTransGen hedge)

/-- The two nodes of an escalation. -/
def escalationNodes (f : NodeId) (reason : String) (channel : Option String) : List TaskNode :=
  [notifyNode f reason channel, awaitNode f reason]

theorem humanEscalation_replaces (hmirrored : g.Mirrored) (hacyclic : Acyclic g.Edge)
    (reason : String) (channel : Option String) {node : TaskNode}
    (hnode : g.nodes.lookup f = some node)
    (hfresh : ∀ node ∈ escalationNodes f reason channel, Fresh g node.id) :
    ∃ g' outcome, applyHumanEscalation g f reason channel = some (g', outcome) ∧
      Replaces g g' f (notifyId f) (awaitId f) (escalationNodes f reason channel)
        (fun a b => (a, b) = (notifyId f, awaitId f)) (fun p => g.Edge p f ∧ Unpruned g p) := by
  obtain ⟨g₁, pruned, hprune, hprunes⟩ := pruneNode_prunes hmirrored hacyclic f
  let st₀ : Wiring := ((escalationNodes f reason channel).foldl .insertNode g₁, [])
  let st₁ := addWire st₀ (notifyId f, awaitId f) 0
  let st₂ := wireUnpruned (fun pred => (pred, notifyId f)) (1 / 10) (snapPreds g f) st₁
  let st₃ := wireUnpruned (fun succ => (awaitId f, succ)) (1 / 10) (snapSuccs g f) st₂
  have hfirst : Wires st₀ st₁ _ := addWire_wires st₀ (notifyId f, awaitId f) 0
  have hwires : Wires st₀ st₂ _ := hfirst.trans (wireUnpruned_wires _ _ _ _)
  have hlast : Wires st₂ st₃ _ := wireUnpruned_wires _ _ _ _
  have happly : ∃ outcome, applyHumanEscalation g f reason channel = some (st₃.1, outcome) := by
    simp only [applyHumanEscalation, DynamicTaskGraph.getNode, hnode, hprune]
    exact ⟨_, rfl⟩
  obtain ⟨outcome, happly⟩ := happly
  refine ⟨st₃.1, outcome, happly, ?_⟩
  have hnodes : st₃.1.nodes = st₀.1.nodes := hlast.nodes.trans hwires.nodes
  have hsurvives : ∀ st : Wiring, st.1.nodes = st₀.1.nodes → ∀ id, g.Edge f id ∨ g.Edge id f →
      (Unpruned st.1 id ↔ Survives g f id) := by
    intro st hst id hedge
    rw [Unpruned, hst]
    refine unpruned_iff hprunes (newNode_eq_none hfresh fun h => ?_)
    exact hedge.elim (h.target f) (h.source f)
  refine ⟨fun a b => ?_, hlast.mirrored (hwires.mirrored (insertNodes_mirrored hprunes.mirrored)),
    fun id status => ?_⟩
  · rw [hlast.edge, hwires.edge, wired_succs_iff, wired_preds_iff, insertNodes_edge, hprunes.edge,
      Rewired, or_assoc, or_assoc]
    refine or_congr_right (or_congr_right (or_congr ?_ ?_))
    · refine and_congr_left' (and_congr_right fun hedge => ?_)
      rw [hsurvives st₁ hfirst.nodes a (Or.inr hedge), Survives,
        and_iff_left (not_stranded_of_edge hacyclic hedge)]
    · exact and_congr_right fun _ => and_congr_right fun hedge =>
        hsurvives st₂ hwires.nodes b (Or.inl hedge)
  · rw [DynamicTaskGraph.statusOf, hnodes]
    exact statusOf_insertNodes hprunes id status

/-! ### What a replacement promises -/

/-- What the replacement promises of the graph: what was pending still is, the new part stands where
the old node stood, and there is no cycle. -/
structure Substituted (g g' : DynamicTaskGraph) (f entry exit : NodeId) : Prop where
  pending : ∀ id, g.statusOf id = some .pending → g'.statusOf id = some .pending
  entry : ∀ p, g.Edge p f → g'.Edge p entry
  exit : ∀ s, g.Edge f s → g.statusOf s = some .pending → g'.Edge exit s
  acyclic : Acyclic g'.Edge

/-- What waited for the old node is not ready before the exit has completed. -/
def Waits (g : DynamicTaskGraph) (f exit : NodeId) (st : DynamicTaskGraph) : Prop :=
  ∀ s, g.Edge f s → g.statusOf s = some .pending → st.statusOf exit ≠ some .completed →
    s ∉ st.readyNodes

/-- A later change of a status. -/
inductive StatusMark where
  | running (id : NodeId)
  | completed (id : NodeId) (output : Json)
  | failed (id : NodeId) (error : String)

namespace StatusMark

/-- The task it is about. -/
def target : StatusMark → NodeId
  | running id => id
  | completed id _ => id
  | failed id _ => id

/-- The status it gives. -/
def status : StatusMark → NodeStatus
  | running _ => .running
  | completed _ _ => .completed
  | failed _ _ => .failed

end StatusMark

def mark (g : DynamicTaskGraph) : StatusMark → DynamicTaskGraph
  | .running id => g.markRunning id
  | .completed id output => g.markCompleted id output
  | .failed id error => g.markFailed id error

/-- The graph after the replacement keeps the promises, and goes on to keep them while the tasks are
executed. -/
def Keeps (g g' : DynamicTaskGraph) (f entry exit : NodeId) (marks : List StatusMark) : Prop :=
  Substituted g g' f entry exit ∧
    ∀ earlier, earlier <+: marks → Waits g f exit (earlier.foldl mark g')

/-- Nothing that is pending is stranded when the node is pruned. -/
def NoneStranded (g : DynamicTaskGraph) (f : NodeId) : Prop :=
  ∀ id, g.statusOf id = some .pending → ¬ g.Stranded f id

/-- What becomes of the status of a task. -/
def statusAfter (id : NodeId) (marks : List StatusMark) (status : NodeStatus) : NodeStatus :=
  marks.foldl (fun status m => if id = m.target then m.status else status) status

/-- The status of a task after the replacement and the marks. -/
def StandsAs (g : DynamicTaskGraph) (f : NodeId) (nodes : List TaskNode) (marks : List StatusMark)
    (id : NodeId) (status : NodeStatus) : Prop :=
  ∃ start, StartsAs g f nodes id start ∧ statusAfter id marks start = status

/-- Where the exit has ended without completing, each task that waits for it waits for something
else too: something that came before it already, or that a new edge puts before it. -/
def HeldBack (g : DynamicTaskGraph) (f exit : NodeId) (nodes : List TaskNode)
    (inner : NodeId → NodeId → Prop) (marks : List StatusMark) : Prop :=
  ∀ s, g.Edge f s → g.statusOf s = some .pending → StandsAs g f nodes marks s .pending →
    (∃ status, StandsAs g f nodes marks exit status ∧ status.IsGone) →
      ∃ p, (g.Edge p s ∨ inner p s) ∧ ∃ status, StandsAs g f nodes marks p status ∧ status.IsOpen

theorem mark_sameEdges (g : DynamicTaskGraph) (m : StatusMark) :
    DynamicTaskGraph.SameEdges g (mark g m) := by
  cases m <;> exact DynamicTaskGraph.updateNode_sameEdges _

theorem marks_sameEdges (g : DynamicTaskGraph) (marks : List StatusMark) :
    DynamicTaskGraph.SameEdges g (marks.foldl mark g) := by
  induction marks generalizing g with
  | nil => exact ⟨rfl, rfl, rfl⟩
  | cons m marks ih =>
      have hfirst := mark_sameEdges g m
      have hrest := ih (mark g m)
      exact ⟨hrest.forward.trans hfirst.forward, hrest.reverse.trans hfirst.reverse,
        hrest.costs.trans hfirst.costs⟩

theorem statusOf_mark (g : DynamicTaskGraph) (m : StatusMark) (id : NodeId) :
    (mark g m).statusOf id =
      (g.statusOf id).map fun status => if id = m.target then m.status else status := by
  cases m with
  | running target =>
      exact DynamicTaskGraph.statusOf_updateNode .running (fun _ => rfl) id
  | completed target output =>
      exact DynamicTaskGraph.statusOf_updateNode .completed (fun _ => rfl) id
  | failed target error =>
      exact DynamicTaskGraph.statusOf_updateNode .failed (fun _ => rfl) id

theorem statusOf_marks (g : DynamicTaskGraph) (marks : List StatusMark) (id : NodeId) :
    (marks.foldl mark g).statusOf id = (g.statusOf id).map (statusAfter id marks) := by
  induction marks generalizing g with
  | nil => exact Option.map_id'.symm
  | cons m marks ih =>
      rw [List.foldl_cons, ih, statusOf_mark, Option.map_map]
      rfl

section Keeps

variable {nodes : List TaskNode} {before : NodeId → Prop} {inner : NodeId → NodeId → Prop}

theorem StartsAs.unique {id : NodeId} {status status' : NodeStatus}
    (h : StartsAs g f nodes id status) (h' : StartsAs g f nodes id status') : status = status' := by
  cases h with
  | new hnode =>
      cases h' with
      | new hnode' => rw [Option.some.inj (hnode.symm.trans hnode')]
      | kept hold => exact nomatch hnode.symm.trans hold
      | stranded hold => exact nomatch hnode.symm.trans hold
  | kept hold hkept hstatus =>
      cases h' with
      | new hnode => exact nomatch hnode.symm.trans hold
      | kept _ _ hstatus' => exact Option.some.inj (hstatus.symm.trans hstatus')
      | stranded _ hstranded => exact absurd hstranded hkept
  | stranded hold hstranded =>
      cases h' with
      | new hnode => exact nomatch hnode.symm.trans hold
      | kept _ hkept => exact absurd hstranded hkept
      | stranded => rfl

/-- What was pending goes on so unless it is stranded. -/
theorem startsAs_pending_iff {id : NodeId} (hold : newNode nodes id = none)
    (hpending : g.statusOf id = some .pending) :
    StartsAs g f nodes id .pending ↔ ¬ g.Stranded f id := by
  constructor
  · intro h hstranded
    exact NodeStatus.noConfusion (h.unique (.stranded hold hstranded hpending))
  · exact fun hkept => .kept hold hkept hpending

theorem Fresh.not_pending {id : NodeId} (h : Fresh g id) : g.statusOf id ≠ some .pending := by
  rw [DynamicTaskGraph.statusOf, h.node, Option.map_none]
  exact (Option.some_ne_none _).symm

theorem Survives.of_pending {id : NodeId} (hpending : g.statusOf id = some .pending)
    (hstranded : ¬ g.Stranded f id) : Survives g f id := by
  obtain ⟨n, hn, hstatus⟩ := Option.map_eq_some_iff.mp hpending
  exact ⟨⟨n, hn, by rw [hstatus]; exact nofun⟩, hstranded⟩

/-- The statuses after the replacement and the marks. -/
theorem Replaces.statusOf_iff (h : Replaces g g' f entry exit nodes inner before)
    (marks : List StatusMark) (id : NodeId) (status : NodeStatus) :
    (marks.foldl mark g').statusOf id = some status ↔ StandsAs g f nodes marks id status := by
  rw [statusOf_marks, Option.map_eq_some_iff]
  exact exists_congr fun start => and_congr_left' (h.status id start)

theorem Replaces.preds_iff (h : Replaces g g' f entry exit nodes inner before)
    (marks : List StatusMark) :
    a ∈ (marks.foldl mark g').preds b ↔
      Rewired g.Edge inner before (fun s => g.Edge f s ∧ Survives g f s) entry exit a b := by
  rw [← h.edge, ← h.mirrored a b, DynamicTaskGraph.preds, (marks_sameEdges g' marks).reverse]
  rfl

/-- A task that waits for the exit is held back exactly as long as it should be. -/
theorem Replaces.waits_iff (h : Replaces g g' f entry exit nodes inner before)
    (hfresh : ∀ node ∈ nodes, Fresh g node.id) (hentry : entry ∈ nodes.map (·.id))
    (hexit : exit ∈ nodes.map (·.id)) (hnone : NoneStranded g f) (marks : List StatusMark) :
    Waits g f exit (marks.foldl mark g') ↔ HeldBack g f exit nodes inner marks := by
  refine forall_congr' fun s => forall₂_congr fun hsucc hpending => ?_
  rw [DynamicTaskGraph.mem_readyNodes_iff, h.statusOf_iff]
  -- the exit is before the task, so the task is ready only once the exit has ended
  have hpred : exit ∈ (marks.foldl mark g').preds s :=
    (h.preds_iff marks).mpr (Or.inr (Or.inr (Or.inr ⟨rfl, hsucc, .of_pending hpending
      (hnone s hpending)⟩)))
  constructor
  · rintro hwaits hs ⟨status, hstands, hgone⟩
    by_contra hopen
    refine hwaits (fun hcompleted => ?_) ⟨hs, fun p hp status' hstatus' => ?_⟩
    · have hsame := (h.statusOf_iff marks exit status).mpr hstands
      obtain rfl := Option.some.inj (hsame.symm.trans hcompleted)
      exact hgone.ne_completed rfl
    · intro hisOpen
      have hstands' := (h.statusOf_iff marks p status').mp hstatus'
      rcases (h.preds_iff marks).mp hp with hedge | hinner | ⟨-, rfl⟩ | ⟨rfl, -⟩
      · exact hopen ⟨p, Or.inl hedge, status', hstands', hisOpen⟩
      · exact hopen ⟨p, Or.inr hinner, status', hstands', hisOpen⟩
      · -- the entry is new, so it is not what came after the failed node
        obtain ⟨node, hnode, rfl⟩ := List.mem_map.mp hentry
        exact (hfresh node hnode).target f hsucc
      · have hsame := (h.statusOf_iff marks p status).mpr hstands
        obtain rfl := Option.some.inj (hsame.symm.trans hstatus')
        exact hgone.not_isOpen hisOpen
  · rintro hheld hcompleted ⟨hs, hready⟩
    obtain ⟨start, hstart⟩ : ∃ start, StartsAs g f nodes exit start := by
      cases hnode : newNode nodes exit with
      | none => exact absurd hexit (newNode_eq_none_iff.mp hnode)
      | some node => exact ⟨_, .new hnode⟩
    have hstands : StandsAs g f nodes marks exit (statusAfter exit marks start) :=
      ⟨start, hstart, rfl⟩
    have hstatus := (h.statusOf_iff marks exit _).mpr hstands
    have hgone : (statusAfter exit marks start).IsGone := by
      refine (NodeStatus.open_completed_or_gone _).resolve_left (hready exit hpred _ hstatus)
        |>.resolve_left fun hdone => hcompleted ?_
      rw [hstatus, hdone]
    obtain ⟨p, hp, status, hstands', hopen⟩ := hheld hs ⟨_, hstands, hgone⟩
    refine hready p ((h.preds_iff marks).mpr ?_) status
      ((h.statusOf_iff marks p status).mpr hstands') hopen
    exact hp.elim Or.inl fun hinner => Or.inr (Or.inl hinner)

/-- The border of the new part closes no cycle. -/
def BorderFits (g : DynamicTaskGraph) (f entry exit : NodeId) (nodes : List TaskNode)
    (inner : NodeId → NodeId → Prop) (before : NodeId → Prop) : Prop :=
  ∀ u v, inner u v → ¬ (u ∈ nodes.map (·.id) ∧ v ∈ nodes.map (·.id)) → ¬ ReflTransGen
    (Rewired g.Edge inner before (fun s => g.Edge f s ∧ Survives g f s) entry exit) v u

/-- When a replacement keeps its promises. -/
theorem Replaces.keeps_iff (h : Replaces g g' f entry exit nodes inner before)
    (hacyclic : Acyclic g.Edge) (hfresh : ∀ node ∈ nodes, Fresh g node.id) (hinner : Acyclic inner)
    (hentry : entry ∈ nodes.map (·.id)) (hexit : exit ∈ nodes.map (·.id))
    (hbefore : ∀ p, before p → g.Edge p f) (hpreds : ∀ p, g.Edge p f → inner p entry → before p)
    (marks : List StatusMark) :
    Keeps g g' f entry exit marks ↔ NoneStranded g f ∧ (∀ p, g.Edge p f → before p) ∧
      BorderFits g f entry exit nodes inner before ∧
      ∀ earlier, earlier <+: marks → HeldBack g f exit nodes inner earlier := by
  have hedge : g'.Edge = Rewired g.Edge inner before (fun s => g.Edge f s ∧ Survives g f s)
      entry exit := by
    ext a b
    exact h.edge a b
  have hnew : ∀ id, id ∈ nodes.map (·.id) → Fresh g id := by
    intro id hid
    obtain ⟨node, hmem, rfl⟩ := List.mem_map.mp hid
    exact hfresh node hmem
  have hapart : ∀ a b, g.Edge a b → a ∉ nodes.map (·.id) ∧ b ∉ nodes.map (·.id) :=
    fun a b hab => ⟨fun ha => (hnew a ha).source b hab, fun hb => (hnew b hb).target a hab⟩
  have hcycles : Acyclic g'.Edge ↔ BorderFits g f entry exit nodes inner before := by
    rw [hedge]
    exact acyclic_rewired_iff hacyclic hinner hapart hentry hexit hbefore fun _ hs => hs.1
  have hpending : ∀ id, g.statusOf id = some .pending →
      (g'.statusOf id = some .pending ↔ ¬ g.Stranded f id) := by
    intro id hid
    rw [h.status]
    exact startsAs_pending_iff (newNode_eq_none hfresh fun hisNew => hisNew.not_pending hid) hid
  have hwaits := fun hnone => h.waits_iff hfresh hentry hexit hnone
  constructor
  · rintro ⟨hsub, hrun⟩
    have hnone : NoneStranded g f := fun id hid => (hpending id hid).mp (hsub.pending id hid)
    refine ⟨hnone, fun p hp => ?_, hcycles.mp hsub.acyclic,
      fun earlier hearlier => (hwaits hnone earlier).mp (hrun earlier hearlier)⟩
    -- an edge into the entry is not an old one, so it is an inner one or was wired to it
    rcases (h.edge p entry).mp (hsub.entry p hp) with hin | hin | hin | hin
    · exact absurd hentry (hapart p entry hin).2
    · exact hpreds p hp hin
    · exact hin.1
    · exact absurd hentry (hapart f entry hin.2.1).2
  · rintro ⟨hnone, hall, hfits, hrun⟩
    refine ⟨⟨fun id hid => (hpending id hid).mpr (hnone id hid), fun p hp => ?_,
      fun s hs hwaiting => ?_, hcycles.mpr hfits⟩,
      fun earlier hearlier => (hwaits hnone earlier).mpr (hrun earlier hearlier)⟩
    · exact (h.edge p entry).mpr (Or.inr (Or.inr (Or.inl ⟨hall p hp, rfl⟩)))
    · refine (h.edge exit s).mpr (Or.inr (Or.inr (Or.inr ⟨rfl, hs, ?_⟩)))
      exact .of_pending hwaiting (hnone s hwaiting)

end Keeps

theorem notifyId_ne_awaitId (target : NodeId) : notifyId target ≠ awaitId target := by
  intro h
  have hlist := congrArg String.toList h
  rw [notifyId, awaitId, String.toList_append, String.toList_append] at hlist
  exact absurd (List.append_cancel_left hlist) (by decide)

/-! ### Every graph is mirrored -/

theorem mirrored_of_eq {st : DynamicTaskGraph} {outcome outcome' : RewriteOutcome}
    (hmirrored : st.Mirrored) (h : (st, outcome) = (g', outcome')) : g'.Mirrored :=
  (Prod.mk.inj h).1 ▸ hmirrored

theorem pruneNode_mirrored {st : DynamicTaskGraph × List NodeId} (hmirrored : g.Mirrored)
    (h : g.pruneNode f = some st) : st.1.Mirrored :=
  (DynamicTaskGraph.pruneNode_sameEdges h).mirrored hmirrored

theorem substitute_mirrored {nodes : List TaskNode} {edges : List (NodeId × NodeId × ℚ)}
    {outcome : RewriteOutcome} (hmirrored : g.Mirrored)
    (h : substitute g f nodes edges entry exit = some (g', outcome)) : g'.Mirrored := by
  obtain ⟨st, hprune, heq⟩ := Option.map_eq_some_iff.mp h
  refine mirrored_of_eq ?_ heq
  refine (wireUnpruned_wires _ _ _ _).mirrored ((wireAll_wires _ _ _ _).mirrored
    ((addWires_wires edges _).mirrored ?_))
  exact insertNodes_mirrored (pruneNode_mirrored hmirrored hprune)

theorem humanEscalation_mirrored {reason : String} {channel : Option String}
    {outcome : RewriteOutcome} (hmirrored : g.Mirrored)
    (h : applyHumanEscalation g f reason channel = some (g', outcome)) : g'.Mirrored := by
  rw [applyHumanEscalation] at h
  split at h
  · exact mirrored_of_eq hmirrored (Option.some.inj h)
  · obtain ⟨st, hprune, heq⟩ := Option.map_eq_some_iff.mp h
    refine mirrored_of_eq ?_ heq
    refine (wireUnpruned_wires _ _ _ _).mirrored ((wireUnpruned_wires _ _ _ _).mirrored
      ((addWire_wires _ _ _).mirrored ?_))
    exact DynamicTaskGraph.insertNode_mirrored (DynamicTaskGraph.insertNode_mirrored
      (pruneNode_mirrored hmirrored hprune))

theorem pruneAll_mirrored {ids : List NodeId} {st st' : DynamicTaskGraph × List NodeId}
    (hmirrored : st.1.Mirrored)
    (h : ids.foldlM (fun (st : DynamicTaskGraph × List NodeId) f =>
      (st.1.pruneNode f).map fun st' => (st'.1, st.2 ++ st'.2)) st = some st') :
    st'.1.Mirrored := by
  induction ids generalizing st with
  | nil =>
      obtain rfl := Option.some.inj h
      exact hmirrored
  | cons id ids ih =>
      rw [List.foldlM_cons] at h
      obtain ⟨between, hfirst, hrest⟩ := Option.bind_eq_some_iff.mp h
      obtain ⟨st'', hprune, rfl⟩ := Option.map_eq_some_iff.mp hfirst
      have hmirrored' : st''.1.Mirrored := pruneNode_mirrored hmirrored hprune
      refine ih ?_ hrest
      exact hmirrored'

/-- Every rule keeps the two adjacency lists alike. -/
theorem apply_mirrored {rule : RewriteRule} {outcome : RewriteOutcome} (hmirrored : g.Mirrored)
    (h : apply g rule = some (g', outcome)) : g'.Mirrored := by
  cases rule with
  | pruneOnFailure target =>
      rw [apply, applyPruneOnFailure] at h
      split at h
      · exact mirrored_of_eq hmirrored (Option.some.inj h)
      · split at h
        · obtain ⟨st, hprune, heq⟩ := Option.map_eq_some_iff.mp h
          exact mirrored_of_eq (pruneNode_mirrored hmirrored hprune) heq
        · exact mirrored_of_eq hmirrored (Option.some.inj h)
  | insertBetween predecessor successor newNode commCostBefore commCostAfter =>
      refine mirrored_of_eq ?_ (Option.some.inj h)
      exact DynamicTaskGraph.addEdge_mirrored (DynamicTaskGraph.addEdge_mirrored
        (DynamicTaskGraph.insertNode_mirrored (DynamicTaskGraph.removeEdge_mirrored hmirrored)))
  | substituteOnFailure failedNode nodes edges entry exit =>
      rw [apply, applySubstituteOnFailure] at h
      split at h
      · exact mirrored_of_eq hmirrored (Option.some.inj h)
      · split at h
        · exact mirrored_of_eq hmirrored (Option.some.inj h)
        · exact substitute_mirrored hmirrored h
  | addRedundantBranch originalNode redundantNode =>
      refine mirrored_of_eq ?_ (Option.some.inj h)
      exact (wireAll_wires _ _ _ _).mirrored ((wireAll_wires _ _ _ _).mirrored
        (DynamicTaskGraph.insertNode_mirrored hmirrored))
  | breakDependency source target =>
      exact mirrored_of_eq (DynamicTaskGraph.removeEdge_mirrored hmirrored) (Option.some.inj h)
  | pruneAllFailed =>
      rw [apply, applyPruneAllFailed] at h
      split at h
      · exact mirrored_of_eq hmirrored (Option.some.inj h)
      · obtain ⟨st, hprune, heq⟩ := Option.map_eq_some_iff.mp h
        have hstart : (g, ([] : List NodeId)).1.Mirrored := hmirrored
        exact mirrored_of_eq (pruneAll_mirrored hstart hprune) heq
  | humanEscalation target reason channel => exact humanEscalation_mirrored hmirrored h

/-- The graphs that the operations build. -/
inductive Reachable : DynamicTaskGraph → Prop where
  | new : Reachable .new
  | insertNode {g : DynamicTaskGraph} (h : Reachable g) (node : TaskNode) :
      Reachable (g.insertNode node)
  | addEdge {g : DynamicTaskGraph} (h : Reachable g) (source target : NodeId) (cost : ℚ) :
      Reachable (g.addEdge source target cost)
  | removeEdge {g : DynamicTaskGraph} (h : Reachable g) (source target : NodeId) :
      Reachable (g.removeEdge source target)
  | pruneNode {g : DynamicTaskGraph} {st : DynamicTaskGraph × List NodeId} {id : NodeId}
      (h : Reachable g) (hprune : g.pruneNode id = some st) : Reachable st.1
  | mark {g : DynamicTaskGraph} (h : Reachable g) (m : StatusMark) : Reachable (mark g m)
  | apply {g g' : DynamicTaskGraph} {rule : RewriteRule} {outcome : RewriteOutcome}
      (h : Reachable g) (happly : apply g rule = some (g', outcome)) : Reachable g'

theorem Reachable.mirrored (h : Reachable g) : g.Mirrored := by
  induction h with
  | new => exact fun _ _ => iff_of_false List.not_mem_nil List.not_mem_nil
  | insertNode h node ih => exact DynamicTaskGraph.insertNode_mirrored ih
  | addEdge h source target cost ih => exact DynamicTaskGraph.addEdge_mirrored ih
  | removeEdge h source target ih => exact DynamicTaskGraph.removeEdge_mirrored ih
  | pruneNode h hprune ih => exact pruneNode_mirrored ih hprune
  | mark h m ih => exact (mark_sameEdges _ m).mirrored ih
  | apply h happly ih => exact apply_mirrored ih happly

/-! ### The two rules -/

/-- An edge from one node to another closes no cycle. -/
theorem acyclic_edge {m n : NodeId} (hne : m ≠ n) : Acyclic fun a b => (a, b) = (m, n) := by
  intro a h
  obtain ⟨b, hab, -⟩ := TransGen.head'_iff.mp h
  obtain ⟨c, -, hca⟩ := TransGen.tail'_iff.mp h
  exact hne ((Prod.mk.inj hab).1.symm.trans (Prod.mk.inj hca).2)

/-- **A replacement takes the place of a failed node** exactly if nothing pending is stranded, its
edges close no cycle across its border, a human is not asked where something before the node is
gone, and the exit ends without completing only where what waits for it is held back anyway. -/
theorem substitutions_keep_iff (hmirrored : g.Mirrored) (hacyclic : Acyclic g.Edge)
    (hfailed : g.statusOf f = some .failed) :
    (∀ nodes edges entry exit, (∀ node ∈ nodes, Fresh g node.id) →
      Acyclic (fun a b => ∃ cost, (a, b, cost) ∈ edges) →
      entry ∈ nodes.map (·.id) → exit ∈ nodes.map (·.id) →
      ∃ g' outcome, apply g (.substituteOnFailure f nodes edges entry exit) = some (g', outcome) ∧
        ∀ marks, Keeps g g' f entry exit marks ↔ NoneStranded g f ∧
          BorderFits g f entry exit nodes (fun a b => ∃ cost, (a, b, cost) ∈ edges)
            (fun p => g.Edge p f) ∧
          ∀ earlier, earlier <+: marks →
            HeldBack g f exit nodes (fun a b => ∃ cost, (a, b, cost) ∈ edges) earlier) ∧
    ∀ reason channel, (∀ node ∈ escalationNodes f reason channel, Fresh g node.id) →
      ∃ g' outcome, apply g (.humanEscalation f reason channel) = some (g', outcome) ∧
        ∀ marks, Keeps g g' f (notifyId f) (awaitId f) marks ↔ NoneStranded g f ∧
          (∀ p, g.Edge p f → Unpruned g p) ∧
          ∀ earlier, earlier <+: marks → HeldBack g f (awaitId f)
            (escalationNodes f reason channel) (fun a b => (a, b) = (notifyId f, awaitId f))
            earlier := by
  obtain ⟨node, hnode, hstatus⟩ := Option.map_eq_some_iff.mp hfailed
  constructor
  · intro nodes edges entry exit hfresh hedges hentry hexit
    obtain ⟨g', outcome, happly, hreplaces⟩ :=
      substitute_replaces hmirrored hacyclic edges entry exit hfresh (f := f)
    refine ⟨g', outcome, ?_, fun marks => ?_⟩
    · simpa [apply, applySubstituteOnFailure, DynamicTaskGraph.getNode, hnode, hstatus] using happly
    · rw [hreplaces.keeps_iff hacyclic hfresh hedges hentry hexit (fun _ => id)
        (fun _ hp _ => hp), and_iff_right (a := ∀ p, g.Edge p f → g.Edge p f) fun _ => id]
  · intro reason channel hfresh
    obtain ⟨g', outcome, happly, hreplaces⟩ :=
      humanEscalation_replaces hmirrored hacyclic reason channel hnode hfresh
    refine ⟨g', outcome, happly, fun marks => ?_⟩
    have hnotify : notifyId f ∈ (escalationNodes f reason channel).map (·.id) := List.mem_cons_self
    have hawait : awaitId f ∈ (escalationNodes f reason channel).map (·.id) :=
      List.mem_cons_of_mem _ List.mem_cons_self
    have hne := notifyId_ne_awaitId f
    -- the one inner edge has both ends inside
    have hfits : BorderFits g f (notifyId f) (awaitId f) (escalationNodes f reason channel)
        (fun a b => (a, b) = (notifyId f, awaitId f)) (fun p => g.Edge p f ∧ Unpruned g p) := by
      intro u v huv hborder
      obtain ⟨rfl, rfl⟩ := Prod.mk.inj huv
      exact absurd ⟨hnotify, hawait⟩ hborder
    rw [hreplaces.keeps_iff hacyclic hfresh (acyclic_edge hne) hnotify hawait
      (fun _ hp => hp.1) (fun _ _ hin => absurd (Prod.mk.inj hin).2 hne), and_iff_right hfits]
    refine and_congr_right fun _ => and_congr_left' ?_
    exact forall₂_congr fun p hp => and_iff_right hp

/-- A failed task and one that waits for it. -/
def failedChain : DynamicTaskGraph :=
  ((DynamicTaskGraph.new.insertNode (.new "f" "Fetch")).insertNode (.new "s" "Summarise")).addEdge
    "f" "s" 0 |>.markFailed "f" "timeout"

theorem failedChain_reachable : Reachable failedChain :=
  .mark (.addEdge (.insertNode (.insertNode .new _) _) "f" "s" 0) (.failed "f" "timeout")

theorem failedChain_edge : failedChain.Edge a b ↔ (a, b) = ("f", "s") := by
  have hsame : failedChain.forwardEdges = _ := (mark_sameEdges _ (.failed "f" "timeout")).forward
  rw [DynamicTaskGraph.Edge, DynamicTaskGraph.succs, hsame, Prod.ext_iff]
  show DynamicTaskGraph.Edge (.addEdge _ "f" "s" 0) a b ↔ _
  rw [DynamicTaskGraph.addEdge_edge, DynamicTaskGraph.insertNode_edge,
    DynamicTaskGraph.insertNode_edge]
  exact or_iff_right List.not_mem_nil

theorem failedChain_acyclic : Acyclic failedChain.Edge := by
  have heq : failedChain.Edge = fun a b => (a, b) = ("f", "s") := by
    ext a b
    exact failedChain_edge
  rw [heq]
  exact acyclic_edge (by decide)

theorem failedChain_fresh {id : NodeId} (hf : id ≠ "f") (hs : id ≠ "s") : Fresh failedChain id where
  node := by
    rw [failedChain, DynamicTaskGraph.markFailed, DynamicTaskGraph.lookup_updateNode, if_neg hf]
    exact (AList.lookup_insert_ne hs).trans ((AList.lookup_insert_ne hf).trans
      (AList.lookup_empty id))
  source b h := hf (Prod.mk.inj (failedChain_edge.mp h)).1
  target a h := hs (Prod.mk.inj (failedChain_edge.mp h)).2

theorem substitutions_keep_iff_chain :
    (∃ g' outcome,
      apply failedChain (.substituteOnFailure "f" [.new "r" "Fetch again"] [] "r" "r") =
        some (g', outcome) ∧
      ∀ marks, Keeps failedChain g' "f" "r" "r" marks → NoneStranded failedChain "f") ∧
    ∃ g' outcome, apply failedChain (.humanEscalation "f" "no answer" none) = some (g', outcome) ∧
      ∀ marks, Keeps failedChain g' "f" (notifyId "f") (awaitId "f") marks →
        NoneStranded failedChain "f" := by
  have hiff := substitutions_keep_iff failedChain_reachable.mirrored failedChain_acyclic
    (f := "f") (by decide +kernel)
  constructor
  · obtain ⟨g', outcome, happly, hkeeps⟩ := hiff.1 [.new "r" "Fetch again"] [] "r" "r"
      (List.forall_mem_singleton.mpr (failedChain_fresh (by decide) (by decide)))
      (fun a h => by
        obtain ⟨b, ⟨cost, hab⟩, -⟩ := TransGen.head'_iff.mp h
        exact List.not_mem_nil hab)
      (List.mem_singleton.mpr rfl) (List.mem_singleton.mpr rfl)
    exact ⟨g', outcome, happly, fun marks h => ((hkeeps marks).mp h).1⟩
  · have hfresh : ∀ node ∈ escalationNodes "f" "no answer" none, Fresh failedChain node.id := by
      intro node hnode
      rcases List.mem_pair.mp hnode with rfl | rfl
      · exact failedChain_fresh (by decide) (by decide)
      · exact failedChain_fresh (by decide) (by decide)
    obtain ⟨g', outcome, happly, hkeeps⟩ := hiff.2 "no answer" none hfresh
    exact ⟨g', outcome, happly, fun marks h => ((hkeeps marks).mp h).1⟩

/-- **What waited for the failed task is pruned with it**, and never gets to wait for the
replacement. -/
theorem successor_pruned : ∃ g' outcome,
    apply failedChain (.substituteOnFailure "f" [.new "r" "Fetch again"] [] "r" "r") =
      some (g', outcome) ∧ ¬ Keeps failedChain g' "f" "r" "r" [] := by
  have hrun : (apply failedChain (.substituteOnFailure "f" [.new "r" "Fetch again"] [] "r" "r")).map
      (fun st => st.1.statusOf "s") = some (some .pruned) := by decide +kernel
  obtain ⟨⟨g', outcome⟩, happly, hpruned⟩ := Option.map_eq_some_iff.mp hrun
  refine ⟨g', outcome, happly, fun hkeeps => ?_⟩
  have hpending := hkeeps.1.pending "s" (by decide +kernel)
  exact nomatch hpruned.symm.trans hpending

end RewriteRule

end ClawDesk.Planner
