import ClawDesk.Planner.Rewrite
import Mathlib.Order.Bounds.Defs
import Mathlib.Order.SetNotation

/-!
# What a pruning takes along

The least set that holds a node and takes in whatever comes after a member with nothing live before
it that is outside, but nothing that was pruned before, is what a pruning goes through
(`stranded_isLeast`).  The nodes in it are the nodes that are pruned.

An id that is an end of an edge and no node is gone through without being marked, so a pruning that
comes to a circle of such ids does not end, and every other one does (`pruneNode_isSome_iff`).
-/

namespace ClawDesk.Planner

open Foundations (Acyclic Cascade)

namespace DynamicTaskGraph

variable {g : DynamicTaskGraph} {id x y : NodeId}

/-! ### The least set -/

/-- The node is not terminal, or is completed. -/
def Live (g : DynamicTaskGraph) (id : NodeId) : Prop :=
  ∃ status, g.statusOf id = some status ∧ (status.IsOpen ∨ status = .completed)

/-- The set holds the node, and of what comes after a member with nothing live before it outside
the set all but what is left out. -/
structure PruneClosed (g : DynamicTaskGraph) (leftOut : Set NodeId) (id : NodeId)
    (S : Set NodeId) : Prop where
  start : id ∈ S
  succ : ∀ x ∈ S, ∀ y, g.Edge x y → y ∉ leftOut → (∀ p ∈ g.preds y, g.Live p → p ∈ S) → y ∈ S

/-- What has been pruned before. -/
def prunedSet (g : DynamicTaskGraph) : Set NodeId := { x | g.statusOf x = some .pruned }

theorem live_iff_isDead : g.Live x ↔ g.isDead x = false := by
  rw [Live, statusOf, isDead]
  cases g.nodes.lookup x with
  | none => simp
  | some n => cases hstatus : n.status <;> simp [TaskNode.isTerminal, NodeStatus.IsOpen, hstatus]

theorem cascade_closed_iff : g.cascade.closed x = false ↔ x ∉ g.prunedSet := by
  show (g.nodes.lookup x).any (·.status = .pruned) = false ↔ ¬ g.statusOf x = some .pruned
  rw [statusOf]
  cases g.nodes.lookup x <;> simp

/-- **What the cascade reaches is the least such set.** -/
theorem stranded_isLeast (hid : id ∉ g.prunedSet) :
    IsLeast { S | g.PruneClosed g.prunedSet id S } { x | g.Stranded id x } := by
  constructor
  · refine ⟨Cascade.Reached.start (cascade_closed_iff.mpr hid), fun x hx y hedge hy hpreds => ?_⟩
    exact Cascade.Reached.step hx hedge (fun p hp hdead => hpreds p hp (live_iff_isDead.mpr hdead))
      (cascade_closed_iff.mpr hy)
  · intro S hS x hx
    induction hx with
    | start => exact hS.start
    | step _ hedge _ hclosed ih ihpreds =>
        exact hS.succ _ ih _ hedge (cascade_closed_iff.mp hclosed)
          fun p hp hlive => ihpreds p hp (live_iff_isDead.mp hlive)

/-! ### Where a pruning ends -/

/-- The id is gone through, and is no node. -/
def Hollow (g : DynamicTaskGraph) (id x : NodeId) : Prop :=
  g.Stranded id x ∧ g.nodes.lookup x = none

/-- An edge from one such id to another. -/
def HollowEdge (g : DynamicTaskGraph) (id x y : NodeId) : Prop :=
  g.Edge x y ∧ g.Hollow id x ∧ g.Hollow id y

theorem passage_eq : g.cascade.Passage id = g.HollowEdge id := by
  have hsolid : ∀ x, g.cascade.solid x = false ↔ g.nodes.lookup x = none := fun x =>
    Option.isSome_eq_false_iff.trans Option.isNone_iff_eq_none
  ext x y
  exact and_congr_right' (and_congr (and_congr_right' (hsolid x)) (and_congr_right' (hsolid y)))

theorem visit_isSome_iff (hmirrored : g.Mirrored) (hid : (g.nodes.lookup id).isSome) :
    (g.cascade.visit g.maxDepth id []).isSome = true ↔ Acyclic (g.HollowEdge id) := by
  have hdepth : (g.forwardEdges.keys.toFinset.card + 1) *
      (g.forwardEdges.keys.toFinset.card + 1) ≤ g.maxDepth := by
    have hlength := Nat.succ_le_succ (@card_keys_le g)
    rw [maxDepth, sq]
    exact (Nat.mul_self_le_mul_self hlength).trans (Nat.le_succ _)
  rw [← passage_eq]
  exact Cascade.visit_isSome_iff (fun _ _ => mem_keys_of_edge) (cascade_mirrored hmirrored) hid
    hdepth

/-- **A pruning ends exactly if it comes to no circle of ids that are no nodes.** -/
theorem pruneNode_isSome_iff (hmirrored : g.Mirrored) (hid : (g.nodes.lookup id).isSome) :
    (g.pruneNode id).isSome = true ↔ Acyclic (g.HollowEdge id) := by
  rw [← visit_isSome_iff hmirrored hid, pruneNode, Option.isSome_map]
  show (pruneRecursive g.maxDepth id (g.visitedState [])).isSome = true ↔ _
  rw [pruneRecursive_eq, Option.isSome_map]

/-! ### What a pruning does -/

/-- One graph is another with some of its nodes pruned. -/
structure Prunes (g g' : DynamicTaskGraph) (pruned : List NodeId) : Prop where
  sameEdges : SameEdges g g'
  lookup : ∀ x, g'.nodes.lookup x =
    if x ∈ pruned then (g.nodes.lookup x).map .prune else g.nodes.lookup x

theorem Prunes.statusOf {g' : DynamicTaskGraph} {pruned : List NodeId} (h : Prunes g g' pruned)
    (x : NodeId) : g'.statusOf x =
      if x ∈ pruned then (g.statusOf x).map fun _ => .pruned else g.statusOf x := by
  rw [DynamicTaskGraph.statusOf, h.lookup]
  split
  · rw [DynamicTaskGraph.statusOf, Option.map_map, Option.map_map]
    rfl
  · rfl

/-- A pruning that ends lists the stranded nodes, each once, and they are what is pruned. -/
theorem pruneNode_prunes (hmirrored : g.Mirrored)
    (hends : (g.cascade.visit g.maxDepth id []).isSome) :
    ∃ g' pruned, g.pruneNode id = some (g', pruned) ∧ Prunes g g' pruned ∧ pruned.Nodup ∧
      ∀ x, x ∈ pruned ↔ g.Stranded id x ∧ (g.nodes.lookup x).isSome := by
  obtain ⟨ids, hids⟩ := Option.isSome_iff_exists.mp hends
  have hmem : ∀ x, x ∈ ids ↔ g.Stranded id x := fun x =>
    Cascade.mem_visit_iff (cascade_mirrored hmirrored) hids
  have hlisted : ∀ x, x ∈ (g.visitedState ids).2 ↔ g.Stranded id x ∧ (g.nodes.lookup x).isSome := by
    intro x
    rw [visitedState, List.mem_filter, List.mem_reverse, hmem]
  have hrun := pruneRecursive_eq (g := g) g.maxDepth id []
  rw [hids] at hrun
  refine ⟨_, _, congrArg _ hrun, ⟨?_, fun x => ?_⟩, ?_, hlisted⟩
  · exact ⟨(withPruned_sameEdges ids).forward, (withPruned_sameEdges ids).reverse,
      (withPruned_sameEdges ids).costs⟩
  · show (g.withPruned ids).nodes.lookup x = _
    rw [lookup_withPruned]
    cases hnode : g.nodes.lookup x with
    | none => rw [Option.map_none, ite_self, ite_self]
    | some node =>
        have hin : x ∈ (g.visitedState ids).2 ↔ x ∈ ids := by
          rw [hlisted, hmem, hnode, and_iff_left (Option.isSome_some)]
        rw [if_congr hin rfl rfl]
  · have hstart : (([] : List NodeId).filter g.cascade.solid).Nodup := List.nodup_nil
    rw [visitedState, List.filter_reverse, List.nodup_reverse]
    exact Cascade.visit_nodup hstart hids

/-- Two graphs with the same nodes in the same states and the same edges. -/
structure Alike (g h : DynamicTaskGraph) : Prop where
  statusOf : ∀ x, h.statusOf x = g.statusOf x
  edge : ∀ x y, h.Edge x y ↔ g.Edge x y

section Alike

variable {h : DynamicTaskGraph}

theorem Alike.prunedSet (halike : Alike g h) : h.prunedSet = g.prunedSet := by
  ext x
  exact (halike.statusOf x).congr_left

theorem Alike.isSome (halike : Alike g h) (x : NodeId) :
    (h.nodes.lookup x).isSome = (g.nodes.lookup x).isSome := by
  have heq := congrArg Option.isSome (halike.statusOf x)
  rwa [DynamicTaskGraph.statusOf, DynamicTaskGraph.statusOf, Option.isSome_map,
    Option.isSome_map] at heq

theorem Alike.pruneClosed_iff (halike : Alike g h) (hg : g.Mirrored) (hh : h.Mirrored)
    {S : Set NodeId} : h.PruneClosed h.prunedSet id S ↔ g.PruneClosed g.prunedSet id S := by
  have hlive : ∀ x, h.Live x ↔ g.Live x := fun x => by rw [Live, halike.statusOf, Live]
  have hpreds : ∀ p y, p ∈ h.preds y ↔ p ∈ g.preds y := fun p y =>
    (hh p y).trans ((halike.edge p y).trans (hg p y).symm)
  rw [halike.prunedSet]
  constructor
  · intro hS
    refine ⟨hS.start, fun x hx y hedge hy hin => hS.succ x hx y ((halike.edge x y).mpr hedge) hy ?_⟩
    exact fun p hp hp' => hin p ((hpreds p y).mp hp) ((hlive p).mp hp')
  · intro hS
    refine ⟨hS.start, fun x hx y hedge hy hin => hS.succ x hx y ((halike.edge x y).mp hedge) hy ?_⟩
    exact fun p hp hp' => hin p ((hpreds p y).mpr hp) ((hlive p).mpr hp')

theorem Alike.stranded_iff (halike : Alike g h) (hg : g.Mirrored) (hh : h.Mirrored)
    (hid : id ∉ g.prunedSet) (x : NodeId) : h.Stranded id x ↔ g.Stranded id x := by
  have hclosed :
      { S | h.PruneClosed h.prunedSet id S } = { S | g.PruneClosed g.prunedSet id S } := by
    ext S
    exact halike.pruneClosed_iff hg hh
  have hleast : IsLeast { S | h.PruneClosed h.prunedSet id S } { x | h.Stranded id x } :=
    stranded_isLeast (halike.prunedSet ▸ hid)
  have heq := IsLeast.unique (hclosed ▸ hleast) (stranded_isLeast hid)
  exact Set.ext_iff.mp heq x

theorem Alike.hollowEdge (halike : Alike g h) (hg : g.Mirrored) (hh : h.Mirrored)
    (hid : id ∉ g.prunedSet) : h.HollowEdge id = g.HollowEdge id := by
  have hhollow : ∀ x, h.Hollow id x ↔ g.Hollow id x := fun x => by
    rw [Hollow, Hollow, halike.stranded_iff hg hh hid, ← Option.not_isSome_iff_eq_none,
      ← Option.not_isSome_iff_eq_none, halike.isSome]
  ext x y
  exact and_congr (halike.edge x y) (and_congr (hhollow x) (hhollow y))

/-- The same pruned in both. -/
theorem Alike.prunes {g' h' : DynamicTaskGraph} {pruned pruned' : List NodeId}
    (halike : Alike g h) (hg : Prunes g g' pruned) (hh : Prunes h h' pruned')
    (hsame : ∀ x, x ∈ pruned' ↔ x ∈ pruned) : Alike g' h' where
  statusOf x := by
    rw [hh.statusOf, hg.statusOf, halike.statusOf, if_congr (hsame x) rfl rfl]
  edge x y := by
    rw [Edge, succs, hh.sameEdges.forward, Edge, succs, hg.sameEdges.forward]
    exact halike.edge x y

end Alike

/-- **A pruning takes along the least set of what only came after.**  It does so in whatever order
the sets are walked through, and changes nothing else. -/
theorem pruneNode_least (hmirrored : g.Mirrored) (hid : (g.nodes.lookup id).isSome)
    (hfresh : id ∉ g.prunedSet) (hends : Acyclic (g.HollowEdge id)) :
    ∃ S g' pruned, IsLeast { S | g.PruneClosed g.prunedSet id S } S ∧
      g.pruneNode id = some (g', pruned) ∧ Prunes g g' pruned ∧ pruned.Nodup ∧
      (∀ x, x ∈ pruned ↔ x ∈ S ∧ (g.nodes.lookup x).isSome) ∧
      ∀ h, Alike g h → h.Mirrored → ∃ h' pruned', h.pruneNode id = some (h', pruned') ∧
        pruned'.Perm pruned ∧ Alike g' h' := by
  obtain ⟨g', pruned, hrun, hprunes, hnodup, hlisted⟩ :=
    pruneNode_prunes hmirrored ((visit_isSome_iff hmirrored hid).mpr hends)
  refine ⟨_, g', pruned, stranded_isLeast hfresh, hrun, hprunes, hnodup, hlisted, ?_⟩
  intro h halike hmirrored'
  have hid' : (h.nodes.lookup id).isSome := (halike.isSome id).trans hid
  have hends' : Acyclic (h.HollowEdge id) := by
    rwa [halike.hollowEdge hmirrored hmirrored' hfresh]
  obtain ⟨h', pruned', hrun', hprunes', hnodup', hlisted'⟩ :=
    pruneNode_prunes hmirrored' ((visit_isSome_iff hmirrored' hid').mpr hends')
  have hsame : ∀ x, x ∈ pruned' ↔ x ∈ pruned := fun x => by
    rw [hlisted', hlisted, halike.stranded_iff hmirrored hmirrored' hfresh, halike.isSome]
  exact ⟨h', pruned', hrun', (List.perm_ext_iff_of_nodup hnodup' hnodup).mpr hsame,
    halike.prunes hprunes hprunes' hsame⟩

/-- A task, one that waits for it, and one that waits for the second and for a third. -/
def waitingPair : DynamicTaskGraph :=
  let g := (DynamicTaskGraph.new.insertNode (.new "a" "Fetch")).insertNode (.new "b" "Read")
  let g := (g.insertNode (.new "c" "Summarise")).insertNode (.new "d" "Check")
  ((g.addEdge "a" "b" 0).addEdge "b" "c" 0).addEdge "d" "c" 0

/-- The second is pruned, and the third fails later. -/
def prunedBetween : Option DynamicTaskGraph :=
  (waitingPair.pruneNode "b").map fun st => st.1.markFailed "d" "timeout"

theorem waitingPair_reachable : RewriteRule.Reachable waitingPair :=
  .addEdge (.addEdge (.addEdge (.insertNode (.insertNode (.insertNode (.insertNode .new _) _) _) _)
    "a" "b" 0) "b" "c" 0) "d" "c" 0

theorem pruneNode_least_waitingPair :
    (waitingPair.nodes.lookup "a").isSome ∧ "a" ∉ waitingPair.prunedSet ∧
      Acyclic (waitingPair.HollowEdge "a") ∧
      ∃ S g' pruned, IsLeast { S | waitingPair.PruneClosed waitingPair.prunedSet "a" S } S ∧
        waitingPair.pruneNode "a" = some (g', pruned) ∧
        ∀ x, x ∈ pruned ↔ x ∈ S ∧ (waitingPair.nodes.lookup x).isSome := by
  have hid : (waitingPair.nodes.lookup "a").isSome := by decide +kernel
  have hfresh : "a" ∉ waitingPair.prunedSet := by
    show ¬ waitingPair.statusOf "a" = some .pruned
    decide +kernel
  have hends : Acyclic (waitingPair.HollowEdge "a") :=
    (pruneNode_isSome_iff waitingPair_reachable.mirrored hid).mp (by decide +kernel)
  obtain ⟨S, g', pruned, hleast, hrun, -, -, hlisted, -⟩ :=
    pruneNode_least waitingPair_reachable.mirrored hid hfresh hends
  exact ⟨hid, hfresh, hends, S, g', pruned, hleast, hrun, hlisted⟩

/-- **A pruning stops at what was pruned before**, and leaves alone what comes after that, though
nothing before it is alive any more. -/
theorem pruneNode_stops_at_pruned : ∃ g id g' pruned, RewriteRule.Reachable g ∧
    (g.nodes.lookup id).isSome ∧ id ∉ g.prunedSet ∧ Acyclic (g.HollowEdge id) ∧
    g.pruneNode id = some (g', pruned) ∧
    ∀ S, g.PruneClosed ∅ id S → ¬ ∀ x ∈ S, g'.statusOf x = some .pruned := by
  have hrun : (prunedBetween.bind fun g => (g.pruneNode "a").map fun st =>
      decide (("b" ∈ g.succs "a" ∧ "c" ∈ g.succs "b" ∧ g.preds "b" = ["a"] ∧
        g.preds "c" = ["d", "b"]) ∧ (g.statusOf "a" = some .pending ∧
        g.statusOf "b" = some .pruned ∧ g.statusOf "d" = some .failed) ∧
        st.1.statusOf "c" = some .pending)) = some true := by
    decide +kernel
  obtain ⟨g, hg, hrun⟩ := Option.bind_eq_some_iff.mp hrun
  obtain ⟨⟨g', pruned⟩, hprune, hfacts⟩ := Option.map_eq_some_iff.mp hrun
  obtain ⟨⟨hab, hbc, hb, hc⟩, ⟨hstart, hsecond, hthird⟩, hlast⟩ := of_decide_eq_true hfacts
  have hreachable : RewriteRule.Reachable g := by
    obtain ⟨st, hst, rfl⟩ := Option.map_eq_some_iff.mp hg
    exact .mark (.pruneNode waitingPair_reachable hst) (.failed "d" "timeout")
  have hid : (g.nodes.lookup "a").isSome := by
    obtain ⟨node, hnode, -⟩ := Option.map_eq_some_iff.mp hstart
    rw [hnode, Option.isSome_some]
  refine ⟨g, "a", g', pruned, hreachable, hid, fun h => ?_, ?_, hprune, fun S hS hall => ?_⟩
  · exact nomatch hstart.symm.trans h
  · rw [← pruneNode_isSome_iff hreachable.mirrored hid, hprune, Option.isSome_some]
  · -- the second is in the set, having only the first before it, and so is what comes after it
    have hbS : "b" ∈ S := by
      refine hS.succ "a" hS.start "b" hab (Set.notMem_empty _) fun p hp _ => ?_
      rw [hb] at hp
      exact List.mem_singleton.mp hp ▸ hS.start
    have hcS : "c" ∈ S := by
      refine hS.succ "b" hbS "c" hbc (Set.notMem_empty _) fun p hp hlive => ?_
      rw [hc] at hp
      rcases List.mem_pair.mp hp with rfl | rfl
      · obtain ⟨status, hstatus, hopen⟩ := hlive
        obtain rfl := Option.some.inj (hthird.symm.trans hstatus)
        simp [NodeStatus.IsOpen] at hopen
      · exact hbS
    exact nomatch hlast.symm.trans (hall "c" hcS)

end DynamicTaskGraph

end ClawDesk.Planner
