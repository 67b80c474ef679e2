import ClawDesk.Foundations.Fold
import ClawDesk.Planner.Rewrite
import Mathlib.Logic.Function.Basic

/-!
# Executors of a task graph

Executors ask which tasks are ready, start some of those, and report what has become of
them, while the graph is edited, by the planner or by a rewriting rule, which is a number of
edits (`apply_edits`).  None of these looks at what the others have done: the marks are set
whatever the status was, and a task that was ready when an executor asked is started
whatever has happened since.

`Conforms` says what a step must not do: start a task with something before it that is
neither completed nor pruned, make such a start possible, or take a pruned task back.  The
steps that do are told by the state before them (`executors_conform_iff`).
-/

namespace ClawDesk.Planner

open Foundations (Json EachStep eachStep_congr)

/-! ### Edits -/

/-- A change that the planner makes. -/
inductive GraphEdit where
  | insertNode (node : TaskNode)
  | addEdge (source target : NodeId) (commCost : ℚ)
  | removeEdge (source target : NodeId)
  | pruneNode (id : NodeId)

namespace GraphEdit

/-- The graph after it; a pruning that does not end is never seen to have done anything. -/
def run (g : DynamicTaskGraph) : GraphEdit → DynamicTaskGraph
  | insertNode node => g.insertNode node
  | addEdge source target commCost => g.addEdge source target commCost
  | removeEdge source target => g.removeEdge source target
  | pruneNode id => ((g.pruneNode id).map Prod.fst).getD g

end GraphEdit

/-- One graph comes from another by edits. -/
def Edited (g g' : DynamicTaskGraph) : Prop :=
  ∃ edits : List GraphEdit, g' = edits.foldl GraphEdit.run g

section Edited

variable {g g' g'' : DynamicTaskGraph}

theorem Edited.refl (g : DynamicTaskGraph) : Edited g g := ⟨[], rfl⟩

theorem Edited.trans (h : Edited g g') (h' : Edited g' g'') : Edited g g'' := by
  obtain ⟨edits, rfl⟩ := h
  obtain ⟨edits', rfl⟩ := h'
  exact ⟨edits ++ edits', List.foldl_append.symm⟩

theorem Edited.single (edit : GraphEdit) : Edited g (edit.run g) := ⟨[edit], rfl⟩

theorem edited_insertNode (node : TaskNode) : Edited g (g.insertNode node) :=
  .single (.insertNode node)

theorem edited_pruneNode {id : NodeId} {st : DynamicTaskGraph × List NodeId}
    (h : g.pruneNode id = some st) : Edited g st.1 := by
  have hrun : GraphEdit.run g (.pruneNode id) = st.1 := by
    rw [GraphEdit.run, h, Option.map_some, Option.getD_some]
  exact hrun ▸ .single (.pruneNode id)

theorem edited_insertNodes (nodes : List TaskNode) : Edited g (nodes.foldl .insertNode g) := by
  induction nodes generalizing g with
  | nil => exact .refl g
  | cons node nodes ih => exact (edited_insertNode node).trans ih

/-- A loop that edits in each round. -/
theorem edited_foldl {α : Type} {f : RewriteRule.Wiring → α → RewriteRule.Wiring}
    (hf : ∀ st a, Edited st.1 (f st a).1) (as : List α) (st : RewriteRule.Wiring) :
    Edited st.1 (as.foldl f st).1 := by
  induction as generalizing st with
  | nil => exact .refl _
  | cons a as ih => exact (hf st a).trans (ih _)

theorem edited_addWire (st : RewriteRule.Wiring) (edge : NodeId × NodeId) (cost : ℚ) :
    Edited st.1 (RewriteRule.addWire st edge cost).1 :=
  .single (.addEdge edge.1 edge.2 cost)

theorem edited_wireAll (edge : NodeId → NodeId × NodeId) (cost : ℚ) (ids : List NodeId)
    (st : RewriteRule.Wiring) : Edited st.1 (RewriteRule.wireAll edge cost ids st).1 :=
  edited_foldl (fun st id => edited_addWire st (edge id) cost) ids st

theorem edited_wireUnpruned (edge : NodeId → NodeId × NodeId) (cost : ℚ) (ids : List NodeId)
    (st : RewriteRule.Wiring) : Edited st.1 (RewriteRule.wireUnpruned edge cost ids st).1 := by
  refine edited_foldl (fun st id => ?_) ids st
  split
  · exact .refl _
  · split
    · exact edited_addWire st (edge id) cost
    · exact .refl _

theorem edited_addWires (edges : List (NodeId × NodeId × ℚ)) (st : RewriteRule.Wiring) :
    Edited st.1 (edges.foldl (fun st e => RewriteRule.addWire st (e.1, e.2.1) e.2.2) st).1 :=
  edited_foldl (fun st e => edited_addWire st (e.1, e.2.1) e.2.2) edges st

theorem edited_pruneAll {ids : List NodeId} {st st' : DynamicTaskGraph × List NodeId}
    (h : ids.foldlM (fun (st : DynamicTaskGraph × List NodeId) f =>
      (st.1.pruneNode f).map fun st' => (st'.1, st.2 ++ st'.2)) st = some st') :
    Edited st.1 st'.1 := by
  induction ids generalizing st with
  | nil =>
      obtain rfl := Option.some.inj h
      exact .refl _
  | cons id ids ih =>
      rw [List.foldlM_cons] at h
      obtain ⟨between, hfirst, hrest⟩ := Option.bind_eq_some_iff.mp h
      obtain ⟨st'', hprune, rfl⟩ := Option.map_eq_some_iff.mp hfirst
      have hedited : Edited (st''.1, st.2 ++ st''.2).1 st'.1 := ih hrest
      exact (edited_pruneNode hprune).trans hedited

theorem edited_of_eq {st : DynamicTaskGraph} {outcome outcome' : RewriteOutcome}
    (hedited : Edited g st) (h : (st, outcome) = (g', outcome')) : Edited g g' :=
  (Prod.mk.inj h).1 ▸ hedited

/-- **A rewriting rule is a number of edits.** -/
theorem apply_edits {rule : RewriteRule} {outcome : RewriteOutcome}
    (h : RewriteRule.apply g rule = some (g', outcome)) : Edited g g' := by
  cases rule with
  | pruneOnFailure target =>
      rw [RewriteRule.apply, RewriteRule.applyPruneOnFailure] at h
      split at h
      · exact edited_of_eq (.refl g) (Option.some.inj h)
      · split at h
        · obtain ⟨st, hprune, heq⟩ := Option.map_eq_some_iff.mp h
          exact edited_of_eq (edited_pruneNode hprune) heq
        · exact edited_of_eq (.refl g) (Option.some.inj h)
  | insertBetween predecessor successor newNode commCostBefore commCostAfter =>
      refine edited_of_eq ?_ (Option.some.inj h)
      exact ⟨[.removeEdge predecessor successor, .insertNode newNode,
        .addEdge predecessor newNode.id commCostBefore,
        .addEdge newNode.id successor commCostAfter], rfl⟩
  | substituteOnFailure failedNode nodes edges entry exit =>
      rw [RewriteRule.apply, RewriteRule.applySubstituteOnFailure] at h
      split at h
      · exact edited_of_eq (.refl g) (Option.some.inj h)
      · split at h
        · exact edited_of_eq (.refl g) (Option.some.inj h)
        · obtain ⟨st, hprune, heq⟩ := Option.map_eq_some_iff.mp h
          refine edited_of_eq ?_ heq
          refine (edited_pruneNode hprune).trans ((edited_insertNodes nodes).trans ?_)
          exact (edited_addWires edges (_, [])).trans
            ((edited_wireAll _ _ _ _).trans (edited_wireUnpruned _ _ _ _))
  | addRedundantBranch originalNode redundantNode =>
      refine edited_of_eq ?_ (Option.some.inj h)
      refine (edited_insertNode redundantNode).trans ?_
      exact (edited_wireAll _ _ _ (_, [])).trans (edited_wireAll _ _ _ _)
  | breakDependency source target =>
      exact edited_of_eq (.single (.removeEdge source target)) (Option.some.inj h)
  | pruneAllFailed =>
      rw [RewriteRule.apply, RewriteRule.applyPruneAllFailed] at h
      split at h
      · exact edited_of_eq (.refl g) (Option.some.inj h)
      · obtain ⟨st, hprune, heq⟩ := Option.map_eq_some_iff.mp h
        have hedited : Edited (g, ([] : List NodeId)).1 st.1 := edited_pruneAll hprune
        exact edited_of_eq hedited heq
  | humanEscalation target reason channel =>
      rw [RewriteRule.apply, RewriteRule.applyHumanEscalation] at h
      split at h
      · exact edited_of_eq (.refl g) (Option.some.inj h)
      · obtain ⟨st, hprune, heq⟩ := Option.map_eq_some_iff.mp h
        refine edited_of_eq ?_ heq
        refine (edited_pruneNode hprune).trans
          ((edited_insertNode (RewriteRule.notifyNode target reason channel)).trans
            ((edited_insertNode (RewriteRule.awaitNode target reason)).trans ?_))
        refine (edited_addWire (_, []) (RewriteRule.notifyId target, RewriteRule.awaitId target)
          0).trans ?_
        exact (edited_wireUnpruned _ _ _ _).trans (edited_wireUnpruned _ _ _ _)

end Edited

/-! ### Runs -/

/-- A step of an executor or of the planner. -/
inductive ExecOp (E : Type) where
  | edit (e : GraphEdit)
  /-- An executor asks for the ready nodes. -/
  | ready (e : E)
  | start (e : E) (id : NodeId)
  | completed (e : E) (id : NodeId) (output : Json)
  | failed (e : E) (id : NodeId) (error : String)

/-- The graph, what each executor has been told is ready and has not started since, and what
it has started and not reported on since. -/
structure Execution (E : Type) where
  graph : DynamicTaskGraph
  offered : E → List NodeId
  running : E → List NodeId

namespace Execution

variable {E : Type}

def new : Execution E := ⟨.new, fun _ => [], fun _ => []⟩

variable [DecidableEq E]

def step (r : Execution E) : ExecOp E → Execution E
  | .edit e => { r with graph := e.run r.graph }
  | .ready e =>
      { r with offered := Function.update r.offered e (r.graph.readyNodes ++ r.offered e) }
  | .start e id =>
      ⟨r.graph.markRunning id, Function.update r.offered e ((r.offered e).filter (· ≠ id)),
        Function.update r.running e (id :: r.running e)⟩
  | .completed e id output =>
      { r with
        graph := r.graph.markCompleted id output
        running := Function.update r.running e ((r.running e).filter (· ≠ id)) }
  | .failed e id error =>
      { r with
        graph := r.graph.markFailed id error
        running := Function.update r.running e ((r.running e).filter (· ≠ id)) }

/-- Executors start what they have been told is ready, and report on what they have started. -/
def Allowed (r : Execution E) : ExecOp E → Prop
  | .start e id => id ∈ r.offered e
  | .completed e id _ | .failed e id _ => id ∈ r.running e
  | .edit _ | .ready _ => True

instance (r : Execution E) : ∀ op, Decidable (r.Allowed op)
  | .start e id => inferInstanceAs (Decidable (id ∈ r.offered e))
  | .completed e id _ => inferInstanceAs (Decidable (id ∈ r.running e))
  | .failed e id _ => inferInstanceAs (Decidable (id ∈ r.running e))
  | .edit _ => isTrue trivial
  | .ready _ => isTrue trivial

end Execution

/-! ### What the executors are to do -/

namespace DynamicTaskGraph

/-- Every node before this one is completed or pruned. -/
def Unblocked (g : DynamicTaskGraph) (id : NodeId) : Prop :=
  ∀ p ∈ g.preds id, ∀ status, g.statusOf p = some status → status = .completed ∨ status = .pruned

/-- What is pruned in one graph is pruned in the other. -/
def KeepsPruned (g g' : DynamicTaskGraph) : Prop :=
  ∀ id, g.statusOf id = some .pruned → g'.statusOf id = some .pruned

end DynamicTaskGraph

namespace Execution

variable {E : Type} [DecidableEq E]

/-- A start finds all that comes before the task completed or pruned, and what is pruned
stays so. -/
def Fair (r : Execution E) (op : ExecOp E) : Prop :=
  (∀ e id, op = .start e id → r.graph.Unblocked id) ∧ r.graph.KeepsPruned (r.step op).graph

/-- Whatever an executor may start now, it finds so. -/
def Startable (r : Execution E) : Prop := ∀ e, ∀ id ∈ r.offered e, r.graph.Unblocked id

/-- The step is fair, and so is every start that may come after it. -/
def Conforms (r : Execution E) (op : ExecOp E) : Prop := r.Fair op ∧ (r.step op).Startable

/-- A task that comes after this one may still be started. -/
def Awaited (r : Execution E) (p : NodeId) : Prop := ∃ e, ∃ id ∈ r.offered e, p ∈ r.graph.preds id

/-- …other than by the start at hand. -/
def AwaitedBesides (r : Execution E) (e : E) (id p : NodeId) : Prop :=
  ∃ e', ∃ id' ∈ r.offered e', ¬ (e' = e ∧ id' = id) ∧ p ∈ r.graph.preds id'

/-- What is asked of a step: no pruned node is marked or inserted anew; what an executor is told
is ready has nothing before it that has failed or is skipped; and of what is before a task that may
be started nothing is started, fails, or is put there that is neither completed nor pruned. -/
def Regular (r : Execution E) : ExecOp E → Prop
  | .edit (.insertNode node) =>
      (r.graph.statusOf node.id = some .pruned → node.status = .pruned) ∧
        (r.Awaited node.id → node.status = .completed ∨ node.status = .pruned)
  | .edit (.addEdge source target _) =>
      (∃ e, target ∈ r.offered e) →
        ∀ status, r.graph.statusOf source = some status → status = .completed ∨ status = .pruned
  | .edit (.removeEdge ..) | .edit (.pruneNode _) => True
  | .ready _ =>
      ∀ id ∈ r.graph.readyNodes, ∀ p ∈ r.graph.preds id,
        r.graph.statusOf p ≠ some .failed ∧ r.graph.statusOf p ≠ some .skipped
  | .start e id => r.graph.statusOf id ≠ some .pruned ∧ ¬ r.AwaitedBesides e id id
  | .completed _ id _ => r.graph.statusOf id ≠ some .pruned
  | .failed _ id _ => r.graph.statusOf id ≠ some .pruned ∧ ¬ r.Awaited id

end Execution

/-! ### What a step does to the statuses -/

namespace DynamicTaskGraph

variable {g g' : DynamicTaskGraph} {id x source target : NodeId} {s : NodeStatus} {node : TaskNode}

/-- One node has a new status, and nothing else is other than before. -/
structure SetsStatus (g g' : DynamicTaskGraph) (x : NodeId) (s : NodeStatus) : Prop where
  preds : ∀ id, g'.preds id = g.preds id
  self : g'.statusOf x = some s
  other : ∀ id, id ≠ x → g'.statusOf id = g.statusOf id

theorem SetsStatus.isSome (h : SetsStatus g g' x s) (hid : (g.statusOf id).isSome) :
    (g'.statusOf id).isSome := by
  rcases eq_or_ne id x with rfl | hne
  · rw [h.self, Option.isSome_some]
  · rwa [h.other id hne]

theorem SetsStatus.keepsPruned_iff (h : SetsStatus g g' x s) :
    KeepsPruned g g' ↔ (g.statusOf x = some .pruned → s = .pruned) := by
  constructor
  · intro hkeeps hpruned
    exact Option.some.inj (h.self.symm.trans (hkeeps x hpruned))
  · intro hs id hpruned
    rcases eq_or_ne id x with rfl | hne
    · rw [h.self, hs hpruned]
    · rwa [h.other id hne]

theorem SetsStatus.unblocked_iff (h : SetsStatus g g' x s) (hid : g.Unblocked id) :
    g'.Unblocked id ↔ (x ∈ g.preds id → s = .completed ∨ s = .pruned) := by
  constructor
  · intro h' hx
    exact h' x (by rwa [h.preds]) s h.self
  · intro hs p hp status hstatus
    rw [h.preds] at hp
    rcases eq_or_ne p x with rfl | hne
    · rw [h.self] at hstatus
      exact Option.some.inj hstatus ▸ hs hp
    · rw [h.other p hne] at hstatus
      exact hid p hp status hstatus

theorem setsStatus_insertNode (g : DynamicTaskGraph) (node : TaskNode) :
    SetsStatus g (g.insertNode node) node.id node.status where
  preds _ := Adjacency.members_orDefault
  self := by
    rw [statusOf, insertNode, AList.lookup_insert]
    rfl
  other id hne := by
    rw [statusOf, insertNode, AList.lookup_insert_ne hne]
    rfl

theorem setsStatus_updateNode {f : TaskNode → TaskNode} (hf : ∀ node, (f node).status = s)
    (hx : (g.statusOf x).isSome) : SetsStatus g (g.updateNode x f) x s where
  preds id := by
    rw [preds, (updateNode_sameEdges f).reverse]
    rfl
  self := by
    obtain ⟨status, hstatus⟩ := Option.isSome_iff_exists.mp hx
    rw [statusOf_updateNode s hf, hstatus, Option.map_some, if_pos rfl]
  other id hne := by
    rw [statusOf_updateNode s hf]
    simp only [if_neg hne, Option.map_id']

theorem mem_preds_addEdge {p : NodeId} {cost : ℚ} : p ∈ (g.addEdge source target cost).preds id ↔
    p ∈ g.preds id ∨ id = target ∧ p = source :=
  Adjacency.mem_add

theorem Unblocked.removeEdge (h : g.Unblocked id) : (g.removeEdge source target).Unblocked id := by
  intro p hp
  exact h p (Adjacency.mem_remove.mp hp).1

/-- Pruning gives some nodes the status of pruned ones, and leaves the rest. -/
theorem statusOf_pruneNode {st : DynamicTaskGraph × List NodeId} (h : g.pruneNode x = some st)
    (id : NodeId) : st.1.statusOf id = g.statusOf id ∨
      (g.statusOf id).isSome ∧ st.1.statusOf id = some .pruned := by
  obtain ⟨st', hrun, rfl⟩ := Option.map_eq_some_iff.mp h
  have heq := pruneRecursive_eq (g := g) g.maxDepth x []
  rw [show g.visitedState [] = (g, []) from rfl, hrun] at heq
  obtain ⟨ids, -, rfl⟩ := Option.map_eq_some_iff.mp heq.symm
  have hlookup := congrArg (Option.map TaskNode.status) (lookup_withPruned (g := g) ids id)
  by_cases hmem : id ∈ ids
  · rw [if_pos hmem] at hlookup
    cases hnode : g.nodes.lookup id with
    | none =>
        left
        rw [hnode] at hlookup
        have hnone : g.statusOf id = none := by
          rw [statusOf, hnode]
          rfl
        rw [hnone]
        exact hlookup
    | some node =>
        right
        rw [hnode] at hlookup
        exact ⟨by rw [statusOf, hnode]; rfl, hlookup⟩
  · left
    rw [if_neg hmem] at hlookup
    exact hlookup

theorem preds_pruneNode {st : DynamicTaskGraph × List NodeId} (h : g.pruneNode x = some st)
    (id : NodeId) : st.1.preds id = g.preds id := by
  rw [preds, (pruneNode_sameEdges h).reverse]
  rfl

theorem Unblocked.pruneNode {st : DynamicTaskGraph × List NodeId} (hid : g.Unblocked id)
    (h : g.pruneNode x = some st) : st.1.Unblocked id := by
  intro p hp status hstatus
  rw [preds_pruneNode h] at hp
  rcases statusOf_pruneNode h p with hsame | ⟨-, hpruned⟩
  · exact hid p hp status (hsame ▸ hstatus)
  · right
    exact Option.some.inj (hstatus.symm.trans hpruned)

theorem keepsPruned_pruneNode {st : DynamicTaskGraph × List NodeId} (h : g.pruneNode x = some st) :
    g.KeepsPruned st.1 := by
  intro id hpruned
  rcases statusOf_pruneNode h id with hsame | ⟨-, hpruned'⟩
  · rwa [hsame]
  · exact hpruned'

/-- A ready node has nothing before it that is still open, so it is what has failed or is
skipped that blocks it. -/
theorem unblocked_iff_of_ready (h : id ∈ g.readyNodes) : g.Unblocked id ↔
    ∀ p ∈ g.preds id, g.statusOf p ≠ some .failed ∧ g.statusOf p ≠ some .skipped := by
  have hclosed := (mem_readyNodes_iff.mp h).2
  constructor
  · intro hid p hp
    constructor
    · intro hfailed
      rcases hid p hp _ hfailed with h | h <;> cases h
    · intro hskipped
      rcases hid p hp _ hskipped with h | h <;> cases h
  · intro hid p hp status hstatus
    obtain ⟨hfailed, hskipped⟩ := hid p hp
    rcases NodeStatus.open_completed_or_gone status with hopen | hcompleted | hgone
    · exact absurd hopen (hclosed p hp status hstatus)
    · exact .inl hcompleted
    · rcases hgone with rfl | rfl | rfl
      · exact absurd hstatus hfailed
      · exact .inr rfl
      · exact absurd hstatus hskipped

end DynamicTaskGraph

/-! ### Regular runs -/

namespace Execution

open DynamicTaskGraph

variable {E : Type} {r : Execution E} {op : ExecOp E} {e : E} {id x : NodeId}
  {g' : DynamicTaskGraph} {s : NodeStatus}

/-- What may be started may rightly be, and is there, as is what runs. -/
structure Inv (r : Execution E) : Prop where
  startable : r.Startable
  offered : ∀ e, ∀ id ∈ r.offered e, (r.graph.statusOf id).isSome
  running : ∀ e, ∀ id ∈ r.running e, (r.graph.statusOf id).isSome

theorem Inv.new : (new : Execution E).Inv where
  startable _ _ h := absurd h List.not_mem_nil
  offered _ _ h := absurd h List.not_mem_nil
  running _ _ h := absurd h List.not_mem_nil

theorem startable_iff (hr : r.Startable) (h : SetsStatus r.graph g' x s) :
    (∀ e, ∀ id ∈ r.offered e, g'.Unblocked id) ↔ (r.Awaited x → s = .completed ∨ s = .pruned) := by
  constructor
  · rintro hall ⟨e, id, hid, hx⟩
    exact (h.unblocked_iff (hr e id hid)).mp (hall e id hid) hx
  · intro hs e id hid
    exact (h.unblocked_iff (hr e id hid)).mpr fun hx => hs ⟨e, id, hid, hx⟩

variable [DecidableEq E]

theorem mem_withdrawn {offered : E → List NodeId} {e' : E} {id' : NodeId} :
    id' ∈ Function.update offered e ((offered e).filter (· ≠ id)) e' ↔
      id' ∈ offered e' ∧ ¬ (e' = e ∧ id' = id) := by
  rcases eq_or_ne e' e with rfl | hne
  · rw [Function.update_self, List.mem_filter, decide_eq_true_iff, eq_self, true_and]
  · rw [Function.update_of_ne hne]
    exact (and_iff_left fun h => hne h.1).symm

theorem mem_offered_ready {e' : E} {id' : NodeId} : id' ∈ (r.step (.ready e)).offered e' ↔
    id' ∈ r.offered e' ∨ e' = e ∧ id' ∈ r.graph.readyNodes := by
  show id' ∈ Function.update r.offered e (r.graph.readyNodes ++ r.offered e) e' ↔ _
  rcases eq_or_ne e' e with rfl | hne
  · rw [Function.update_self, List.mem_append, eq_self, true_and, or_comm]
  · rw [Function.update_of_ne hne]
    exact (or_iff_left fun h => hne h.1).symm

/-- Only a start is to find something. -/
theorem fair_iff_keepsPruned (hop : ∀ e id, op ≠ .start e id) :
    r.Fair op ↔ r.graph.KeepsPruned (r.step op).graph :=
  and_iff_right fun e id h => absurd h (hop e id)

theorem setsStatus_start (h : (r.graph.statusOf id).isSome) :
    SetsStatus r.graph (r.step (.start e id)).graph id .running :=
  setsStatus_updateNode (fun _ => rfl) h

theorem setsStatus_completed {output : Json} (h : (r.graph.statusOf id).isSome) :
    SetsStatus r.graph (r.step (.completed e id output)).graph id .completed :=
  setsStatus_updateNode (fun _ => rfl) h

theorem setsStatus_failed {error : String} (h : (r.graph.statusOf id).isSome) :
    SetsStatus r.graph (r.step (.failed e id error)).graph id .failed :=
  setsStatus_updateNode (fun _ => rfl) h

/-! #### The steps that conform -/

theorem Inv.insertNode_iff (hr : r.Inv) (node : TaskNode) :
    r.Conforms (.edit (.insertNode node)) ↔ r.Regular (.edit (.insertNode node)) := by
  have hsets : SetsStatus r.graph (r.step (.edit (.insertNode node))).graph node.id node.status :=
    setsStatus_insertNode r.graph node
  rw [Conforms, fair_iff_keepsPruned (by rintro _ _ ⟨⟩), hsets.keepsPruned_iff]
  exact and_congr_right fun _ => startable_iff hr.startable hsets

theorem Inv.addEdge_iff (hr : r.Inv) (source target : NodeId) (cost : ℚ) :
    r.Conforms (.edit (.addEdge source target cost)) ↔
      r.Regular (.edit (.addEdge source target cost)) := by
  rw [Conforms, fair_iff_keepsPruned (by rintro _ _ ⟨⟩)]
  have hkeeps : r.graph.KeepsPruned (r.step (.edit (.addEdge source target cost))).graph :=
    fun _ h => h
  refine (and_iff_right hkeeps).trans ?_
  constructor
  · rintro hall ⟨e, htarget⟩ status hstatus
    exact hall e target htarget source (mem_preds_addEdge.mpr (.inr ⟨rfl, rfl⟩)) status hstatus
  · intro hsource e id hid p hp status hstatus
    rcases mem_preds_addEdge.mp hp with hp | ⟨rfl, rfl⟩
    · exact hr.startable e id hid p hp status hstatus
    · exact hsource ⟨e, hid⟩ status hstatus

theorem Inv.ready_iff (hr : r.Inv) (e : E) : r.Conforms (.ready e) ↔ r.Regular (.ready e) := by
  rw [Conforms, fair_iff_keepsPruned (by rintro _ _ ⟨⟩)]
  have hkeeps : r.graph.KeepsPruned (r.step (.ready e)).graph := fun _ h => h
  refine (and_iff_right hkeeps).trans ?_
  constructor
  · intro hall id hid
    have hoffered : id ∈ (r.step (.ready e)).offered e := mem_offered_ready.mpr (.inr ⟨rfl, hid⟩)
    exact (unblocked_iff_of_ready hid).mp (hall e id hoffered)
  · intro hgone e' id hid
    rcases mem_offered_ready.mp hid with hid | ⟨-, hid⟩
    · exact hr.startable e' id hid
    · exact (unblocked_iff_of_ready hid).mpr (hgone id hid)

theorem Inv.start_iff (hr : r.Inv) (hid : id ∈ r.offered e) :
    r.Conforms (.start e id) ↔ r.Regular (.start e id) := by
  have hsets : SetsStatus r.graph (r.step (.start e id)).graph id .running :=
    setsStatus_start (hr.offered e id hid)
  have hfair : r.Fair (.start e id) ↔ r.graph.statusOf id ≠ some .pruned := by
    rw [Fair, hsets.keepsPruned_iff]
    constructor
    · rintro ⟨-, hpruned⟩ h
      cases hpruned h
    · intro hpruned
      refine ⟨?_, fun h => absurd h hpruned⟩
      rintro _ _ ⟨⟩
      exact hr.startable e id hid
  rw [Conforms, hfair]
  refine and_congr_right fun _ => ?_
  constructor
  · rintro hall ⟨e', id', hid', hother, hbefore⟩
    have hunblocked := hall e' id' (mem_withdrawn.mpr ⟨hid', hother⟩)
    rcases (hsets.unblocked_iff (hr.startable e' id' hid')).mp hunblocked hbefore with h | h <;>
      cases h
  · intro hnone e' id' hid'
    obtain ⟨hid', hother⟩ := mem_withdrawn.mp hid'
    exact (hsets.unblocked_iff (hr.startable e' id' hid')).mpr fun hbefore =>
      absurd ⟨e', id', hid', hother, hbefore⟩ hnone

theorem Inv.completed_iff (hr : r.Inv) {output : Json} (hid : id ∈ r.running e) :
    r.Conforms (.completed e id output) ↔ r.Regular (.completed e id output) := by
  have hsets : SetsStatus r.graph (r.step (.completed e id output)).graph id .completed :=
    setsStatus_completed (hr.running e id hid)
  rw [Conforms, fair_iff_keepsPruned (by rintro _ _ ⟨⟩), hsets.keepsPruned_iff]
  have hstartable : (r.step (.completed e id output)).Startable :=
    (startable_iff hr.startable hsets).mpr fun _ => .inl rfl
  rw [and_iff_left hstartable]
  exact imp_iff_not (by rintro ⟨⟩)

theorem Inv.failed_iff (hr : r.Inv) {error : String} (hid : id ∈ r.running e) :
    r.Conforms (.failed e id error) ↔ r.Regular (.failed e id error) := by
  have hsets : SetsStatus r.graph (r.step (.failed e id error)).graph id .failed :=
    setsStatus_failed (hr.running e id hid)
  have hgone : ¬ (NodeStatus.failed = .completed ∨ NodeStatus.failed = .pruned) := by
    rintro (h | h) <;> cases h
  rw [Conforms, fair_iff_keepsPruned (by rintro _ _ ⟨⟩), hsets.keepsPruned_iff]
  refine and_congr (imp_iff_not (by rintro ⟨⟩)) ?_
  exact (startable_iff hr.startable hsets).trans (imp_iff_not hgone)

theorem Inv.conforms_iff_regular (hr : r.Inv) (hallowed : r.Allowed op) :
    r.Conforms op ↔ r.Regular op := by
  cases op with
  | start e id => exact hr.start_iff hallowed
  | completed e id output => exact hr.completed_iff hallowed
  | failed e id error => exact hr.failed_iff hallowed
  | ready e => exact hr.ready_iff e
  | edit edit => cases edit with
    | insertNode node => exact hr.insertNode_iff node
    | addEdge source target cost => exact hr.addEdge_iff source target cost
    | removeEdge source target =>
        refine iff_of_true ⟨(fair_iff_keepsPruned (by rintro _ _ ⟨⟩)).mpr fun _ h => h, ?_⟩ trivial
        intro e id hid
        exact (hr.startable e id hid).removeEdge
    | pruneNode x =>
        refine iff_of_true ?_ trivial
        rw [Conforms, fair_iff_keepsPruned (by rintro _ _ ⟨⟩)]
        cases hprune : r.graph.pruneNode x with
        | none =>
            have hsame : (r.step (.edit (.pruneNode x))) = r := by
              rw [step, GraphEdit.run, hprune]
              rfl
            rw [hsame]
            exact ⟨fun _ h => h, hr.startable⟩
        | some st =>
            have hgraph : (r.step (.edit (.pruneNode x))).graph = st.1 := by
              rw [step, GraphEdit.run, hprune]
              rfl
            refine ⟨hgraph ▸ keepsPruned_pruneNode hprune, fun e id hid => ?_⟩
            rw [hgraph]
            exact (hr.startable e id hid).pruneNode hprune

/-! #### No node is lost -/

theorem isSome_updateNode {g : DynamicTaskGraph} {f : TaskNode → TaskNode}
    (hf : ∀ node, (f node).status = s) (h : (g.statusOf x).isSome) :
    ((g.updateNode id f).statusOf x).isSome := by
  rw [statusOf_updateNode s hf, Option.isSome_map]
  exact h

theorem isSome_step (op : ExecOp E) (h : (r.graph.statusOf x).isSome) :
    ((r.step op).graph.statusOf x).isSome := by
  cases op with
  | start e id => exact isSome_updateNode (fun _ => rfl) h
  | completed e id output => exact isSome_updateNode (fun _ => rfl) h
  | failed e id error => exact isSome_updateNode (fun _ => rfl) h
  | ready e => exact h
  | edit edit => cases edit with
    | insertNode node => exact (setsStatus_insertNode r.graph node).isSome h
    | addEdge source target cost => exact h
    | removeEdge source target => exact h
    | pruneNode id =>
        dsimp only [step, GraphEdit.run]
        cases hprune : r.graph.pruneNode id with
        | none => exact h
        | some st =>
            rcases statusOf_pruneNode hprune x with hsame | ⟨-, hpruned⟩
            · exact hsame ▸ h
            · rw [Option.map_some, Option.getD_some, hpruned, Option.isSome_some]

theorem Inv.step (hr : r.Inv) (hallowed : r.Allowed op) (hregular : r.Regular op) :
    (r.step op).Inv where
  startable := ((hr.conforms_iff_regular hallowed).mpr hregular).2
  offered e id hid := by
    refine isSome_step op ?_
    cases op with
    | edit => exact hr.offered e id hid
    | completed => exact hr.offered e id hid
    | failed => exact hr.offered e id hid
    | start e' id' => exact hr.offered e id (mem_withdrawn.mp hid).1
    | ready e' =>
        rcases mem_offered_ready.mp hid with hid | ⟨-, hid⟩
        · exact hr.offered e id hid
        · rw [(mem_readyNodes_iff.mp hid).1, Option.isSome_some]
  running e id hid := by
    refine isSome_step op ?_
    cases op with
    | edit => exact hr.running e id hid
    | ready => exact hr.running e id hid
    | completed e' id' => exact hr.running e id (mem_withdrawn.mp hid).1
    | failed e' id' => exact hr.running e id (mem_withdrawn.mp hid).1
    | start e' id' =>
        have hstarted : id ∈ Function.update r.running e' (id' :: r.running e') e := hid
        rcases eq_or_ne e e' with rfl | hne
        · rw [Function.update_self] at hstarted
          rcases List.mem_cons.mp hstarted with rfl | hid
          · exact hr.offered e id hallowed
          · exact hr.running e id hid
        · rw [Function.update_of_ne hne] at hstarted
          exact hr.running e id hstarted

end Execution

/-- **Every start, of those that are made and of those that could be, finds what comes before
the task completed or pruned, and what is pruned stays so, just when every step is regular in the
state that it finds.** -/
theorem executors_conform_iff {E : Type} [DecidableEq E] {ops : List (ExecOp E)}
    (hallowed : EachStep Execution.step .new ops Execution.Allowed) :
    EachStep Execution.step .new ops Execution.Conforms ↔
      EachStep Execution.step .new ops Execution.Regular :=
  eachStep_congr Execution.Inv hallowed .new (fun _ _ hr ha h => hr.step ha h)
    (fun _ _ hr ha => hr.conforms_iff_regular ha)

/-! ### A failure that nobody waits for -/

namespace Chain

open Execution

/-- Two tasks, one after the other, of which the first has been started. -/
def started : List (ExecOp Unit) :=
  [.edit (.insertNode (.new "a" "first")), .edit (.insertNode (.new "b" "second")),
    .edit (.addEdge "a" "b" 0), .ready (), .start () "a"]

/-- It completes, and the second is started. -/
def completing : List (ExecOp Unit) :=
  started ++ [.completed () "a" .null, .ready (), .start () "b"]

/-- It fails, the second is started all the same, and completes after the planner has pruned it. -/
def failing : List (ExecOp Unit) :=
  started ++ [.failed () "a" "out of memory", .ready (), .start () "b", .edit (.pruneNode "b"),
    .completed () "b" .null]

def after (ops : List (ExecOp Unit)) : Execution Unit := ops.foldl step new

theorem executors_conform_iff_completing :
    EachStep step new completing Conforms ↔ EachStep step new completing Regular :=
  executors_conform_iff (by decide)

/-- **The second task is started while the first has failed, and a pruned task comes back.** -/
theorem failing_not_fair : EachStep step new failing Allowed ∧
    (after (started ++ [.failed () "a" "out of memory", .ready ()])).graph.statusOf "a" =
      some .failed ∧
    (after failing).graph.statusOf "b" = some .completed ∧ ¬ EachStep step new failing Fair := by
  refine ⟨by decide, by decide, by decide, ?_⟩
  intro h
  have hstart := h (started ++ [.failed () "a" "out of memory", .ready ()]) (.start () "b")
    [.edit (.pruneNode "b"), .completed () "b" .null] rfl
  have hdone := hstart.1 () "b" rfl "a" (by decide) .failed (by decide)
  exact absurd hdone (by decide)

end Chain

end ClawDesk.Planner
