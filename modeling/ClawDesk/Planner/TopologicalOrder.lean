import ClawDesk.Foundations.EdgeList
import ClawDesk.Planner.TaskGraph
import Mathlib.Data.Set.Card

/-!
# Topological orders

Kahn's algorithm takes the ids with nothing before them off a queue, and counts down what is before
the others.  It counts for every id that an edge leads to, but compares the length of its order with
the number of nodes.  So an edge to an id that is no node adds to the order, and an edge from an id
that is no node and that nothing leads to is never taken away: the answer is right exactly under the
condition of `kahn_ordersNodes_iff`.
-/

namespace ClawDesk.Planner

open Foundations
open Foundations.EdgeList (after mem_after)
open Relation

/-- An order in which hash maps are iterated. -/
structure Iteration where
  order : List NodeId → List NodeId
  perm : ∀ ids, (order ids).Perm ids

namespace DynamicTaskGraph

/-- How many edges lead to an id. -/
abbrev InDegrees := AList fun _ : NodeId => ℕ

/-- `*in_degree.entry(target).or_insert(0) += 1`. -/
def countTarget (degrees : InDegrees) (target : NodeId) : InDegrees :=
  degrees.insert target ((degrees.lookup target).getD 0 + 1)

/-- The nodes, and the ids that edges lead to. -/
def inDegrees (g : DynamicTaskGraph) : InDegrees :=
  let nodes : InDegrees := g.nodes.keys.foldl (fun degrees id =>
    degrees.insert id ((degrees.lookup id).getD 0)) ∅
  g.forwardEdges.entries.foldl (fun degrees entry => entry.2.foldl countTarget degrees) nodes

/-- One edge less to a successor, which is queued when it was the last; none if the count would go
below zero. -/
def release (st : InDegrees × List NodeId) (s : NodeId) : Option (InDegrees × List NodeId) :=
  match st.1.lookup s with
  | none => some st
  | some 0 => none
  | some (deg + 1) => some (st.1.insert s deg, if deg = 0 then st.2 ++ [s] else st.2)

/-- Take ids off the queue until it is empty; none if that takes too many rounds. -/
def drain (g : DynamicTaskGraph) :
    ℕ → InDegrees × List NodeId → List NodeId → Option (List NodeId)
  | _, (_, []), order => some order
  | 0, (_, _ :: _), _ => none
  | rounds + 1, (degrees, id :: queue), order =>
      ((g.succs id).foldlM release (degrees, queue)).bind fun st =>
        drain g rounds st (order ++ [id])

/-- `kahn`; none if the loop does not end or a count goes below zero. -/
def kahn (it : Iteration) (g : DynamicTaskGraph) : Option (Except String (List NodeId)) :=
  let degrees := g.inDegrees
  let queue := it.order ((degrees.entries.filter fun entry => entry.2 = 0).map (·.1))
  (g.drain degrees.entries.length (degrees, queue) []).map fun order =>
    if order.length ≠ g.nodes.entries.length then .error "cycle detected in task graph"
    else .ok order

/-! ### The edges as a list -/

variable {g : DynamicTaskGraph} {id s : NodeId} {order : List NodeId}

/-- Every edge, with its two ends. -/
def edgeList (g : DynamicTaskGraph) : List (NodeId × NodeId) :=
  g.forwardEdges.entries.flatMap fun entry => entry.2.map fun target => (entry.1, target)

/-- The edges from one id are those to its successors. -/
theorem after_edgeList (g : DynamicTaskGraph) : after g.edgeList = g.succs := by
  have hentries : ∀ (id : NodeId) (l : List (Sigma fun _ : NodeId => List NodeId)), l.NodupKeys →
      (((l.flatMap fun entry => entry.2.map fun target => (entry.1, target)).filter
        fun e => e.1 = id).map (·.2)) = (l.dlookup id).getD [] := by
    intro id l hl
    induction l with
    | nil => rfl
    | cons entry l ih =>
        obtain ⟨key, targets⟩ := entry
        obtain ⟨hfresh, hrest⟩ := List.nodupKeys_cons.mp hl
        rw [List.flatMap_cons, List.filter_append, List.map_append, ih hrest, List.filter_map,
          List.map_map]
        rcases eq_or_ne id key with rfl | hne
        · rw [List.dlookup_eq_none.mpr hfresh, List.dlookup_cons_eq]
          simp
        · rw [List.dlookup_cons_ne _ _ hne]
          simp [hne.symm]
  funext id
  exact hentries id _ g.forwardEdges.nodupKeys

theorem edge_edgeList (g : DynamicTaskGraph) : EdgeList.Edge g.edgeList = g.Edge := by
  funext x y
  refine propext ?_
  rw [← mem_after, after_edgeList]
  exact Iff.rfl

/-- What the algorithm has a count for. -/
def Known (g : DynamicTaskGraph) (s : NodeId) : Prop :=
  (g.nodes.lookup s).isSome ∨ ∃ x, g.Edge x s

/-- At first every edge counts. -/
theorem counts_inDegrees (g : DynamicTaskGraph) :
    EdgeList.Counts g.edgeList g.Known g.inDegrees [] := by
  have htargets : ∀ degrees : InDegrees,
      g.forwardEdges.entries.foldl (fun degrees entry => entry.2.foldl countTarget degrees)
        degrees = (g.edgeList.map (·.2)).foldl EdgeList.count degrees := by
    intro degrees
    rw [edgeList, List.map_flatMap, List.foldl_flatMap]
    simp only [List.map_map, Function.comp_def, List.map_id']
    rfl
  have hknown : g.Known = fun s => s ∈ g.nodes.keys ∨ ∃ x, EdgeList.Edge g.edgeList x s := by
    ext s
    rw [Known, edge_edgeList, AList.lookup_isSome]
    exact Iff.rfl
  rw [inDegrees, htargets, hknown]
  exact EdgeList.counts_foldl g.nodes.keys g.edgeList

/-! ### The loop -/

theorem drain_eq (rounds : ℕ) (st : InDegrees × List NodeId) (order : List NodeId) :
    g.drain rounds st order = (EdgeList.drain (after g.edgeList) rounds st order).map (·.2) := by
  rw [after_edgeList]
  induction rounds generalizing st order with
  | zero =>
      obtain ⟨degrees, _ | ⟨id, queue⟩⟩ := st <;> rfl
  | succ rounds ih =>
      obtain ⟨degrees, _ | ⟨id, queue⟩⟩ := st
      · rfl
      · rw [drain, EdgeList.drain, Option.map_bind]
        exact congrArg _ (funext fun st => ih st _)

/-- **What the loop puts in order is what is known and not held up.** -/
theorem drain_inDegrees (it : Iteration) (g : DynamicTaskGraph) : ∃ order,
    g.drain g.inDegrees.entries.length (g.inDegrees,
      it.order ((g.inDegrees.entries.filter fun entry => entry.2 = 0).map (·.1))) [] = some order ∧
    order.Nodup ∧ Topological g.Edge order ∧
    ∀ s, s ∈ order ↔ g.Known s ∧ ¬ HeldUp g.Edge g.Known s := by
  have htargets : ∀ x y, EdgeList.Edge g.edgeList x y → g.Known y := fun x y hxy =>
    Or.inr ⟨x, edge_edgeList g ▸ hxy⟩
  obtain ⟨degrees, order, hrun, hnodup, htopological, hmem, -⟩ :=
    EdgeList.drain_spec htargets (counts_inDegrees g) (it.perm _) (List.length_map _).le
  rw [edge_edgeList] at htopological hmem
  refine ⟨order, ?_, hnodup, htopological, hmem⟩
  rw [drain_eq]
  exact congrArg (Option.map (·.2)) hrun

/-! ### When the answer is right -/

/-- There is a node of that id. -/
def IsNode (g : DynamicTaskGraph) (id : NodeId) : Prop := (g.nodes.lookup id).isSome

/-- An edge between nodes. -/
def NodeEdge (g : DynamicTaskGraph) (a b : NodeId) : Prop := g.Edge a b ∧ g.IsNode a ∧ g.IsNode b

/-- The answer is an order of the nodes exactly if the edges between them have no cycle, and in it
the edges lead forward. -/
def OrdersNodes (g : DynamicTaskGraph) (answer : Except String (List NodeId)) : Prop :=
  ((∃ order, answer = .ok order) ↔ Acyclic g.NodeEdge) ∧
    ∀ order, answer = .ok order → order.Perm g.nodes.keys ∧
      ∀ a b, g.NodeEdge a b → order.idxOf a < order.idxOf b

/-- Held up: after a cycle, or after an id that is no node and that nothing leads to. -/
abbrev Blocked (g : DynamicTaskGraph) (id : NodeId) : Prop := HeldUp g.Edge g.Known id

/-- Without a cycle between the nodes, nothing blocks a node, and every other id that an edge leads
to is blocked.  With one, there are not as many such ids that are free as there are nodes that are
blocked. -/
def OrderAgrees (g : DynamicTaskGraph) : Prop :=
  (Acyclic g.NodeEdge → (∀ id, g.IsNode id → ¬ g.Blocked id) ∧
    ∀ id, g.Known id → ¬ g.IsNode id → g.Blocked id) ∧
  (¬ Acyclic g.NodeEdge → { id | g.Known id ∧ ¬ g.IsNode id ∧ ¬ g.Blocked id }.ncard ≠
    { id | g.IsNode id ∧ g.Blocked id }.ncard)

theorem mem_keys_nodes : id ∈ g.nodes.keys ↔ g.IsNode id := AList.lookup_isSome.symm

/-- The order and the nodes are of different numbers if what either has over the other is. -/
theorem length_ne_iff (hnodup : order.Nodup)
    (hmem : ∀ s, s ∈ order ↔ g.Known s ∧ ¬ g.Blocked s) :
    order.length ≠ g.nodes.entries.length ↔
      { id | g.Known id ∧ ¬ g.IsNode id ∧ ¬ g.Blocked id }.ncard ≠
        { id | g.IsNode id ∧ g.Blocked id }.ncard := by
  have hextra : { id | g.Known id ∧ ¬ g.IsNode id ∧ ¬ g.Blocked id } =
      ↑(order.toFinset \ g.nodes.keys.toFinset) := by
    ext id
    simp only [Set.mem_ofPred_eq, Finset.coe_sdiff, Set.mem_sdiff, SetLike.mem_coe,
      List.mem_toFinset, hmem, mem_keys_nodes]
    tauto
  have hmissing : { id | g.IsNode id ∧ g.Blocked id } =
      ↑(g.nodes.keys.toFinset \ order.toFinset) := by
    ext id
    have hknown : g.IsNode id → g.Known id := Or.inl
    simp only [Set.mem_ofPred_eq, Finset.coe_sdiff, Set.mem_sdiff, SetLike.mem_coe,
      List.mem_toFinset, hmem, mem_keys_nodes]
    tauto
  have horder := Finset.card_sdiff_add_card_inter order.toFinset g.nodes.keys.toFinset
  have hnodes := Finset.card_sdiff_add_card_inter g.nodes.keys.toFinset order.toFinset
  have hlength : g.nodes.keys.length = g.nodes.entries.length := List.length_map _
  rw [List.toFinset_card_of_nodup hnodup] at horder
  rw [List.toFinset_card_of_nodup g.nodes.keys_nodup, Finset.inter_comm] at hnodes
  rw [hextra, hmissing, Set.ncard_coe_finset, Set.ncard_coe_finset]
  omega

/-- **Kahn's algorithm orders the nodes exactly if what it counts besides them does not matter.** -/
theorem kahn_ordersNodes_iff (it : Iteration) (g : DynamicTaskGraph) :
    ∃ answer, kahn it g = some answer ∧ (g.OrdersNodes answer ↔ g.OrderAgrees) := by
  obtain ⟨order, hrun, hnodup, htopological, hmem⟩ := drain_inDegrees it g
  refine ⟨if order.length ≠ g.nodes.entries.length then .error "cycle detected in task graph"
    else .ok order, congrArg (Option.map _) hrun, ?_⟩
  by_cases hacyclic : Acyclic g.NodeEdge
  · rw [OrderAgrees, and_iff_left (absurd hacyclic), forall_prop_of_true hacyclic]
    constructor
    · rintro ⟨hok, hordered⟩
      obtain ⟨order', horder'⟩ := hok.mpr hacyclic
      have hperm := (hordered order' horder').1
      split at horder'
      · cases horder'
      · obtain rfl := Except.ok.inj horder'
        have hiff : ∀ id, g.IsNode id ↔ g.Known id ∧ ¬ g.Blocked id := fun id => by
          rw [← hmem, hperm.mem_iff, mem_keys_nodes]
        refine ⟨fun id hid => ((hiff id).mp hid).2, fun id hknown hid => ?_⟩
        by_contra hfree
        exact hid ((hiff id).mpr ⟨hknown, hfree⟩)
    · rintro ⟨hfree, hblocked⟩
      have hperm : order.Perm g.nodes.keys := by
        refine (List.perm_ext_iff_of_nodup hnodup g.nodes.keys_nodup).mpr fun id => ?_
        rw [hmem, mem_keys_nodes]
        constructor
        · rintro ⟨hknown, hid⟩
          by_contra hnot
          exact hid (hblocked id hknown hnot)
        · exact fun hid => ⟨Or.inl hid, hfree id hid⟩
      have hlength : order.length = g.nodes.entries.length :=
        hperm.length_eq.trans (List.length_map _)
      rw [if_neg (not_not_intro hlength)]
      refine ⟨iff_of_true ⟨order, rfl⟩ hacyclic, fun order' horder' => ?_⟩
      obtain rfl := Except.ok.inj horder'
      refine ⟨hperm, fun a b hab => htopological.idxOf_lt hnodup ?_ hab.1⟩
      exact hperm.mem_iff.mpr (mem_keys_nodes.mpr hab.2.2)
  · rw [OrderAgrees, and_iff_right fun h => absurd h hacyclic, forall_prop_of_true hacyclic,
      ← length_ne_iff hnodup hmem]
    constructor
    · rintro ⟨hok, -⟩ hlength
      exact hacyclic (hok.mp ⟨order, if_neg (not_not_intro hlength)⟩)
    · intro hlength
      rw [if_pos hlength]
      exact ⟨iff_of_false (fun ⟨_, h⟩ => nomatch h) hacyclic, fun _ h => nomatch h⟩

/-- A task before an id that is no node, and a task that waits for itself. -/
def ghostGraph : DynamicTaskGraph :=
  ((DynamicTaskGraph.new.insertNode (.new "a" "Fetch")).insertNode (.new "b" "Read")).addEdge
    "a" "ghost" 0 |>.addEdge "b" "b" 0

/-- **What is no node makes up for a node on a cycle.** -/
theorem kahn_orders_ghost :
    kahn ⟨fun ids => ids, fun _ => .refl _⟩ ghostGraph = some (.ok ["a", "ghost"]) ∧
      ¬ ghostGraph.OrdersNodes (.ok ["a", "ghost"]) := by
  constructor
  · decide +kernel
  · rintro ⟨-, hordered⟩
    have hmem := (hordered _ rfl).1.mem_iff.mp (List.mem_cons_of_mem "a" List.mem_cons_self)
    exact absurd hmem (by decide +kernel)

end DynamicTaskGraph

end ClawDesk.Planner
