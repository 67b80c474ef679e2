import ClawDesk.Foundations.Intervals
import ClawDesk.Foundations.LongestPath
import ClawDesk.Planner.TaskGraph
import Mathlib.Tactic.Linarith

/-!
# The HEFT scheduler

Nodes are scheduled in the order of their upward ranks, the greatest ways from them to an end of the
graph, each on the processor where it is done first.  What comes after a node has a smaller rank, so
the schedule keeps to the edges (`schedule_feasible`); and no schedule that does, whatever its
order, is done before the lower bound (`lowerBound_le_of_feasible`).

Both the rank and the bound are computed by a recursion that remembers its results
(`memoPath_spec`).
-/

namespace ClawDesk.Planner.HeftScheduler

open Foundations (Acyclic Apart IsLongest Leads furthest)

/-- An edge, with the cost of communication between its ends. -/
abbrev CostEdge := NodeId × NodeId × ℚ

/-! ### Longest ways, computed once -/

/-- What has been computed so far. -/
abbrev Memo := AList fun _ : NodeId => ℚ

/-- `successors.get(id)`. -/
def successors (edges : List CostEdge) (id : NodeId) : List (NodeId × ℚ) :=
  (edges.filter fun e => e.1 = id).map (·.2)

/-- `predecessors.get(id)`. -/
def predecessors (edges : List CostEdge) (id : NodeId) : List (NodeId × ℚ) :=
  (edges.filter fun e => e.2.1 = id).map fun e => (e.1, e.2.2)

/-- `node_map.get(id)`: the last of that id. -/
def nodeMap (nodes : List TaskNode) (id : NodeId) : Option TaskNode :=
  (nodes.filter fun n => n.id = id).getLast?

/-- `.map(f).fold(0.0, f64::max)`, where `f` remembers what it computes. -/
def foldMax {β : Type} (f : β → Memo → Option (ℚ × Memo)) (l : List β) (memo : Memo) :
    Option (ℚ × Memo) :=
  l.foldlM (fun st b => (f b st.2).map fun r => (max st.1 r.1, r.2)) (0, memo)

/-- The weight of a node, and the greatest continuation; none when it runs too deep. -/
def memoPath (weight : NodeId → ℚ) (edges : List CostEdge) :
    ℕ → NodeId → Memo → Option (ℚ × Memo)
  | 0, _, _ => none
  | depth + 1, id, memo =>
      match memo.lookup id with
      | some r => some (r, memo)
      | none =>
          (foldMax (fun succ memo => (memoPath weight edges depth succ.1 memo).map fun r =>
            (succ.2 + r.1, r.2)) (successors edges id) memo).map fun st =>
            (weight id + st.1, st.2.insert id (weight id + st.1))

/-- What a node counts for in a rank. -/
def rankWeight (nodes : List TaskNode) (id : NodeId) : ℚ :=
  ((nodeMap nodes id).map (·.weight)).getD 1

def computeRank (nodes : List TaskNode) (edges : List CostEdge) (id : NodeId) (memo : Memo) :
    Option (ℚ × Memo) :=
  memoPath (rankWeight nodes) edges (edges.length + 1) id memo

/-- What a node counts for in the lower bound. -/
def pathWeight (nodes : List TaskNode) (id : NodeId) : ℚ :=
  ((nodeMap nodes id).map (·.weight)).getD 0

def longestPath (nodes : List TaskNode) (edges : List CostEdge) (id : NodeId) (memo : Memo) :
    Option (ℚ × Memo) :=
  memoPath (pathWeight nodes) edges (edges.length + 1) id memo

/-! ### The schedule -/

/-- An entry of a schedule: the node, its processor and when it starts. -/
structure Assignment where
  id : NodeId
  processor : ℕ
  start : ℚ

/-- Between two nodes. -/
structure Progress where
  processorAvail : List ℚ
  nodeFinish : AList fun _ : NodeId => ℕ × ℚ
  schedule : List Assignment

/-- `f64::MAX`. -/
def f64Max : ℚ := (2 ^ 53 - 1) * 2 ^ 971

/-- When the predecessors of a node are done and have communicated. -/
def predReady (edges : List CostEdge) (st : Progress) (id : NodeId) : ℚ :=
  ((predecessors edges id).map fun pred =>
    ((st.nodeFinish.lookup pred.1).getD (0, 0)).2 + pred.2).foldl max 0

/-- The processor on which the node is done first. -/
def bestProc (st : Progress) (numProcessors : ℕ) (ready w : ℚ) : ℕ :=
  ((List.range numProcessors).foldl (fun (best : ℕ × ℚ) p =>
    let est := max (st.processorAvail.getD p 0) ready
    let eft := est + w
    if eft < best.2 then (p, eft) else best) (0, f64Max)).1

/-- One node is assigned. -/
def assign (nodes : List TaskNode) (edges : List CostEdge) (numProcessors : ℕ) (st : Progress)
    (id : NodeId) : Progress :=
  let w := rankWeight nodes id
  let ready := predReady edges st id
  let proc := bestProc st numProcessors ready w
  let start := max (st.processorAvail.getD proc 0) ready
  { processorAvail := st.processorAvail.set proc (start + w)
    nodeFinish := st.nodeFinish.insert id (proc, start + w)
    schedule := st.schedule ++ [⟨id, proc, start⟩] }

/-- The upward ranks of all nodes. -/
def ranks (nodes : List TaskNode) (edges : List CostEdge) : Option Memo :=
  nodes.foldlM (fun memo node => (computeRank nodes edges node.id memo).map (·.2)) ∅

/-- The nodes by decreasing rank. -/
def sortedNodes (nodes : List TaskNode) (rankU : Memo) : List NodeId :=
  (nodes.map (·.id)).mergeSort fun a b =>
    decide ((rankU.lookup b).getD 0 ≤ (rankU.lookup a).getD 0)

/-- Compute the schedule; none if the ranks cannot be computed. -/
def schedule (nodes : List TaskNode) (edges : List CostEdge) (numProcessors : ℕ) :
    Option (List Assignment) :=
  if nodes.isEmpty || numProcessors = 0 then some []
  else
    (ranks nodes edges).map fun rankU =>
      ((sortedNodes nodes rankU).foldl (assign nodes edges numProcessors)
        ⟨List.replicate numProcessors 0, ∅, []⟩).schedule

/-- The greater of the critical path and the work for each processor. -/
def makespanLowerBound (nodes : List TaskNode) (edges : List CostEdge) (numProcessors : ℕ) :
    Option ℚ :=
  let totalWork := (nodes.map (·.weight)).sum
  let workBound := totalWork / numProcessors
  (foldMax (fun node memo => longestPath nodes edges node.id memo) nodes ∅).map fun critical =>
    max critical.1 workBound

/-! ### The recursion computes the longest ways -/

variable {nodes : List TaskNode} {edges : List CostEdge} {numProcessors : ℕ} {id : NodeId}
  {memo : Memo} {weight length : NodeId → ℚ} {depth : ℕ}

/-- An edge from one id to the other. -/
def Edge (edges : List CostEdge) (a b : NodeId) : Prop := ∃ cost, (a, b, cost) ∈ edges

theorem mem_successors {succ : NodeId × ℚ} : succ ∈ successors edges id ↔ (id, succ) ∈ edges := by
  simp [successors]

theorem mem_predecessors {pred : NodeId} {cost : ℚ} :
    (pred, cost) ∈ predecessors edges id ↔ (pred, id, cost) ∈ edges := by
  simp [predecessors]

theorem leads_eq : Leads (successors edges) = Edge edges := by
  ext a b
  exact exists_congr fun cost => mem_successors

/-- The ids that edges lead from. -/
def sources (edges : List CostEdge) : Finset NodeId := (edges.map (·.1)).toFinset

theorem mem_sources {a b : NodeId} (h : Edge edges a b) : a ∈ sources edges := by
  obtain ⟨cost, hmem⟩ := h
  exact List.mem_toFinset.mpr (List.mem_map.mpr ⟨_, hmem, rfl⟩)

/-- What is remembered is right. -/
def Sound (length : NodeId → ℚ) (memo : Memo) : Prop :=
  ∀ id r, memo.lookup id = some r → r = length id

theorem sound_empty : Sound length ∅ := fun id _ h => nomatch (AList.lookup_empty id).symm.trans h

theorem foldMax_spec {β : Type} {f : β → Memo → Option (ℚ × Memo)} {value : β → ℚ} {l : List β}
    (hf : ∀ b ∈ l, ∀ memo, Sound length memo → ∃ memo', f b memo = some (value b, memo') ∧
      Sound length memo' ∧ memo.keys ⊆ memo'.keys) (hmemo : Sound length memo) :
    ∃ memo', foldMax f l memo = some ((l.map value).foldl max 0, memo') ∧ Sound length memo' ∧
      memo.keys ⊆ memo'.keys := by
  rw [foldMax]
  generalize (0 : ℚ) = greatest
  induction l generalizing greatest memo with
  | nil => exact ⟨memo, rfl, hmemo, List.Subset.refl _⟩
  | cons b l ih =>
      obtain ⟨hb, hrest⟩ := List.forall_mem_cons.mp hf
      obtain ⟨between, hfirst, hbetween, hsub⟩ := hb memo hmemo
      obtain ⟨memo', hrun, hsound, hsub'⟩ := ih hrest hbetween (max greatest (value b))
      refine ⟨memo', ?_, hsound, List.Subset.trans hsub hsub'⟩
      rw [List.foldlM_cons, hfirst]
      exact hrun

/-- **The recursion returns the longest way and remembers it.** -/
theorem memoPath_spec (hlength : IsLongest weight (successors edges) length)
    (hacyclic : Acyclic (Edge edges))
    (hdepth : Foundations.span (Edge edges) (sources edges) id < depth)
    (hmemo : Sound length memo) :
    ∃ memo', memoPath weight edges depth id memo = some (length id, memo') ∧ Sound length memo' ∧
      memo.keys ⊆ memo'.keys ∧ id ∈ memo'.keys := by
  induction depth generalizing id memo with
  | zero => exact absurd hdepth (Nat.not_lt_zero _)
  | succ depth ih =>
      rw [memoPath]
      cases hlookup : memo.lookup id with
      | some r =>
          obtain rfl := hmemo id r hlookup
          refine ⟨memo, rfl, hmemo, List.Subset.refl _, ?_⟩
          rw [← AList.mem_keys, ← AList.lookup_isSome, hlookup, Option.isSome_some]
      | none =>
          have hsucc : ∀ succ ∈ successors edges id, ∀ memo, Sound length memo → ∃ memo',
              ((memoPath weight edges depth succ.1 memo).map fun r => (succ.2 + r.1, r.2)) =
                some (succ.2 + length succ.1, memo') ∧ Sound length memo' ∧
              memo.keys ⊆ memo'.keys := by
            intro succ hmem memo hmemo
            have hedge : Edge edges id succ.1 := ⟨succ.2, mem_successors.mp hmem⟩
            have hless := Foundations.span_lt hacyclic (mem_sources hedge) hedge
            obtain ⟨memo', hrun, hsound, hsub, -⟩ :=
              ih (hless.trans_le (Nat.lt_succ_iff.mp hdepth)) hmemo
            exact ⟨memo', by rw [hrun, Option.map_some], hsound, hsub⟩
          obtain ⟨memo', hrun, hsound, hsub⟩ := foldMax_spec hsucc hmemo
          have hvalue : weight id + ((successors edges id).map fun succ =>
              succ.2 + length succ.1).foldl max 0 = length id := (hlength id).symm
          refine ⟨memo'.insert id (length id), ?_, ?_, ?_, ?_⟩
          · simp only [hrun, Option.map_some, hvalue]
          · intro other r hother
            rcases eq_or_ne other id with rfl | hne
            · rw [AList.lookup_insert] at hother
              exact (Option.some.inj hother).symm
            · rw [AList.lookup_insert_ne hne] at hother
              exact hsound other r hother
          · intro other hother
            rw [← AList.mem_keys, AList.mem_insert]
            exact Or.inr (AList.mem_keys.mpr (hsub hother))
          · rw [← AList.mem_keys, AList.mem_insert]
            exact Or.inl rfl

/-! ### Task graphs and their schedules -/

/-- A task graph without cycles, its nodes with weights and its edges with costs. -/
structure TaskDag (nodes : List TaskNode) (edges : List CostEdge) : Prop where
  distinct : (nodes.map (·.id)).Nodup
  positive : ∀ node ∈ nodes, 0 < node.weight
  costs : ∀ u v cost, (u, v, cost) ∈ edges → 0 ≤ cost
  acyclic : Acyclic (Edge edges)

/-- Every node has its turn on a processor, without overlap and after what comes before it. -/
structure Feasible (nodes : List TaskNode) (edges : List CostEdge) (numProcessors : ℕ)
    (sched : List Assignment) : Prop where
  listed : (sched.map (·.id)).Perm (nodes.map (·.id))
  processor : ∀ a ∈ sched, a.processor < numProcessors
  start : ∀ a ∈ sched, 0 ≤ a.start
  apart : sched.Pairwise fun a b => a.processor = b.processor →
    Apart (·.start) (fun a => rankWeight nodes a.id) a b
  precedence : ∀ a ∈ sched, ∀ b ∈ sched, ∀ cost, (a.id, b.id, cost) ∈ edges →
    a.start + rankWeight nodes a.id + cost ≤ b.start

/-- When all is done. -/
def makespan (nodes : List TaskNode) (sched : List Assignment) : ℚ :=
  (sched.map fun a => a.start + rankWeight nodes a.id).foldl max 0

theorem nodeMap_of_mem (hdistinct : (nodes.map (·.id)).Nodup) {node : TaskNode}
    (hnode : node ∈ nodes) : nodeMap nodes node.id = some node := by
  have hall : ∀ n ∈ nodes.filter fun n => n.id = node.id, n = node := fun n hn =>
    List.inj_on_of_nodup_map hdistinct (List.mem_filter.mp hn).1 hnode
      (of_decide_eq_true (List.mem_filter.mp hn).2)
  have hne : nodes.filter (fun n => n.id = node.id) ≠ [] :=
    List.ne_nil_of_mem (List.mem_filter.mpr ⟨hnode, decide_eq_true rfl⟩)
  rw [nodeMap, List.getLast?_eq_some_getLast hne]
  exact congrArg some (hall _ (List.getLast_mem hne))

theorem TaskDag.rankWeight_eq (h : TaskDag nodes edges) {node : TaskNode} (hnode : node ∈ nodes) :
    rankWeight nodes node.id = node.weight := by
  rw [rankWeight, nodeMap_of_mem h.distinct hnode]
  rfl

theorem TaskDag.pathWeight_eq (h : TaskDag nodes edges) {node : TaskNode} (hnode : node ∈ nodes) :
    pathWeight nodes node.id = node.weight := by
  rw [pathWeight, nodeMap_of_mem h.distinct hnode]
  rfl

theorem TaskDag.rankWeight_pos (h : TaskDag nodes edges) (id : NodeId) :
    0 < rankWeight nodes id := by
  rw [rankWeight, nodeMap]
  cases hlast : (nodes.filter fun n => n.id = id).getLast? with
  | none => exact one_pos
  | some node =>
      exact h.positive node (List.mem_filter.mp (List.mem_of_getLast? hlast)).1

theorem TaskDag.wellFounded (h : TaskDag nodes edges) :
    WellFounded fun y x => Leads (successors edges) x y := by
  rw [leads_eq]
  exact h.acyclic.wellFounded fun a b => mem_sources

/-- Every id has the depth that the recursion needs. -/
theorem span_lt_depth (edges : List CostEdge) (id : NodeId) :
    Foundations.span (Edge edges) (sources edges) id < edges.length + 1 := by
  have hcard : (sources edges).card ≤ edges.length :=
    (List.toFinset_card_le _).trans_eq (List.length_map _)
  exact Nat.lt_succ_of_le (Foundations.span_le.trans hcard)

/-- **The ranks are the longest ways.** -/
theorem ranks_spec (hacyclic : Acyclic (Edge edges))
    (hlength : IsLongest (rankWeight nodes) (successors edges) length) :
    ∃ rankU, ranks nodes edges = some rankU ∧
      ∀ node ∈ nodes, rankU.lookup node.id = some (length node.id) := by
  have hloop : ∀ (l : List TaskNode) (memo : Memo), Sound length memo → ∃ memo',
      l.foldlM (fun memo node => (computeRank nodes edges node.id memo).map (·.2)) memo =
        some memo' ∧ Sound length memo' ∧ memo.keys ⊆ memo'.keys ∧
      ∀ node ∈ l, node.id ∈ memo'.keys := by
    intro l
    induction l with
    | nil => exact fun memo hmemo => ⟨memo, rfl, hmemo, List.Subset.refl _, by simp⟩
    | cons node l ih =>
        intro memo hmemo
        obtain ⟨between, hfirst, hbetween, hsub, hin⟩ :=
          memoPath_spec hlength hacyclic (span_lt_depth edges node.id) hmemo
        obtain ⟨memo', hrun, hsound, hsub', hall⟩ := ih between hbetween
        refine ⟨memo', ?_, hsound, List.Subset.trans hsub hsub',
          List.forall_mem_cons.mpr ⟨hsub' hin, hall⟩⟩
        rw [List.foldlM_cons, computeRank, hfirst]
        exact hrun
  obtain ⟨rankU, hrun, hsound, -, hall⟩ := hloop nodes ∅ sound_empty
  refine ⟨rankU, hrun, fun node hnode => ?_⟩
  obtain ⟨r, hr⟩ := Option.isSome_iff_exists.mp
    (AList.lookup_isSome.mpr (AList.mem_keys.mpr (hall node hnode)))
  rw [hr, hsound node.id r hr]

/-! ### The order of the nodes -/

/-- Everything that comes before a node is scheduled before it. -/
theorem sortedNodes_topological (h : TaskDag nodes edges)
    (hlength : IsLongest (rankWeight nodes) (successors edges) length) {rankU : Memo}
    (hrankU : ∀ node ∈ nodes, rankU.lookup node.id = some (length node.id)) :
    (sortedNodes nodes rankU).Pairwise fun a b => ¬ Edge edges b a := by
  have hrank : ∀ id ∈ sortedNodes nodes rankU, (rankU.lookup id).getD 0 = length id := by
    intro id hid
    obtain ⟨node, hnode, rfl⟩ := List.mem_map.mp (List.mem_mergeSort.mp hid)
    rw [hrankU node hnode, Option.getD_some]
  have hsorted : (sortedNodes nodes rankU).Pairwise fun a b =>
      (rankU.lookup b).getD 0 ≤ (rankU.lookup a).getD 0 := by
    refine (List.pairwise_mergeSort ?_ ?_ _).imp fun hle => of_decide_eq_true hle
    · intro a b c hab hbc
      exact decide_eq_true ((of_decide_eq_true hbc).trans (of_decide_eq_true hab))
    · intro a b
      rw [Bool.or_eq_true, decide_eq_true_eq, decide_eq_true_eq]
      exact le_total _ _
  refine hsorted.imp_of_mem ?_
  rintro a b ha hb hle ⟨cost, hedge⟩
  rw [hrank a ha, hrank b hb] at hle
  have hless : length a < length b := hlength.lt_of_edge (mem_successors.mpr hedge)
    (h.rankWeight_pos b) (h.costs b a cost hedge)
  exact absurd hless (not_lt_of_ge hle)

/-! ### One node after the other -/

theorem bestProc_lt {st : Progress} {ready w : ℚ} (hp : 0 < numProcessors) :
    bestProc st numProcessors ready w < numProcessors := by
  have hloop : ∀ (l : List ℕ) (best : ℕ × ℚ), (∀ p ∈ l, p < numProcessors) →
      best.1 < numProcessors → (l.foldl (fun (best : ℕ × ℚ) p =>
        let est := max (st.processorAvail.getD p 0) ready
        let eft := est + w
        if eft < best.2 then (p, eft) else best) best).1 < numProcessors := by
    intro l
    induction l with
    | nil => exact fun best _ hbest => hbest
    | cons p l ih =>
        intro best hl hbest
        obtain ⟨hp, hrest⟩ := List.forall_mem_cons.mp hl
        rw [List.foldl_cons]
        refine ih _ hrest ?_
        dsimp only
        split
        · exact hp
        · exact hbest
  exact hloop _ _ (fun p => List.mem_range.mp) hp

/-- The ready time is after the end of every predecessor and its communication. -/
theorem le_predReady (st : Progress) {u : NodeId} {cost : ℚ} (hedge : (u, id, cost) ∈ edges) :
    ((st.nodeFinish.lookup u).getD (0, 0)).2 + cost ≤ predReady edges st id :=
  Foundations.le_foldl_max (List.mem_map.mpr ⟨(u, cost), mem_predecessors.mpr hedge, rfl⟩)

theorem predReady_nonneg (st : Progress) (id : NodeId) : 0 ≤ predReady edges st id :=
  Foundations.start_le_foldl_max

/-- What holds when some of the nodes have been assigned. -/
structure Assigned (nodes : List TaskNode) (edges : List CostEdge) (numProcessors : ℕ)
    (ids : List NodeId) (st : Progress) : Prop where
  ids : st.schedule.map (·.id) = ids
  processors : st.processorAvail.length = numProcessors
  processor : ∀ a ∈ st.schedule, a.processor < numProcessors
  start : ∀ a ∈ st.schedule, 0 ≤ a.start
  finish : ∀ a ∈ st.schedule,
    st.nodeFinish.lookup a.id = some (a.processor, a.start + rankWeight nodes a.id)
  free : ∀ a ∈ st.schedule,
    a.start + rankWeight nodes a.id ≤ st.processorAvail.getD a.processor 0
  apart : st.schedule.Pairwise fun a b => a.processor = b.processor →
    a.start + rankWeight nodes a.id ≤ b.start
  precedence : ∀ a ∈ st.schedule, ∀ b ∈ st.schedule, ∀ cost, (a.id, b.id, cost) ∈ edges →
    a.start + rankWeight nodes a.id + cost ≤ b.start

theorem getD_set {l : List ℚ} {p q : ℕ} {x : ℚ} (hp : p < l.length) :
    (l.set p x).getD q 0 = if q = p then x else l.getD q 0 := by
  rw [List.getD_eq_getElem?_getD, List.getElem?_set, List.getD_eq_getElem?_getD]
  split
  · subst_vars
    rw [if_pos rfl, Option.getD_some]
  · rename_i hne
    rw [if_neg (Ne.symm hne)]

/-- One more node, that nothing assigned before comes after. -/
theorem Assigned.assign {ids : List NodeId} {st : Progress} (hdag : TaskDag nodes edges)
    (hp : 0 < numProcessors) (h : Assigned nodes edges numProcessors ids st) (hfresh : id ∉ ids)
    (hlast : ∀ v ∈ ids, ¬ Edge edges id v) :
    Assigned nodes edges numProcessors (ids ++ [id]) (assign nodes edges numProcessors st id) := by
  obtain ⟨proc, hproc⟩ : ∃ proc, proc =
    bestProc st numProcessors (predReady edges st id) (rankWeight nodes id) := ⟨_, rfl⟩
  obtain ⟨start, hstart⟩ : ∃ start, start =
    max (st.processorAvail.getD proc 0) (predReady edges st id) := ⟨_, rfl⟩
  have hassign : HeftScheduler.assign nodes edges numProcessors st id =
      { processorAvail := st.processorAvail.set proc (start + rankWeight nodes id)
        nodeFinish := st.nodeFinish.insert id (proc, start + rankWeight nodes id)
        schedule := st.schedule ++ [⟨id, proc, start⟩] } := by
    rw [hstart, hproc]
    rfl
  have hlt : proc < numProcessors := hproc ▸ bestProc_lt hp
  have havail : st.processorAvail.getD proc 0 ≤ start := hstart ▸ le_max_left _ _
  have hready : predReady edges st id ≤ start := hstart ▸ le_max_right _ _
  have hids : ∀ a ∈ st.schedule, a.id ∈ ids := fun a ha =>
    h.ids ▸ List.mem_map.mpr ⟨a, ha, rfl⟩
  have hne : ∀ a ∈ st.schedule, a.id ≠ id := fun a ha heq => hfresh (heq ▸ hids a ha)
  have hafter : ∀ a ∈ st.schedule, ∀ cost, (a.id, id, cost) ∈ edges →
      a.start + rankWeight nodes a.id + cost ≤ start := by
    intro a ha cost hedge
    have hpred := le_predReady st hedge
    rw [h.finish a ha, Option.getD_some] at hpred
    exact hpred.trans hready
  rw [hassign]
  refine ⟨?_, ?_, ?_, ?_, ?_, ?_, ?_, ?_⟩
  · rw [List.map_append, h.ids, List.map_singleton]
  · rw [List.length_set, h.processors]
  · exact List.forall_mem_append.mpr ⟨h.processor, List.forall_mem_singleton.mpr hlt⟩
  · refine List.forall_mem_append.mpr ⟨h.start, List.forall_mem_singleton.mpr ?_⟩
    exact (predReady_nonneg st id).trans hready
  · refine List.forall_mem_append.mpr ⟨fun a ha => ?_, List.forall_mem_singleton.mpr ?_⟩
    · exact (AList.lookup_insert_ne (hne a ha)).trans (h.finish a ha)
    · exact AList.lookup_insert _
  · refine List.forall_mem_append.mpr ⟨fun a ha => ?_, List.forall_mem_singleton.mpr ?_⟩
    · dsimp only
      rw [getD_set (h.processors ▸ hlt)]
      split
      · rename_i heq
        have hfree := h.free a ha
        rw [heq] at hfree
        exact (hfree.trans havail).trans (le_add_of_nonneg_right (hdag.rankWeight_pos id).le)
      · exact h.free a ha
    · dsimp only
      rw [getD_set (h.processors ▸ hlt), if_pos rfl]
  · refine List.pairwise_append.mpr ⟨h.apart, List.pairwise_singleton _ _, fun a ha b hb heq => ?_⟩
    obtain rfl := List.mem_singleton.mp hb
    have hfree := h.free a ha
    rw [heq] at hfree
    exact hfree.trans havail
  · intro a ha b hb cost hedge
    rcases List.mem_append.mp ha with ha | ha
    · rcases List.mem_append.mp hb with hb | hb
      · exact h.precedence a ha b hb cost hedge
      · obtain rfl := List.mem_singleton.mp hb
        exact hafter a ha cost hedge
    · obtain rfl := List.mem_singleton.mp ha
      rcases List.mem_append.mp hb with hb | hb
      · exact absurd ⟨cost, hedge⟩ (hlast b.id (hids b hb))
      · obtain rfl := List.mem_singleton.mp hb
        exact absurd (.single ⟨cost, hedge⟩) (hdag.acyclic id)

theorem Assigned.foldl {ids rest : List NodeId} {st : Progress} (hdag : TaskDag nodes edges)
    (hp : 0 < numProcessors) (h : Assigned nodes edges numProcessors ids st)
    (hnodup : (ids ++ rest).Nodup) (horder : (ids ++ rest).Pairwise fun a b => ¬ Edge edges b a) :
    Assigned nodes edges numProcessors (ids ++ rest)
      (rest.foldl (HeftScheduler.assign nodes edges numProcessors) st) := by
  induction rest generalizing ids st with
  | nil => rwa [List.append_nil]
  | cons id rest ih =>
      have hsplit : ids ++ id :: rest = ids ++ [id] ++ rest := by simp
      have hfresh : id ∉ ids := fun hmem =>
        (List.nodup_append.mp hnodup).2.2 id hmem id List.mem_cons_self rfl
      have hlast : ∀ v ∈ ids, ¬ Edge edges id v := fun v hv =>
        (List.pairwise_append.mp horder).2.2 v hv id List.mem_cons_self
      rw [hsplit] at hnodup horder ⊢
      exact ih (h.assign hdag hp hfresh hlast) hnodup horder

/-- Where the loop begins. -/
theorem assigned_start : Assigned nodes edges numProcessors []
    ⟨List.replicate numProcessors 0, ∅, []⟩ where
  ids := rfl
  processors := List.length_replicate
  processor := by simp
  start := by simp
  finish := by simp
  free := by simp
  apart := List.Pairwise.nil
  precedence := by simp

/-- **The schedule keeps to the processors and to the edges.** -/
theorem schedule_feasible (h : TaskDag nodes edges) (hp : 0 < numProcessors) :
    ∃ sched, schedule nodes edges numProcessors = some sched ∧
      Feasible nodes edges numProcessors sched := by
  obtain ⟨length, hlength⟩ := Foundations.exists_isLongest (rankWeight nodes) h.wellFounded
  obtain ⟨rankU, hranks, hrankU⟩ := ranks_spec h.acyclic hlength
  have hperm : (sortedNodes nodes rankU).Perm (nodes.map (·.id)) := List.mergeSort_perm _ _
  have hend : Assigned nodes edges numProcessors ([] ++ sortedNodes nodes rankU) _ :=
    assigned_start.foldl h hp (hperm.nodup_iff.mpr h.distinct)
      (sortedNodes_topological h hlength hrankU)
  rw [schedule]
  split
  · rename_i hempty
    rw [Bool.or_eq_true, decide_eq_true_eq, or_iff_left hp.ne', List.isEmpty_iff] at hempty
    subst hempty
    exact ⟨[], rfl, ⟨.refl _, by simp, by simp, .nil, by simp⟩⟩
  · rw [hranks]
    refine ⟨_, rfl, ⟨hend.ids ▸ hperm, hend.processor, hend.start, ?_, hend.precedence⟩⟩
    exact hend.apart.imp fun hab heq => Or.inl (hab heq)

/-! ### No schedule is shorter than the bound -/

theorem start_le_makespan (nodes : List TaskNode) {sched : List Assignment} {a : Assignment}
    (ha : a ∈ sched) :
    a.start + rankWeight nodes a.id ≤ makespan nodes sched :=
  Foundations.le_foldl_max (List.mem_map.mpr ⟨a, ha, rfl⟩)

theorem makespan_nonneg (nodes : List TaskNode) (sched : List Assignment) :
    0 ≤ makespan nodes sched := Foundations.start_le_foldl_max

/-- The nodes on a way have their turns one after the other. -/
theorem Feasible.length_le {sched : List Assignment}
    (hfeasible : Feasible nodes edges numProcessors sched) (h : TaskDag nodes edges)
    (hinner : ∀ u v cost, (u, v, cost) ∈ edges → u ∈ nodes.map (·.id) → v ∈ nodes.map (·.id))
    (hlength : IsLongest (pathWeight nodes) (successors edges) length)
    (hid : id ∈ nodes.map (·.id)) : length id ≤ makespan nodes sched := by
  have hturn : ∀ x, ∃ a : Assignment, x ∈ nodes.map (·.id) → a ∈ sched ∧ a.id = x := by
    intro x
    by_cases hx : x ∈ nodes.map (·.id)
    · obtain ⟨a, ha, heq⟩ := List.mem_map.mp (hfeasible.listed.mem_iff.mpr hx)
      exact ⟨a, fun _ => ⟨ha, heq⟩⟩
    · exact ⟨⟨x, 0, 0⟩, fun h => absurd h hx⟩
  choose turn hturn using hturn
  have hweight : ∀ x ∈ nodes.map (·.id), pathWeight nodes x = rankWeight nodes x := by
    intro x hx
    obtain ⟨node, hnode, rfl⟩ := List.mem_map.mp hx
    rw [h.pathWeight_eq hnode, h.rankWeight_eq hnode]
  -- what is left of the time when a node has its turn
  let room : NodeId → ℚ := fun x => makespan nodes sched - (turn x).start
  have hroom : length id ≤ room id := by
    refine hlength.le_of_room h.wellFounded (fun x hx => ?_) (fun x hx y cost hedge => ?_) hid
    · obtain ⟨hmem, heq⟩ := hturn x hx
      have hdone := start_le_makespan nodes hmem
      rw [hweight x hx, le_sub_iff_add_le']
      rwa [heq] at hdone
    · have hedge' : (x, y, cost) ∈ edges := mem_successors.mp hedge
      have hy := hinner x y cost hedge' hx
      obtain ⟨hmem, heq⟩ := hturn x hx
      obtain ⟨hmem', heq'⟩ := hturn y hy
      have hafter := hfeasible.precedence _ hmem _ hmem' cost (by rwa [heq, heq'])
      rw [heq] at hafter
      refine ⟨hy, ?_⟩
      rw [hweight x hx]
      show rankWeight nodes x + (cost + (makespan nodes sched - (turn y).start)) ≤
        makespan nodes sched - (turn x).start
      linarith
  have hstart := hfeasible.start _ (hturn id hid).1
  exact hroom.trans (sub_le_self _ hstart)

/-- The work of all nodes is done by then on that many processors. -/
theorem Feasible.work_le {sched : List Assignment}
    (hfeasible : Feasible nodes edges numProcessors sched) (h : TaskDag nodes edges) :
    (nodes.map (·.weight)).sum ≤ numProcessors • makespan nodes sched := by
  have hweights : nodes.map (·.weight) = (nodes.map (·.id)).map (rankWeight nodes) := by
    rw [List.map_map]
    exact List.map_congr_left fun node hnode => (h.rankWeight_eq hnode).symm
  rw [hweights, ← (hfeasible.listed.map (rankWeight nodes)).sum_eq, List.map_map]
  exact Foundations.sum_le_of_machines hfeasible.processor hfeasible.apart
    (fun a _ => h.rankWeight_pos a.id) hfeasible.start (fun a ha => start_le_makespan nodes ha)
    (makespan_nonneg nodes sched)

/-- **No schedule that keeps to the processors and the edges is done before the lower bound**, if
every edge from a node leads to a node. -/
theorem lowerBound_le_of_feasible {sched : List Assignment}
    (hfeasible : Feasible nodes edges numProcessors sched) (h : TaskDag nodes edges)
    (hinner : ∀ u v cost, (u, v, cost) ∈ edges → u ∈ nodes.map (·.id) → v ∈ nodes.map (·.id)) :
    ∃ bound, makespanLowerBound nodes edges numProcessors = some bound ∧
      bound ≤ makespan nodes sched := by
  obtain ⟨length, hlength⟩ := Foundations.exists_isLongest (pathWeight nodes) h.wellFounded
  have hvisit : ∀ node ∈ nodes, ∀ memo, Sound length memo → ∃ memo',
      longestPath nodes edges node.id memo = some (length node.id, memo') ∧
        Sound length memo' ∧ memo.keys ⊆ memo'.keys := by
    intro node _ memo hmemo
    obtain ⟨memo', hrun, hsound, hsub, -⟩ :=
      memoPath_spec hlength h.acyclic (span_lt_depth edges node.id) hmemo
    exact ⟨memo', hrun, hsound, hsub⟩
  obtain ⟨memo, hrun, -, -⟩ := foldMax_spec hvisit sound_empty
  rw [makespanLowerBound, hrun]
  refine ⟨_, rfl, max_le ?_ ?_⟩
  · refine Foundations.foldl_max_le_iff.mpr ⟨makespan_nonneg nodes sched, fun value hvalue => ?_⟩
    obtain ⟨node, hnode, rfl⟩ := List.mem_map.mp hvalue
    exact hfeasible.length_le h hinner hlength (List.mem_map.mpr ⟨node, hnode, rfl⟩)
  · have hwork := hfeasible.work_le h
    rw [nsmul_eq_mul] at hwork
    exact div_le_of_le_mul₀ (Nat.cast_nonneg _) (makespan_nonneg nodes sched) (by rwa [mul_comm])

/-- **The schedule lists every node once, without overlap and along the edges, and takes no less
than the lower bound.** -/
theorem schedule_lawful (h : TaskDag nodes edges) (hp : 1 ≤ numProcessors) :
    ∃ sched, schedule nodes edges numProcessors = some sched ∧
      Feasible nodes edges numProcessors sched ∧
      ((∀ u v cost, (u, v, cost) ∈ edges → u ∈ nodes.map (·.id) → v ∈ nodes.map (·.id)) →
        ∃ bound, makespanLowerBound nodes edges numProcessors = some bound ∧
          bound ≤ makespan nodes sched) := by
  obtain ⟨sched, hrun, hfeasible⟩ := schedule_feasible h hp
  exact ⟨sched, hrun, hfeasible, lowerBound_le_of_feasible hfeasible h⟩

/-- Two tasks. -/
def pairNodes : List TaskNode := [(TaskNode.new "a" "Research").withWeight 3, .new "b" "Write"]

/-- The first before the second. -/
def pairEdges : List CostEdge := [("a", "b", 1 / 2)]

theorem taskDag_pair : TaskDag pairNodes pairEdges := by
  have hedge : ∀ u v cost, (u, v, cost) ∈ pairEdges → u = "a" ∧ v = "b" ∧ cost = 1 / 2 := by
    intro u v cost h
    simpa [pairEdges] using h
  refine ⟨by decide, ?_, fun u v cost h => ?_, fun v h => ?_⟩
  · simp [pairNodes, TaskNode.withWeight, TaskNode.new]
  · rw [(hedge u v cost h).2.2]
    norm_num
  · obtain ⟨w, ⟨cost, hvw⟩, -⟩ := Relation.TransGen.head'_iff.mp h
    obtain ⟨u, -, cost', huv⟩ := Relation.TransGen.tail'_iff.mp h
    exact absurd ((hedge v w cost hvw).1.symm.trans (hedge u v cost' huv).2.1) (by decide)

theorem schedule_lawful_pair : ∃ sched, schedule pairNodes pairEdges 2 = some sched ∧
    Feasible pairNodes pairEdges 2 sched := by
  obtain ⟨sched, hrun, hfeasible, -⟩ := schedule_lawful taskDag_pair (Nat.le_succ 1)
  exact ⟨sched, hrun, hfeasible⟩

end ClawDesk.Planner.HeftScheduler
