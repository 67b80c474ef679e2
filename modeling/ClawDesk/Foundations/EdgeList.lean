import ClawDesk.Foundations.Digraph
import Mathlib.Data.List.AList

/-!
# Graphs as lists of edges

A graph is a list of edges, in which an edge may stand more than once.

Kahn's algorithm counts for every known node how many edges lead to it.  The nodes without any are
taken off a queue, one after the other, and what a node leads to is counted down; a node whose last
edge is gone is queued.  The loop ends with an order of the known nodes that come after no cycle
and after nothing unknown, each behind all that leads to it; an edge is left that leads to each of
the others (`drain_spec`).  Taking the node that was queued last instead puts the same nodes in
order (`drainLast_spec`).

Adjacency lists are built edge by edge (`lookup_foldl_push`).  A search with a stack looks for a
node along the edges.  It ends, and finds the node just where a way leads to it (`search_spec`).
-/

namespace ClawDesk.Foundations.EdgeList

open Relation

variable {α : Type}

/-- How many edges lead to each node. -/
abbrev Degrees (α : Type) := AList fun _ : α => ℕ

def Edge (edges : List (α × α)) (x y : α) : Prop := (x, y) ∈ edges

/-- The last node of every edge is in a finite set. -/
theorem exists_inner (edges : List (α × α)) :
    ∃ inner : Finset α, ∀ x y, Edge edges x y → y ∈ inner := by
  classical
  exact ⟨(edges.map (·.2)).toFinset, fun x y hxy =>
    List.mem_toFinset.mpr (List.mem_map.mpr ⟨(x, y), hxy, rfl⟩)⟩

variable [DecidableEq α] {edges : List (α × α)} {known : α → Prop} {degrees degrees' : Degrees α}
  {order queue freed targets nodes : List α} {s t x : α}

/-! ### Kahn's algorithm -/

/-- One more edge to a node. -/
def count (degrees : Degrees α) (target : α) : Degrees α :=
  degrees.insert target ((degrees.lookup target).getD 0 + 1)

/-- A node is counted for. -/
def enter (degrees : Degrees α) (node : α) : Degrees α :=
  degrees.insert node ((degrees.lookup node).getD 0)

/-- One edge less to a node, which is queued when it was the last; none if the count would go below
zero. -/
def release (st : Degrees α × List α) (s : α) : Option (Degrees α × List α) :=
  match st.1.lookup s with
  | none => some st
  | some 0 => none
  | some (deg + 1) => some (st.1.insert s deg, if deg = 0 then st.2 ++ [s] else st.2)

/-- Take nodes off the queue until it is empty; none if that takes too many rounds. -/
def drain (succs : α → List α) :
    ℕ → Degrees α × List α → List α → Option (Degrees α × List α)
  | _, (degrees, []), order => some (degrees, order)
  | 0, (_, _ :: _), _ => none
  | rounds + 1, (degrees, node :: queue), order =>
      ((succs node).foldlM release (degrees, queue)).bind fun st =>
        drain succs rounds st (order ++ [node])

/-- The nodes that are queued at first, in the order of the counts. -/
def free (degrees : Degrees α) : List α :=
  (degrees.entries.filter fun entry => entry.2 = 0).map (·.1)

/-- The nodes that some edge still leads to, in the order of the counts. -/
def left (degrees : Degrees α) : List α :=
  (degrees.entries.filter fun entry => 0 < entry.2).map (·.1)

/-! ### Counting edges -/

/-- Where the edges from a node lead to. -/
def after (edges : List (α × α)) (x : α) : List α :=
  (edges.filter fun e => e.1 = x).map (·.2)

theorem mem_after : s ∈ after edges x ↔ Edge edges x s := by
  simp [after, Edge]

/-- The edges to a node from nodes that are not in the order yet. -/
def degree (edges : List (α × α)) (order : List α) (s : α) : ℕ :=
  edges.countP fun e => e.1 ∉ order ∧ e.2 = s

theorem degree_eq_zero_iff : degree edges order s = 0 ↔ ∀ x, Edge edges x s → x ∈ order := by
  rw [degree, List.countP_eq_zero]
  constructor
  · intro h x hx
    by_contra hout
    exact h (x, s) hx (decide_eq_true ⟨hout, rfl⟩)
  · rintro h ⟨x, t⟩ hmem hcounted
    obtain ⟨hout, rfl⟩ := of_decide_eq_true hcounted
    exact hout (h x hmem)

/-- With one more node in the order, its edges do not count any more. -/
theorem degree_snoc (hfresh : x ∉ order) (s : α) :
    degree edges order s = (after edges x).count s + degree edges (order ++ [x]) s := by
  rw [degree, List.countP_eq_countP_filter_add _ _ (fun e => decide (e.1 = x)), after,
    List.count_eq_countP, List.countP_map, degree]
  refine congrArg₂ (· + ·) ?_ ?_
  · refine List.countP_congr fun e he => ?_
    have hfrom : e.1 = x := of_decide_eq_true (List.mem_filter.mp he).2
    simp [hfrom, hfresh]
  · rw [List.countP_filter]
    refine List.countP_congr fun e _ => ?_
    simp only [decide_eq_true_eq, Bool.and_eq_true, Bool.not_eq_true', decide_eq_false_iff_not,
      List.mem_append, List.mem_singleton, not_or]
    tauto

/-- A node is appended to the successors of the other. -/
def push (adj : AList fun _ : α => List α) (e : α × α) : AList fun _ : α => List α :=
  adj.insert e.1 ((adj.lookup e.1).getD [] ++ [e.2])

theorem lookup_foldl_push (edges : List (α × α)) (adj : AList fun _ : α => List α) (x : α) :
    ((edges.foldl push adj).lookup x).getD [] = (adj.lookup x).getD [] ++ after edges x := by
  induction edges generalizing adj with
  | nil => exact (List.append_nil _).symm
  | cons e edges ih =>
      rw [List.foldl_cons, ih, push]
      rcases eq_or_ne x e.1 with rfl | hne
      · rw [AList.lookup_insert, Option.getD_some, List.append_assoc]
        simp [after]
      · rw [AList.lookup_insert_ne hne]
        simp [after, hne.symm]

theorem lookup_foldl_count (targets : List α) (degrees : Degrees α) (s : α) :
    (targets.foldl count degrees).lookup s =
      if s ∈ targets then some ((degrees.lookup s).getD 0 + targets.count s)
      else degrees.lookup s := by
  induction targets generalizing degrees with
  | nil => rfl
  | cons t targets ih =>
      rw [List.foldl_cons, ih, count]
      rcases eq_or_ne s t with rfl | hne
      · rw [AList.lookup_insert, if_pos List.mem_cons_self, List.count_cons_self]
        split
        · rw [Option.getD_some, Nat.add_assoc, Nat.add_comm 1]
        · rename_i hout
          rw [List.count_eq_zero.mpr hout]
      · rw [AList.lookup_insert_ne hne, List.count_cons_of_ne hne.symm]
        refine if_congr ?_ rfl rfl
        rw [List.mem_cons, or_iff_right hne]

theorem lookup_foldl_enter (nodes : List α) (degrees : Degrees α) (s : α) :
    (nodes.foldl enter degrees).lookup s =
      if s ∈ nodes then some ((degrees.lookup s).getD 0) else degrees.lookup s := by
  induction nodes generalizing degrees with
  | nil => rfl
  | cons t nodes ih =>
      rw [List.foldl_cons, ih, enter]
      rcases eq_or_ne s t with rfl | hne
      · rw [AList.lookup_insert, if_pos List.mem_cons_self, Option.getD_some, ite_self]
      · rw [AList.lookup_insert_ne hne]
        refine if_congr ?_ rfl rfl
        rw [List.mem_cons, or_iff_right hne]

/-- The counts are those of the edges from nodes that are not in the order, for the known nodes. -/
def Counts (edges : List (α × α)) (known : α → Prop) (degrees : Degrees α) (order : List α) :
    Prop :=
  ∀ s deg, degrees.lookup s = some deg ↔ known s ∧ degree edges order s = deg

/-- **At first every edge counts.** -/
theorem counts_foldl (nodes : List α) (edges : List (α × α)) :
    Counts edges (fun s => s ∈ nodes ∨ ∃ x, Edge edges x s)
      ((edges.map (·.2)).foldl count (nodes.foldl enter ∅)) [] := by
  intro s deg
  have hcount : (edges.map (·.2)).count s = degree edges [] s := by
    rw [List.count_eq_countP, List.countP_map, degree]
    refine List.countP_congr fun e _ => ?_
    simp
  have htarget : s ∈ edges.map (·.2) ↔ ∃ x, Edge edges x s := by
    simp [Edge]
  show _ ↔ (s ∈ nodes ∨ ∃ x, Edge edges x s) ∧ degree edges [] s = deg
  rw [lookup_foldl_count, lookup_foldl_enter, AList.lookup_empty, Option.getD_none, hcount,
    ← htarget]
  split
  · rename_i hin
    rw [and_iff_right (Or.inr hin), apply_ite fun o : Option ℕ => o.getD 0, Option.getD_some,
      Option.getD_none, ite_self, Nat.zero_add, Option.some.injEq]
  · rename_i hin
    rw [or_iff_left hin, ← hcount, List.count_eq_zero.mpr hin]
    simp

theorem Counts.mem_keys_iff (h : Counts edges known degrees order) :
    s ∈ degrees.keys ↔ known s := by
  rw [← AList.mem_keys, ← AList.lookup_isSome, Option.isSome_iff_exists]
  exact ⟨fun ⟨_, hdeg⟩ => ((h s _).mp hdeg).1, fun hs => ⟨_, (h s _).mpr ⟨hs, rfl⟩⟩⟩

theorem mem_free : s ∈ free degrees ↔ degrees.lookup s = some 0 := by
  rw [← Option.mem_def, AList.mem_lookup_iff, free]
  simp

omit [DecidableEq α] in
theorem nodup_free (degrees : Degrees α) : (free degrees).Nodup :=
  (List.filter_sublist.map _).nodup degrees.keys_nodup

theorem mem_left : s ∈ left degrees ↔ ∃ deg, degrees.lookup s = some (deg + 1) := by
  simp only [← Option.mem_def, AList.mem_lookup_iff, left, List.mem_map, List.mem_filter,
    decide_eq_true_eq]
  constructor
  · rintro ⟨⟨s, _ | deg⟩, ⟨hentry, hpos⟩, rfl⟩
    · exact absurd hpos (Nat.lt_irrefl 0)
    · exact ⟨deg, hentry⟩
  · rintro ⟨deg, hentry⟩
    exact ⟨⟨s, deg + 1⟩, ⟨hentry, Nat.succ_pos deg⟩, rfl⟩

omit [DecidableEq α] in
theorem nodup_left (degrees : Degrees α) : (left degrees).Nodup :=
  (List.filter_sublist.map _).nodup degrees.keys_nodup

/-! ### The loop -/

/-- What one round does to the counts, and what it frees. -/
structure Released (degrees : Degrees α) (targets : List α) (degrees' : Degrees α)
    (freed : List α) : Prop where
  lookup : ∀ s, degrees'.lookup s = (degrees.lookup s).map (· - targets.count s)
  nodup : freed.Nodup
  mem : ∀ s, s ∈ freed ↔ s ∈ targets ∧ degrees.lookup s = some (targets.count s)

theorem released_nil (degrees : Degrees α) : Released degrees [] degrees [] :=
  ⟨by simp, List.nodup_nil, by simp⟩

theorem lookup_insert_degree (degrees : Degrees α) (t s : α) (rest : ℕ) :
    (degrees.insert t rest).lookup s = if s = t then some rest else degrees.lookup s := by
  split
  · subst_vars
    exact AList.lookup_insert _
  · rename_i hne
    exact AList.lookup_insert_ne hne

/-- A target is freed when its last edge is counted off. -/
theorem Released.cons {rest : ℕ} (hdeg : degrees.lookup t = some (rest + 1))
    (hle : targets.count t ≤ rest) (h : Released (degrees.insert t rest) targets degrees' freed) :
    Released degrees (t :: targets) degrees' ((if rest = 0 then [t] else []) ++ freed) where
  lookup s := by
    rw [h.lookup, lookup_insert_degree]
    rcases eq_or_ne s t with rfl | hne
    · rw [if_pos rfl, hdeg, List.count_cons_self, Option.map_some, Option.map_some]
      congr 1
      omega
    · rw [if_neg hne, List.count_cons_of_ne hne.symm]
  nodup := by
    split
    · rename_i hzero
      have hlast : t ∉ freed := fun hmem => by
        obtain ⟨hin, -⟩ := (h.mem t).mp hmem
        have hpos := List.count_pos_iff.mpr hin
        omega
      exact List.nodup_cons.mpr ⟨hlast, h.nodup⟩
    · exact h.nodup
  mem s := by
    rw [List.mem_append, h.mem, lookup_insert_degree]
    rcases eq_or_ne s t with rfl | hne
    · rw [if_pos rfl, hdeg, List.count_cons_self]
      by_cases hzero : rest = 0
      · have hout : s ∉ targets := fun hin => by
          have hpos := List.count_pos_iff.mpr hin
          omega
        simp [hzero, hout, List.count_eq_zero.mpr hout]
      · have hin : rest = targets.count s → s ∈ targets := fun heq =>
          List.count_pos_iff.mp (by omega)
        simpa [hzero] using hin
    · rw [if_neg hne, List.count_cons_of_ne hne.symm]
      have hother : s ∉ (if rest = 0 then [t] else []) := by
        split <;> simp [hne]
      rw [or_iff_right hother, List.mem_cons, or_iff_right hne]

/-- A round counts off each edge of the node that it takes off the queue. -/
theorem foldlM_release (targets : List α) (degrees : Degrees α) (queue : List α)
    (h : ∀ s ∈ targets, ∃ deg, degrees.lookup s = some deg ∧ targets.count s ≤ deg) :
    ∃ degrees' freed, targets.foldlM release (degrees, queue) = some (degrees', queue ++ freed) ∧
      Released degrees targets degrees' freed := by
  induction targets generalizing degrees queue with
  | nil => exact ⟨degrees, [], by simp, released_nil degrees⟩
  | cons t targets ih =>
      obtain ⟨deg, hdeg, hle⟩ := h t List.mem_cons_self
      rw [List.count_cons_self] at hle
      obtain ⟨rest, rfl⟩ : ∃ rest, deg = rest + 1 := Nat.exists_eq_succ_of_ne_zero (by omega)
      have hrest : ∀ s ∈ targets, ∃ deg, (degrees.insert t rest).lookup s = some deg ∧
          targets.count s ≤ deg := by
        intro s hs
        rw [lookup_insert_degree]
        split
        · subst_vars
          exact ⟨rest, rfl, Nat.le_of_succ_le_succ hle⟩
        · rename_i hne
          obtain ⟨deg, hdeg', hle'⟩ := h s (List.mem_cons_of_mem t hs)
          rw [List.count_cons_of_ne (Ne.symm hne)] at hle'
          exact ⟨deg, hdeg', hle'⟩
      obtain ⟨degrees', freed, hrun, hreleased⟩ :=
        ih (degrees.insert t rest) (if rest = 0 then queue ++ [t] else queue) hrest
      have hfirst : release (degrees, queue) t =
          some (degrees.insert t rest, if rest = 0 then queue ++ [t] else queue) := by
        rw [release]
        simp only [hdeg]
      rw [List.foldlM_cons, hfirst]
      refine ⟨degrees', _, hrun.trans ?_, hreleased.cons hdeg (Nat.le_of_succ_le_succ hle)⟩
      split <;> simp

/-- What no edge leads to any more had none before, or is freed. -/
theorem Released.lookup_eq_zero_iff (h : Released degrees targets degrees' freed)
    (hcounts : ∀ s ∈ targets, ∃ deg, degrees.lookup s = some deg ∧ targets.count s ≤ deg) :
    degrees'.lookup s = some 0 ↔ degrees.lookup s = some 0 ∨ s ∈ freed := by
  rw [h.lookup, h.mem, Option.map_eq_some_iff]
  constructor
  · rintro ⟨deg, hdeg, hzero⟩
    by_cases hin : s ∈ targets
    · obtain ⟨deg', hdeg', hle⟩ := hcounts s hin
      obtain rfl := Option.some.inj (hdeg.symm.trans hdeg')
      have heq : deg = targets.count s := Nat.le_antisymm (Nat.sub_eq_zero_iff_le.mp hzero) hle
      exact Or.inr ⟨hin, heq ▸ hdeg⟩
    · rw [List.count_eq_zero.mpr hin, Nat.sub_zero] at hzero
      exact Or.inl (hzero ▸ hdeg)
  · rintro (hzero | ⟨-, hcount⟩)
    · exact ⟨0, hzero, Nat.zero_sub _⟩
    · exact ⟨_, hcount, Nat.sub_self _⟩

/-- The counts without the edges of one more node. -/
theorem Counts.released (h : Counts edges known degrees order) (hfresh : x ∉ order)
    (hreleased : Released degrees (after edges x) degrees' freed) :
    Counts edges known degrees' (order ++ [x]) := by
  intro s deg
  rw [hreleased.lookup, Option.map_eq_some_iff]
  constructor
  · rintro ⟨before, hbefore, rfl⟩
    obtain ⟨hknown, rfl⟩ := (h s before).mp hbefore
    exact ⟨hknown, by rw [degree_snoc hfresh s, Nat.add_sub_cancel_left]⟩
  · rintro ⟨hknown, rfl⟩
    exact ⟨_, (h s _).mpr ⟨hknown, rfl⟩, by rw [degree_snoc hfresh s, Nat.add_sub_cancel_left]⟩

/-- Between two rounds. -/
structure Draining (edges : List (α × α)) (known : α → Prop) (degrees : Degrees α)
    (queue order : List α) : Prop where
  nodup : (order ++ queue).Nodup
  counts : Counts edges known degrees order
  queued : ∀ s, s ∈ order ++ queue ↔ degrees.lookup s = some 0
  topological : Topological (Edge edges) order

theorem Draining.known_of_mem (h : Draining edges known degrees queue order)
    (hs : s ∈ order ++ queue) : known s := ((h.counts s 0).mp ((h.queued s).mp hs)).1

theorem Draining.preds (h : Draining edges known degrees queue order) (hs : s ∈ order ++ queue) :
    ∀ x, Edge edges x s → x ∈ order :=
  degree_eq_zero_iff.mp ((h.counts s 0).mp ((h.queued s).mp hs)).2

/-- A round takes a node off the queue. -/
theorem Draining.step (htargets : ∀ x y, Edge edges x y → known y)
    (h : Draining edges known degrees (x :: queue) order) :
    ∃ degrees' queue', (after edges x).foldlM release (degrees, queue) = some (degrees', queue') ∧
      Draining edges known degrees' queue' (order ++ [x]) := by
  have hfresh : x ∉ order := fun hmem =>
    (List.nodup_append.mp h.nodup).2.2 x hmem x List.mem_cons_self rfl
  have hcounts : ∀ s ∈ after edges x, ∃ deg, degrees.lookup s = some deg ∧
      (after edges x).count s ≤ deg := by
    intro s hs
    refine ⟨_, (h.counts s _).mpr ⟨htargets x s (mem_after.mp hs), rfl⟩, ?_⟩
    rw [degree_snoc hfresh]
    exact Nat.le_add_right _ _
  obtain ⟨degrees', freed, hrun, hreleased⟩ :=
    foldlM_release (after edges x) degrees queue hcounts
  have hsplit : order ++ [x] ++ (queue ++ freed) = order ++ x :: queue ++ freed := by
    simp
  refine ⟨degrees', queue ++ freed, hrun, ?_, h.counts.released hfresh hreleased, fun s => ?_, ?_⟩
  · rw [hsplit, List.nodup_append]
    refine ⟨h.nodup, hreleased.nodup, fun s hs t ht hst => ?_⟩
    -- what is queued now had an edge left before this round
    obtain ⟨hin, hcount⟩ := (hreleased.mem t).mp ht
    have hzero := (h.queued s).mp hs
    rw [hst, hcount, Option.some.injEq] at hzero
    exact absurd (List.count_pos_iff.mpr hin) (hzero ▸ Nat.lt_irrefl 0)
  · rw [hsplit, List.mem_append, h.queued, hreleased.lookup_eq_zero_iff hcounts]
  · exact topological_snoc_iff.mpr
      ⟨h.topological, h.preds (List.mem_append_right _ List.mem_cons_self)⟩

/-- When everything known is in the order, nothing can be queued any more. -/
theorem Draining.queue_eq_nil {nodes : List α} (h : Draining edges known degrees queue order)
    (hnodes : ∀ s, known s → s ∈ nodes) (hfull : nodes.length ≤ order.length) : queue = [] := by
  by_contra hne
  have hsub : order ++ queue ⊆ nodes := fun s hs => hnodes s (h.known_of_mem hs)
  have hlength := (List.subperm_of_subset h.nodup hsub).length_le
  have hpos := List.length_pos_iff.mpr hne
  rw [List.length_append] at hlength
  omega

/-- **The loop ends with an order to which nothing can be added.** -/
theorem Draining.drain {nodes : List α} {rounds : ℕ} (htargets : ∀ x y, Edge edges x y → known y)
    (hnodes : ∀ s, known s → s ∈ nodes) (h : Draining edges known degrees queue order)
    (hrounds : nodes.length ≤ rounds + order.length) :
    ∃ degrees' order', EdgeList.drain (after edges) rounds (degrees, queue) order =
        some (degrees', order') ∧
      Draining edges known degrees' [] order' := by
  induction rounds generalizing degrees queue order with
  | zero =>
      obtain rfl := h.queue_eq_nil hnodes (hrounds.trans_eq (Nat.zero_add _))
      exact ⟨degrees, order, by rw [EdgeList.drain], h⟩
  | succ rounds ih =>
      cases queue with
      | nil => exact ⟨degrees, order, by rw [EdgeList.drain], h⟩
      | cons node queue =>
          obtain ⟨degrees', queue', hrun, hnext⟩ := h.step htargets
          rw [EdgeList.drain, hrun]
          refine ih hnext ?_
          rw [List.length_append, List.length_singleton]
          omega

/-- Before the first round. -/
theorem draining_start (hcounts : Counts edges known degrees [])
    (hqueue : queue.Perm (free degrees)) : Draining edges known degrees queue [] := by
  refine ⟨?_, hcounts, fun s => ?_, topological_nil⟩
  · rw [List.nil_append, hqueue.nodup_iff]
    exact nodup_free degrees
  · rw [List.nil_append, hqueue.mem_iff, mem_free]

/-- When nothing is queued any more, the order holds what is known and not held up. -/
theorem Draining.mem_iff (h : Draining edges known degrees [] order) :
    s ∈ order ↔ known s ∧ ¬ HeldUp (Edge edges) known s := by
  obtain ⟨inner, hinner⟩ := exists_inner edges
  refine h.topological.mem_iff_not_heldUp hinner ?_ ?_
  · exact fun x hx => h.known_of_mem (List.mem_append_left _ hx)
  · intro x hknown hpreds
    have hqueued := (h.queued x).mpr ((h.counts x 0).mpr ⟨hknown, degree_eq_zero_iff.mpr hpreds⟩)
    rwa [List.append_nil] at hqueued

/-- **What the loop puts in order is what is known and not held up, and an edge is left to what is
held up.** -/
theorem drain_spec {rounds : ℕ} (htargets : ∀ x y, Edge edges x y → known y)
    (hcounts : Counts edges known degrees []) (hqueue : queue.Perm (free degrees))
    (hrounds : degrees.keys.length ≤ rounds) :
    ∃ degrees' order, drain (after edges) rounds (degrees, queue) [] = some (degrees', order) ∧
      order.Nodup ∧ Topological (Edge edges) order ∧
      (∀ s, s ∈ order ↔ known s ∧ ¬ HeldUp (Edge edges) known s) ∧
      ∀ s, s ∈ left degrees' ↔ known s ∧ HeldUp (Edge edges) known s := by
  have hstart : Draining edges known degrees queue [] := draining_start hcounts hqueue
  obtain ⟨degrees', order, hrun, hend⟩ := hstart.drain htargets
    (fun s hs => hcounts.mem_keys_iff.mpr hs) (hrounds.trans (Nat.le_add_right _ _))
  have hnodup := hend.nodup
  rw [List.append_nil] at hnodup
  refine ⟨degrees', order, hrun, hnodup, hend.topological, fun s => hend.mem_iff, fun s => ?_⟩
  have hleft : s ∈ left degrees' ↔ known s ∧ s ∉ order := by
    have hqueued := hend.queued s
    rw [List.append_nil] at hqueued
    rw [mem_left, ← hend.counts.mem_keys_iff, hqueued, ← AList.mem_keys, ← AList.lookup_isSome]
    rcases degrees'.lookup s with _ | _ | deg <;> simp
  rw [hleft, hend.mem_iff, not_and, not_not]
  exact and_congr_right fun hknown => forall_prop_of_true hknown

/-! ### The same with a stack -/

/-- Take off the node that was queued last, until none is left. -/
def drainLast (succs : α → List α) :
    ℕ → Degrees α × List α → List α → Option (Degrees α × List α)
  | 0, (degrees, queue), order => if queue.isEmpty then some (degrees, order) else none
  | rounds + 1, (degrees, queue), order =>
      match queue.getLast? with
      | none => some (degrees, order)
      | some node =>
          ((succs node).foldlM release (degrees, queue.dropLast)).bind fun st =>
            drainLast succs rounds st (order ++ [node])

/-- Which node is next in the queue makes no difference. -/
theorem Draining.perm {queue' : List α} (h : Draining edges known degrees queue order)
    (hperm : queue'.Perm queue) : Draining edges known degrees queue' order where
  nodup := (hperm.append_left order).nodup_iff.mpr h.nodup
  counts := h.counts
  queued s := (hperm.append_left order).mem_iff.trans (h.queued s)
  topological := h.topological

/-- **The loop with a stack ends likewise.** -/
theorem Draining.drainLast {nodes : List α} {rounds : ℕ}
    (htargets : ∀ x y, Edge edges x y → known y) (hnodes : ∀ s, known s → s ∈ nodes)
    (h : Draining edges known degrees queue order)
    (hrounds : nodes.length ≤ rounds + order.length) :
    ∃ degrees' order', EdgeList.drainLast (after edges) rounds (degrees, queue) order =
        some (degrees', order') ∧
      Draining edges known degrees' [] order' := by
  induction rounds generalizing degrees queue order with
  | zero =>
      obtain rfl := h.queue_eq_nil hnodes (hrounds.trans_eq (Nat.zero_add _))
      exact ⟨degrees, order, rfl, h⟩
  | succ rounds ih =>
      rcases List.eq_nil_or_concat queue with rfl | ⟨front, node, rfl⟩
      · exact ⟨degrees, order, rfl, h⟩
      · rw [List.concat_eq_append] at h ⊢
        obtain ⟨degrees', queue', hrun, hnext⟩ :=
          (h.perm (List.perm_append_singleton node front).symm).step htargets
        rw [EdgeList.drainLast, List.getLast?_concat, List.dropLast_concat]
        simp only [hrun, Option.bind_some]
        refine ih hnext ?_
        rw [List.length_append, List.length_singleton]
        omega

/-- …and puts the same nodes in order. -/
theorem drainLast_spec {rounds : ℕ} (htargets : ∀ x y, Edge edges x y → known y)
    (hcounts : Counts edges known degrees []) (hqueue : queue.Perm (free degrees))
    (hrounds : degrees.keys.length ≤ rounds) :
    ∃ degrees' order, drainLast (after edges) rounds (degrees, queue) [] = some (degrees', order) ∧
      order.Nodup ∧ Topological (Edge edges) order ∧
      ∀ s, s ∈ order ↔ known s ∧ ¬ HeldUp (Edge edges) known s := by
  obtain ⟨degrees', order, hrun, hend⟩ := (draining_start hcounts hqueue).drainLast htargets
    (fun s hs => hcounts.mem_keys_iff.mpr hs) (hrounds.trans (Nat.le_add_right _ _))
  have hnodup := hend.nodup
  rw [List.append_nil] at hnodup
  exact ⟨degrees', order, hrun, hnodup, hend.topological, fun s => hend.mem_iff⟩

/-! ### A search -/

section Search

variable {goal start : α} {stack visited : List α} {rounds : ℕ}

/-- Look for a node from those on a stack, the last one first; none if that takes too many
rounds. -/
def search (succs : α → List α) (goal : α) : ℕ → List α → List α → Option Bool
  | _, [], _ => some false
  | 0, _ :: _, _ => none
  | rounds + 1, node :: stack, visited =>
      if node = goal then some true
      else if node ∈ visited then search succs goal rounds stack visited
      else search succs goal rounds ((succs node).reverse ++ stack) (node :: visited)

/-- The edges that have not been followed. -/
def unfollowed (edges : List (α × α)) (visited : List α) : ℕ :=
  edges.countP fun e => e.1 ∉ visited

theorem unfollowed_cons (hfresh : x ∉ visited) :
    unfollowed edges visited = (after edges x).length + unfollowed edges (x :: visited) := by
  rw [unfollowed, List.countP_eq_countP_filter_add _ _ (fun e => decide (e.1 = x)), after,
    List.length_map, unfollowed]
  refine congrArg₂ (· + ·) ?_ ?_
  · refine List.countP_eq_length.mpr fun e he => ?_
    have hfrom : e.1 = x := of_decide_eq_true (List.mem_filter.mp he).2
    rw [hfrom]
    exact decide_eq_true hfresh
  · rw [List.countP_filter]
    refine List.countP_congr fun e _ => ?_
    simp [and_comm]

/-- Between two rounds of the search. -/
structure Searching (edges : List (α × α)) (start goal : α) (stack visited : List α) : Prop where
  begun : start ∈ stack ∨ start ∈ visited
  reached : ∀ x ∈ stack, ReflTransGen (Edge edges) start x
  reachedVisited : ∀ x ∈ visited, ReflTransGen (Edge edges) start x
  followed : ∀ x ∈ visited, ∀ y, Edge edges x y → y ∈ stack ∨ y ∈ visited
  missed : goal ∉ visited

omit [DecidableEq α] in
theorem Searching.skip (h : Searching edges start goal (x :: stack) visited) (hx : x ∈ visited) :
    Searching edges start goal stack visited where
  begun := by
    rcases h.begun with hmem | hmem
    · rcases List.mem_cons.mp hmem with rfl | hmem
      · exact Or.inr hx
      · exact Or.inl hmem
    · exact Or.inr hmem
  reached y hy := h.reached y (List.mem_cons_of_mem x hy)
  reachedVisited := h.reachedVisited
  followed z hz y hy := by
    rcases h.followed z hz y hy with hmem | hmem
    · rcases List.mem_cons.mp hmem with rfl | hmem
      · exact Or.inr hx
      · exact Or.inl hmem
    · exact Or.inr hmem
  missed := h.missed

theorem Searching.visit (h : Searching edges start goal (x :: stack) visited) (hx : x ≠ goal) :
    Searching edges start goal ((after edges x).reverse ++ stack) (x :: visited) := by
  have hmoved : ∀ y, y ∈ x :: stack ∨ y ∈ visited →
      y ∈ (after edges x).reverse ++ stack ∨ y ∈ x :: visited := by
    intro y hy
    simp only [List.mem_cons, List.mem_append] at hy ⊢
    tauto
  have hself := h.reached x List.mem_cons_self
  refine ⟨hmoved _ h.begun, fun y hy => ?_, fun y hy => ?_, fun z hz y hy => ?_, fun hmem => ?_⟩
  · rcases List.mem_append.mp hy with hy | hy
    · exact hself.tail (mem_after.mp (List.mem_reverse.mp hy))
    · exact h.reached y (List.mem_cons_of_mem x hy)
  · rcases List.mem_cons.mp hy with rfl | hy
    · exact hself
    · exact h.reachedVisited y hy
  · rcases List.mem_cons.mp hz with rfl | hz
    · exact Or.inl (List.mem_append_left _ (List.mem_reverse.mpr (mem_after.mpr hy)))
    · exact hmoved y (h.followed z hz y hy)
  · rcases List.mem_cons.mp hmem with rfl | hmem
    · exact hx rfl
    · exact h.missed hmem

omit [DecidableEq α] in
/-- With nothing left on the stack, all that can be reached has been visited. -/
theorem Searching.not_reached (h : Searching edges start goal [] visited) :
    ¬ ReflTransGen (Edge edges) start goal := by
  intro hway
  have hvisited : ∀ x, ReflTransGen (Edge edges) start x → x ∈ visited := by
    intro x hx
    induction hx with
    | refl => exact h.begun.resolve_left List.not_mem_nil
    | tail _ hedge ih => exact (h.followed _ ih _ hedge).resolve_left List.not_mem_nil
  exact h.missed (hvisited goal hway)

theorem Searching.search (h : Searching edges start goal stack visited)
    (hrounds : stack.length + unfollowed edges visited ≤ rounds) :
    ∃ found, EdgeList.search (after edges) goal rounds stack visited = some found ∧
      (found = true ↔ ReflTransGen (Edge edges) start goal) := by
  induction rounds generalizing stack visited with
  | zero =>
      obtain rfl : stack = [] := List.length_eq_zero_iff.mp (by omega)
      exact ⟨false, by rw [EdgeList.search], iff_of_false Bool.false_ne_true h.not_reached⟩
  | succ rounds ih =>
      cases stack with
      | nil => exact ⟨false, by rw [EdgeList.search], iff_of_false Bool.false_ne_true h.not_reached⟩
      | cons x stack =>
          rw [List.length_cons] at hrounds
          rw [EdgeList.search]
          split_ifs with hgoal hvisited
          · exact ⟨true, rfl, iff_of_true rfl (hgoal ▸ h.reached x List.mem_cons_self)⟩
          · exact ih (h.skip hvisited) (by omega)
          · refine ih (h.visit hgoal) ?_
            rw [unfollowed_cons hvisited] at hrounds
            rw [List.length_append, List.length_reverse]
            omega

/-- **The search finds the node just where a way leads to it.** -/
theorem search_spec (edges : List (α × α)) (start goal : α) :
    ∃ found, search (after edges) goal (edges.length + 1) [start] [] = some found ∧
      (found = true ↔ ReflTransGen (Edge edges) start goal) := by
  have hstart : Searching edges start goal [start] [] := by
    refine ⟨Or.inl List.mem_cons_self, fun x hx => ?_, by simp, by simp, List.not_mem_nil⟩
    rw [List.mem_singleton.mp hx]
  refine hstart.search ?_
  rw [List.length_singleton, Nat.add_comm]
  exact Nat.add_le_add_right List.countP_le_length _

end Search

end ClawDesk.Foundations.EdgeList
