import ClawDesk.Foundations.EdgeList
import ClawDesk.Foundations.Fold
import Mathlib.Algebra.GroupWithZero.Nat

/-!
# Resolution of skill dependencies

The resolver puts skills in an order of activation with Kahn's algorithm.  Where a dependency is no
skill, it gives up; otherwise what the order does not hold is reported as part of a cycle.

So the order holds the skills that come after no cycle, and the others are reported
(`resolve_spec`).  A search among the dependents of a skill tells beforehand whether one more
dependency would close a cycle (`wouldCycle_spec`).
-/

namespace ClawDesk.Skills

open Foundations
open Foundations.EdgeList (Degrees Edge after)
open Relation

abbrev SkillId := String

/-- A skill and what it depends on. -/
abbrev SkillDeps := SkillId × List SkillId

/-- Why a skill couldn't be resolved. -/
inductive UnresolvedReason where
  /-- A required dependency is not in the registry. -/
  | missingDependency (dependency : SkillId)
  /-- Part of a dependency cycle. -/
  | cyclicDependency (cycle : List SkillId)
  deriving DecidableEq

/-- The reason as it is shown. -/
def UnresolvedReason.toText : UnresolvedReason → String
  | missingDependency dependency => "missing dependency: " ++ dependency
  | cyclicDependency cycle => "cyclic dependency among: " ++ ", ".intercalate cycle

/-- A skill that could not be resolved. -/
structure UnresolvedSkill where
  id : SkillId
  reason : UnresolvedReason
  deriving DecidableEq

/-- Result of dependency resolution. -/
structure ResolutionResult where
  /-- Skills in valid activation order. -/
  activationOrder : List SkillId
  /-- Skills that could not be resolved. -/
  unresolved : List UnresolvedSkill
  deriving DecidableEq

namespace SkillResolver

/-- If A depends on B, then B → A. -/
abbrev Adjacency := AList fun _ : SkillId => List SkillId

/-- The dependencies that are no skills. -/
def missing (skills : List SkillDeps) : List UnresolvedSkill :=
  skills.flatMap fun skill =>
    (skill.2.filter fun dep => dep ∉ skills.map (·.1)).map fun dep =>
      ⟨skill.1, .missingDependency dep⟩

/-- A skill in the adjacency list and the in-degree map. -/
def addNode (st : Adjacency × Degrees SkillId) (id : SkillId) : Adjacency × Degrees SkillId :=
  (st.1.insert id ((st.1.lookup id).getD []), EdgeList.enter st.2 id)

/-- An edge in the adjacency list and the in-degree map. -/
def addEdge (id : SkillId) (st : Adjacency × Degrees SkillId) (dep : SkillId) :
    Adjacency × Degrees SkillId :=
  (EdgeList.push st.1 (dep, id), EdgeList.count st.2 id)

/-- Build adjacency list and in-degree map. -/
def buildGraph (skills : List SkillDeps) : Adjacency × Degrees SkillId :=
  let nodes := skills.foldl (fun st skill => addNode st skill.1) (∅, ∅)
  skills.foldl (fun st skill => skill.2.foldl (addEdge skill.1) st) nodes

/-- What the adjacency list has for a node. -/
def neighbors (adj : Adjacency) (node : SkillId) : List SkillId := (adj.lookup node).getD []

/-- Any remaining nodes with in-degree > 0 are part of cycles. -/
def report (it : HashOrder SkillId) (skills : List SkillDeps) (inDegree : Degrees SkillId)
    (activationOrder : List SkillId) : ResolutionResult :=
  if activationOrder.length < skills.length then
    let cycleNodes := it.order (EdgeList.left inDegree)
    ⟨activationOrder, cycleNodes.map fun id => ⟨id, .cyclicDependency cycleNodes⟩⟩
  else ⟨activationOrder, []⟩

/-- Resolve activation order for a set of skills and their dependencies; none if a count goes below
zero or the loop does not end. -/
def resolve (it : HashOrder SkillId) (skills : List SkillDeps) : Option ResolutionResult :=
  if missing skills ≠ [] then some ⟨[], missing skills⟩
  else
    let adj := (buildGraph skills).1
    let inDegree := (buildGraph skills).2
    let queue := it.order (EdgeList.free inDegree)
    -- Every round takes a node off the queue, and none is queued twice.
    (EdgeList.drain (neighbors adj) inDegree.keys.length (inDegree, queue) []).map fun st =>
      report it skills st.1 st.2

/-- Check if adding a dependency of a skill on a target would create a cycle; none if the search
does not end. -/
def wouldCycle (skills : List SkillDeps) (source target : SkillId) : Option Bool :=
  let adj : Adjacency := skills.foldl (fun adj skill =>
    skill.2.foldl (fun adj dep => EdgeList.push adj (dep, skill.1)) adj) ∅
  -- Every round takes a node off the stack, and each edge is followed once.
  EdgeList.search (neighbors adj) target ((skills.map fun skill => skill.2.length).sum + 1)
    [source] []

/-! ### The dependency graph -/

variable {skills : List SkillDeps} {id dep : SkillId}

/-- From a dependency to what depends on it. -/
def edges (skills : List SkillDeps) : List (SkillId × SkillId) :=
  skills.flatMap fun skill => skill.2.map fun dep => (dep, skill.1)

/-- The ids of the skills. -/
def ids (skills : List SkillDeps) : List SkillId := skills.map (·.1)

/-- One skill depends on the other. -/
def DependsOn (skills : List SkillDeps) (id dep : SkillId) : Prop :=
  ∃ deps, (id, deps) ∈ skills ∧ dep ∈ deps

theorem edge_iff : Edge (edges skills) dep id ↔ DependsOn skills id dep := by
  simp [Edge, edges, DependsOn]

theorem length_edges (skills : List SkillDeps) :
    (edges skills).length = (skills.map fun skill => skill.2.length).sum := by
  simp [edges, List.length_flatMap]

theorem foldl_edges {σ : Type} (f : σ → SkillId × SkillId → σ) (skills : List SkillDeps) (st : σ) :
    skills.foldl (fun st skill => skill.2.foldl (fun st dep => f st (dep, skill.1)) st) st =
      (edges skills).foldl f st := by
  rw [edges, List.foldl_flatMap]
  simp only [List.foldl_map]

theorem foldl_pair {α β ι : Type} (f : α → ι → α) (g : β → ι → β) (l : List ι) (a : α) (b : β) :
    l.foldl (fun st i => (f st.1 i, g st.2 i)) (a, b) = (l.foldl f a, l.foldl g b) := by
  induction l generalizing a b with
  | nil => rfl
  | cons i l ih => exact ih _ _

theorem lookup_foldl_getD (l : List SkillId) (adj : Adjacency) (id : SkillId) :
    ((l.foldl (fun adj id => adj.insert id ((adj.lookup id).getD [])) adj).lookup id).getD [] =
      (adj.lookup id).getD [] := by
  induction l generalizing adj with
  | nil => rfl
  | cons x l ih =>
      rw [List.foldl_cons, ih]
      rcases eq_or_ne id x with rfl | hne
      · rw [AList.lookup_insert, Option.getD_some]
      · rw [AList.lookup_insert_ne hne]

theorem buildGraph_eq (skills : List SkillDeps) : buildGraph skills =
    ((edges skills).foldl EdgeList.push
        ((ids skills).foldl (fun adj id => adj.insert id ((adj.lookup id).getD [])) ∅),
      ((edges skills).map (·.2)).foldl EdgeList.count ((ids skills).foldl EdgeList.enter ∅)) := by
  have hnodes : skills.foldl (fun st skill => addNode st skill.1) (∅, ∅) =
      ((ids skills).foldl (fun adj id => adj.insert id ((adj.lookup id).getD [])) ∅,
        (ids skills).foldl EdgeList.enter ∅) := by
    rw [ids, List.foldl_map, List.foldl_map, ← foldl_pair]
    rfl
  unfold buildGraph
  dsimp only
  rw [hnodes, List.foldl_map]
  exact (foldl_edges (fun st e => (EdgeList.push st.1 e, EdgeList.count st.2 e.2)) skills _).trans
    (foldl_pair EdgeList.push (fun degrees e => EdgeList.count degrees e.2) _ _ _)

/-- The adjacency list leads along the edges. -/
theorem neighbors_buildGraph (skills : List SkillDeps) :
    neighbors (buildGraph skills).1 = after (edges skills) := by
  funext node
  rw [neighbors, buildGraph_eq, EdgeList.lookup_foldl_push, lookup_foldl_getD]
  rfl

theorem mem_ids_of_dependsOn (h : DependsOn skills id dep) : id ∈ ids skills := by
  obtain ⟨deps, hskill, -⟩ := h
  exact List.mem_map.mpr ⟨_, hskill, rfl⟩

theorem counts_buildGraph (skills : List SkillDeps) :
    EdgeList.Counts (edges skills) (· ∈ ids skills) (buildGraph skills).2 [] := by
  have hknown : (fun id => id ∈ ids skills ∨ ∃ dep, Edge (edges skills) dep id) =
      (· ∈ ids skills) := by
    ext id
    exact or_iff_left_of_imp fun ⟨dep, hdep⟩ => mem_ids_of_dependsOn (edge_iff.mp hdep)
  rw [buildGraph_eq, ← hknown]
  exact EdgeList.counts_foldl (ids skills) (edges skills)

/-! ### What is resolved -/

/-- Every dependency is a skill. -/
def Closed (skills : List SkillDeps) : Prop :=
  ∀ id dep, DependsOn skills id dep → dep ∈ ids skills

/-- On a dependency cycle, or transitively dependent on one. -/
def AfterCycle (skills : List SkillDeps) (id : SkillId) : Prop :=
  ∃ origin, ReflTransGen (DependsOn skills) id origin ∧
    TransGen (DependsOn skills) origin origin

theorem missing_eq_nil_iff : missing skills = [] ↔ Closed skills := by
  simp only [missing, List.flatMap_eq_nil_iff, List.map_eq_nil_iff, List.filter_eq_nil_iff,
    decide_eq_true_eq, not_not, Closed, DependsOn, ids]
  constructor
  · rintro h id dep ⟨deps, hskill, hdep⟩
    exact h (id, deps) hskill dep hdep
  · rintro h ⟨id, deps⟩ hskill dep hdep
    exact h id dep ⟨deps, hskill, hdep⟩

theorem edge_eq_swap (skills : List SkillDeps) :
    Edge (edges skills) = Function.swap (DependsOn skills) := by
  funext dep id
  exact propext edge_iff

theorem heldUp_iff_afterCycle (hclosed : Closed skills) (hid : id ∈ ids skills) :
    HeldUp (Edge (edges skills)) (· ∈ ids skills) id ↔ AfterCycle skills id := by
  unfold HeldUp AfterCycle
  refine exists_congr fun origin => ?_
  rw [edge_eq_swap, reflTransGen_swap, transGen_swap]
  refine and_congr_right fun hway => or_iff_left (not_not_intro ?_)
  rcases hway.cases_tail with heq | ⟨x, -, hlast⟩
  · exact heq ▸ hid
  · exact hclosed x origin hlast

section Report

variable (it : HashOrder SkillId) {inDegree : Degrees SkillId} {activationOrder : List SkillId}

theorem activationOrder_report :
    (report it skills inDegree activationOrder).activationOrder = activationOrder := by
  unfold report
  split_ifs <;> rfl

/-- What is reported, when the order is not as long as the list of the skills. -/
theorem map_id_unresolved_report :
    (report it skills inDegree activationOrder).unresolved.map (·.id) =
      if activationOrder.length < skills.length then it.order (EdgeList.left inDegree) else [] := by
  unfold report
  split_ifs
  · rw [List.map_map]
    exact List.map_id' _
  · rfl

end Report

/-- **The order holds the skills that come after no cycle, and the others are reported.** -/
theorem resolve_of_closed (it : HashOrder SkillId)
    (hclosed : Closed skills) : ∃ result, resolve it skills = some result ∧
      result.activationOrder.Nodup ∧
      Topological (Edge (edges skills)) result.activationOrder ∧
      (∀ id, id ∈ result.activationOrder ↔ id ∈ ids skills ∧ ¬ AfterCycle skills id) ∧
      (result.unresolved.map (·.id)).Nodup ∧
      ∀ id, id ∈ result.unresolved.map (·.id) ↔ id ∈ ids skills ∧ AfterCycle skills id := by
  obtain ⟨inDegree, activationOrder, hrun, horder, htopological, hmem, hleft⟩ :=
    EdgeList.drain_spec (fun dep id h => mem_ids_of_dependsOn (edge_iff.mp h))
      (counts_buildGraph skills) (it.perm (EdgeList.free (buildGraph skills).2)) le_rfl
  have hresolve : resolve it skills = some (report it skills inDegree activationOrder) := by
    unfold resolve
    rw [if_neg (not_not_intro (missing_eq_nil_iff.mpr hclosed))]
    dsimp only
    rw [neighbors_buildGraph, hrun]
    rfl
  have hmem' : ∀ id, id ∈ activationOrder ↔ id ∈ ids skills ∧ ¬ AfterCycle skills id := by
    intro id
    rw [hmem]
    exact and_congr_right fun hid => not_congr (heldUp_iff_afterCycle hclosed hid)
  refine ⟨_, hresolve, ?_⟩
  rw [activationOrder_report, map_id_unresolved_report]
  refine ⟨horder, htopological, hmem', ?_⟩
  split_ifs with hshort
  · refine ⟨(it.perm _).nodup_iff.mpr (EdgeList.nodup_left inDegree), fun id => ?_⟩
    rw [(it.perm _).mem_iff, hleft]
    exact and_congr_right fun hid => heldUp_iff_afterCycle hclosed hid
  · refine ⟨List.nodup_nil, fun id => iff_of_false List.not_mem_nil ?_⟩
    rintro ⟨hid, hcycle⟩
    -- an order as long as the list of the skills holds all of them
    have hsub : activationOrder ⊆ ids skills := fun id hid => ((hmem' id).mp hid).1
    have hlength : (ids skills).length ≤ activationOrder.length := by
      rw [ids, List.length_map]
      exact not_lt.mp hshort
    have hperm := (List.subperm_of_subset horder hsub).perm_of_length_le hlength
    exact ((hmem' id).mp (hperm.mem_iff.mpr hid)).2 hcycle

theorem not_acyclic_iff : ¬ Acyclic (DependsOn skills) ↔
    ∃ id, id ∈ ids skills ∧ AfterCycle skills id := by
  simp only [Acyclic, not_forall, not_not]
  constructor
  · rintro ⟨id, hcycle⟩
    obtain ⟨dep, hdep, -⟩ := TransGen.head'_iff.mp hcycle
    exact ⟨id, mem_ids_of_dependsOn hdep, id, .refl, hcycle⟩
  · rintro ⟨-, -, origin, -, hcycle⟩
    exact ⟨origin, hcycle⟩

/-- **Nothing is left unresolved where every dependency is a skill and there is no cycle.** -/
theorem resolve_unresolved_eq_nil_iff (it : HashOrder SkillId) (skills : List SkillDeps) :
    ∃ result, resolve it skills = some result ∧
      (result.unresolved = [] ↔ Closed skills ∧ Acyclic (DependsOn skills)) := by
  by_cases hclosed : Closed skills
  · obtain ⟨result, hrun, -, -, -, -, hreported⟩ := resolve_of_closed it hclosed
    refine ⟨result, hrun, ?_⟩
    rw [and_iff_right hclosed, ← not_iff_not, not_acyclic_iff]
    simp only [← hreported]
    constructor
    · intro hne
      obtain ⟨skill, hskill⟩ := List.exists_mem_of_ne_nil _ hne
      exact ⟨skill.id, List.mem_map_of_mem hskill⟩
    · rintro ⟨id, hid⟩ hnil
      rw [hnil] at hid
      exact List.not_mem_nil hid
  · have hmissing : missing skills ≠ [] := fun h => hclosed (missing_eq_nil_iff.mp h)
    refine ⟨⟨[], missing skills⟩, ?_, iff_of_false hmissing fun h => hclosed h.1⟩
    rw [resolve, if_pos hmissing]

/-! ### One more dependency -/

section WouldCycle

variable {source target : SkillId}

/-- The skills, with the target added to what the source depends on. -/
def withDependency (skills : List SkillDeps) (source target : SkillId) : List SkillDeps :=
  skills.map fun skill => if skill.1 = source then (skill.1, skill.2 ++ [target]) else skill

theorem ids_withDependency : ids (withDependency skills source target) = ids skills := by
  rw [ids, withDependency, List.map_map]
  refine List.map_congr_left fun skill _ => ?_
  show (if skill.1 = source then (skill.1, skill.2 ++ [target]) else skill).1 = skill.1
  split_ifs <;> rfl

theorem dependsOn_withDependency (hsource : source ∈ ids skills) :
    DependsOn (withDependency skills source target) id dep ↔
      DependsOn skills id dep ∨ id = source ∧ dep = target := by
  simp only [DependsOn, withDependency, List.mem_map]
  constructor
  · rintro ⟨deps, ⟨skill, hskill, heq⟩, hdep⟩
    split_ifs at heq with hid
    · obtain ⟨rfl, rfl⟩ := Prod.mk.inj heq
      rcases List.mem_append.mp hdep with hdep | hdep
      · exact Or.inl ⟨skill.2, hskill, hdep⟩
      · exact Or.inr ⟨hid, List.mem_singleton.mp hdep⟩
    · exact Or.inl ⟨deps, heq ▸ hskill, hdep⟩
  · rintro (⟨deps, hskill, hdep⟩ | ⟨rfl, rfl⟩)
    · by_cases hid : id = source
      · exact ⟨deps ++ [target], ⟨_, hskill, if_pos hid⟩, List.mem_append_left _ hdep⟩
      · exact ⟨deps, ⟨_, hskill, if_neg hid⟩, hdep⟩
    · obtain ⟨⟨id, deps⟩, hskill, rfl⟩ := List.mem_map.mp hsource
      exact ⟨deps ++ [dep], ⟨_, hskill, if_pos rfl⟩, by simp⟩

theorem closed_withDependency (hclosed : Closed skills) (hsource : source ∈ ids skills)
    (htarget : target ∈ ids skills) : Closed (withDependency skills source target) := by
  intro id dep hdep
  rw [ids_withDependency]
  rcases (dependsOn_withDependency hsource).mp hdep with hdep | ⟨-, rfl⟩
  · exact hclosed id dep hdep
  · exact htarget

/-- The search looks for a way from the target to the source along the dependencies. -/
theorem wouldCycle_eq (skills : List SkillDeps) (source target : SkillId) :
    ∃ found, wouldCycle skills source target = some found ∧
      (found = true ↔ ReflTransGen (DependsOn skills) target source) := by
  obtain ⟨found, hrun, hfound⟩ := EdgeList.search_spec (edges skills) source target
  have hneighbors : neighbors ((edges skills).foldl EdgeList.push ∅) = after (edges skills) := by
    funext node
    rw [neighbors, EdgeList.lookup_foldl_push]
    rfl
  refine ⟨found, ?_, ?_⟩
  · unfold wouldCycle
    rw [foldl_edges EdgeList.push]
    dsimp only
    rw [hneighbors, ← length_edges, hrun]
  · rw [hfound, edge_eq_swap, reflTransGen_swap]

/-- **One more dependency would close a cycle just where the search says so.** -/
theorem acyclic_withDependency_iff (hacyclic : Acyclic (DependsOn skills))
    (hsource : source ∈ ids skills) :
    Acyclic (DependsOn (withDependency skills source target)) ↔
      wouldCycle skills source target = some false := by
  obtain ⟨found, hrun, hfound⟩ := wouldCycle_eq skills source target
  have hinsert : DependsOn (withDependency skills source target) =
      fun id dep => DependsOn skills id dep ∨ id = source ∧ dep = target := by
    funext id dep
    exact propext (dependsOn_withDependency hsource)
  rw [hinsert, acyclic_insert_iff hacyclic, ← hfound, hrun, Option.some.injEq,
    Bool.not_eq_true]

end WouldCycle

/-- **The order holds what comes after no dependency cycle, dependencies first, and the rest is
reported; a dependency that would leave something to report is told beforehand.** -/
theorem resolve_spec (it : HashOrder SkillId) (skills : List SkillDeps) (hclosed : Closed skills) :
    (∃ result, resolve it skills = some result ∧ result.activationOrder.Nodup ∧
      (∀ id, id ∈ result.activationOrder ↔ id ∈ ids skills ∧ ¬ AfterCycle skills id) ∧
      (∀ id ∈ result.activationOrder, ∀ dep, DependsOn skills id dep →
        result.activationOrder.idxOf dep < result.activationOrder.idxOf id) ∧
      (result.unresolved.map (·.id)).Nodup ∧
      ∀ id, id ∈ result.unresolved.map (·.id) ↔ id ∈ ids skills ∧ AfterCycle skills id) ∧
    (Acyclic (DependsOn skills) → ∀ source ∈ ids skills, ∀ target ∈ ids skills,
      ∃ found result, wouldCycle skills source target = some found ∧
        resolve it (withDependency skills source target) = some result ∧
        (found = true ↔ result.unresolved ≠ [])) := by
  constructor
  · obtain ⟨result, hrun, hnodup, htopological, hmem, hreported⟩ := resolve_of_closed it hclosed
    refine ⟨result, hrun, hnodup, hmem, fun id hid dep hdep => ?_, hreported⟩
    exact htopological.idxOf_lt hnodup hid (edge_iff.mpr hdep)
  · intro hacyclic source hsource target htarget
    obtain ⟨found, hfound, -⟩ := wouldCycle_eq skills source target
    obtain ⟨result, hrun, hnil⟩ :=
      resolve_unresolved_eq_nil_iff it (withDependency skills source target)
    refine ⟨found, result, hfound, hrun, ?_⟩
    rw [ne_eq, hnil, and_iff_right (closed_withDependency hclosed hsource htarget),
      acyclic_withDependency_iff hacyclic hsource, hfound, Option.some.injEq, Bool.not_eq_false]

/-- A skill that depends on another twice, and one behind a cycle. -/
def twiceAndRing : List SkillDeps :=
  [("app", ["lib", "lib"]), ("lib", []), ("ring", ["ring"]), ("tail", ["ring", "app"])]

theorem resolve_spec_twiceAndRing : ∃ result,
    resolve ⟨fun ids => ids, fun _ => .refl _⟩ twiceAndRing = some result ∧
      ∀ id, id ∈ result.activationOrder ↔
        id ∈ ids twiceAndRing ∧ ¬ AfterCycle twiceAndRing id := by
  obtain ⟨⟨result, hrun, -, hmem, -⟩, -⟩ := resolve_spec ⟨fun ids => ids, fun _ => .refl _⟩
    twiceAndRing (missing_eq_nil_iff.mp (by decide +kernel))
  exact ⟨result, hrun, hmem⟩

example : (resolve ⟨fun ids => ids, fun _ => .refl _⟩ twiceAndRing).map (·.activationOrder) =
    some ["lib", "app"] := by decide +kernel

end SkillResolver

end ClawDesk.Skills
