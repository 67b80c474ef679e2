import ClawDesk.Skills.Resolver

/-!
# Installing a skill with its dependencies

A plan puts all skills of the dependency graph in order, not only the target and what it depends
on.  So it is about the target just where nothing else matters: every other skill can be resolved
too, and is already installed or among the dependencies (`plan_conforms_iff`).
-/

namespace ClawDesk.Skills

open Foundations
open Relation
open SkillResolver (DependsOn Closed ids resolve)

/-- A dependency graph entry for install planning, without the install specs. -/
structure InstallNode where
  skillId : SkillId
  /-- Dependencies this skill requires. -/
  dependencies : List SkillId
  /-- Whether this skill is already installed. -/
  alreadyInstalled : Bool

/-- A computed installation plan from DAG resolution. -/
structure DagInstallPlan where
  /-- Skills to install, in topological order. -/
  installOrder : List String
  /-- Unresolvable dependencies. -/
  unresolved : List String
  /-- Skills already installed. -/
  alreadyInstalled : List String
  deriving DecidableEq

/-- Whether the plan can be executed. -/
def DagInstallPlan.isExecutable (plan : DagInstallPlan) : Bool := plan.unresolved.isEmpty

namespace DagInstaller

/-- The skill→deps mapping for the resolver. -/
def skillDeps (nodes : List InstallNode) : List SkillDeps :=
  nodes.map fun n => (n.skillId, n.dependencies)

/-- Whether the first node of the id is already installed. -/
def installed (nodes : List InstallNode) (id : SkillId) : Bool :=
  match nodes.find? fun n => n.skillId = id with
  | some n => n.alreadyInstalled
  | none => false

/-- An unresolved skill as the plan shows it. -/
def describe (skill : UnresolvedSkill) : String := skill.id ++ ": " ++ skill.reason.toText

/-- Plan the installation of a skill and all its transitive dependencies. -/
def plan (it : HashOrder SkillId) (target : SkillId) (nodes : List InstallNode) :
    Option DagInstallPlan :=
  (resolve it (skillDeps nodes)).map fun resolution =>
    if target ∉ resolution.activationOrder ∧ resolution.unresolved = [] then
      ⟨[], ["target skill '" ++ target ++ "' not found in dependency graph"], []⟩
    else {
      installOrder := resolution.activationOrder.filter fun id => !installed nodes id
      unresolved := resolution.unresolved.map describe
      alreadyInstalled := resolution.activationOrder.filter fun id => installed nodes id }

/-! ### What a plan should be -/

variable {it : HashOrder SkillId} {nodes : List InstallNode} {target id dep : SkillId}

/-- One skill depends on the other, directly. -/
abbrev Needs (nodes : List InstallNode) : SkillId → SkillId → Prop := DependsOn (skillDeps nodes)

/-- The target exists, and its transitive dependencies exist and are on no cycle. -/
def Installable (nodes : List InstallNode) (target : SkillId) : Prop :=
  ∀ dep, ReflTransGen (Needs nodes) target dep →
    dep ∈ ids (skillDeps nodes) ∧ ¬ TransGen (Needs nodes) dep dep

/-- There is a node of that id that is not installed. -/
def Uninstalled (nodes : List InstallNode) (id : SkillId) : Prop :=
  ∃ node ∈ nodes, node.skillId = id ∧ node.alreadyInstalled = false

/-- The plan can be executed just where the target can be installed, and then it installs what the
target depends on and is not installed yet, dependencies first. -/
def PlansTarget (it : HashOrder SkillId) (nodes : List InstallNode) (target : SkillId) : Prop :=
  ∃ p, plan it target nodes = some p ∧ (p.isExecutable = true ↔ Installable nodes target) ∧
    (Installable nodes target → p.installOrder.Nodup ∧
      (∀ id, id ∈ p.installOrder ↔
        ReflTransGen (Needs nodes) target id ∧ Uninstalled nodes id) ∧
      ∀ id ∈ p.installOrder, ∀ dep ∈ p.installOrder, Needs nodes id dep →
        p.installOrder.idxOf dep < p.installOrder.idxOf id)

theorem ids_skillDeps (nodes : List InstallNode) :
    ids (skillDeps nodes) = nodes.map (·.skillId) := by
  rw [ids, skillDeps, List.map_map]
  rfl

/-- Where everything can be resolved, every node can be installed. -/
theorem installable_of_resolved (htarget : target ∈ ids (skillDeps nodes))
    (hclosed : Closed (skillDeps nodes)) (hacyclic : Acyclic (Needs nodes)) :
    Installable nodes target := by
  refine fun dep hway => ⟨?_, hacyclic dep⟩
  rcases hway.cases_tail with rfl | ⟨x, -, hlast⟩
  · exact htarget
  · exact hclosed x dep hlast

/-- With distinct ids, the first node of an id is the only one. -/
theorem installed_of_mem (hnodup : (nodes.map (·.skillId)).Nodup) {node : InstallNode}
    (hnode : node ∈ nodes) : installed nodes node.skillId = node.alreadyInstalled := by
  unfold installed
  cases hfind : nodes.find? fun n => n.skillId = node.skillId with
  | none => exact absurd (decide_eq_true rfl) (List.find?_eq_none.mp hfind node hnode)
  | some n =>
      have hid : n.skillId = node.skillId := by simpa using List.find?_some hfind
      rw [List.inj_on_of_nodup_map hnodup (List.mem_of_find?_eq_some hfind) hnode hid]

theorem uninstalled_iff (hnodup : (nodes.map (·.skillId)).Nodup) :
    Uninstalled nodes id ↔ id ∈ ids (skillDeps nodes) ∧ installed nodes id = false := by
  rw [ids_skillDeps]
  constructor
  · rintro ⟨node, hnode, rfl, hfresh⟩
    exact ⟨List.mem_map_of_mem hnode, (installed_of_mem hnodup hnode).trans hfresh⟩
  · rintro ⟨hid, hfresh⟩
    obtain ⟨node, hnode, rfl⟩ := List.mem_map.mp hid
    exact ⟨node, hnode, rfl, (installed_of_mem hnodup hnode).symm.trans hfresh⟩

/-- The plan, when everything can be resolved. -/
theorem plan_of_resolved (it : HashOrder SkillId) (hnodup : (nodes.map (·.skillId)).Nodup)
    (htarget : target ∈ ids (skillDeps nodes)) (hclosed : Closed (skillDeps nodes))
    (hacyclic : Acyclic (Needs nodes)) :
    ∃ p, plan it target nodes = some p ∧ p.isExecutable = true ∧ p.installOrder.Nodup ∧
      (∀ id, id ∈ p.installOrder ↔ Uninstalled nodes id) ∧
      ∀ id ∈ p.installOrder, ∀ dep ∈ p.installOrder, Needs nodes id dep →
        p.installOrder.idxOf dep < p.installOrder.idxOf id := by
  obtain ⟨resolution, hrun, horder, htopological, hmem, -, -⟩ :=
    SkillResolver.resolve_of_closed it hclosed
  have hnil : resolution.unresolved = [] := by
    obtain ⟨other, hother, hiff⟩ :=
      SkillResolver.resolve_unresolved_eq_nil_iff it (skillDeps nodes)
    obtain rfl := Option.some.inj (hrun.symm.trans hother)
    exact hiff.mpr ⟨hclosed, hacyclic⟩
  have hall : ∀ id, id ∈ resolution.activationOrder ↔ id ∈ ids (skillDeps nodes) := by
    intro id
    rw [hmem]
    exact and_iff_left fun ⟨origin, _, hcycle⟩ => hacyclic origin hcycle
  have hfound : ¬ (target ∉ resolution.activationOrder ∧ resolution.unresolved = []) :=
    fun h => h.1 ((hall target).mpr htarget)
  have hkept := htopological.filter fun id => !installed nodes id
  have hfresh := horder.filter fun id => !installed nodes id
  have hplan : plan it target nodes = some {
      installOrder := resolution.activationOrder.filter fun id => !installed nodes id
      unresolved := resolution.unresolved.map describe
      alreadyInstalled := resolution.activationOrder.filter fun id => installed nodes id } := by
    unfold plan
    rw [hrun, Option.map_some, if_neg hfound]
  refine ⟨_, hplan, ?_, hfresh, fun id => ?_, fun id hid dep hdep hneeds => ?_⟩
  · rw [DagInstallPlan.isExecutable, hnil]
    rfl
  · rw [List.mem_filter, hall, uninstalled_iff hnodup, Bool.not_eq_true']
  · exact hkept.idxOf_lt hfresh hid
      ⟨SkillResolver.edge_iff.mpr hneeds, (List.mem_filter.mp hdep).2⟩

/-- The plan cannot be executed when something cannot be resolved. -/
theorem plan_of_unresolved (it : HashOrder SkillId)
    (h : ¬ (target ∈ ids (skillDeps nodes) ∧ Closed (skillDeps nodes) ∧ Acyclic (Needs nodes))) :
    ∃ p, plan it target nodes = some p ∧ p.isExecutable = false := by
  obtain ⟨resolution, hrun, hiff⟩ :=
    SkillResolver.resolve_unresolved_eq_nil_iff it (skillDeps nodes)
  unfold plan
  rw [hrun, Option.map_some]
  refine ⟨_, rfl, ?_⟩
  split_ifs with hmissed
  · rfl
  · have hne : resolution.unresolved ≠ [] := by
      intro hnil
      obtain ⟨hclosed, hacyclic⟩ := hiff.mp hnil
      -- the order holds every node then, and so not the target
      obtain ⟨other, hother, -, -, hmem, -, -⟩ := SkillResolver.resolve_of_closed it hclosed
      obtain rfl := Option.some.inj (hrun.symm.trans hother)
      have hin : target ∈ resolution.activationOrder := by_contra fun hout => hmissed ⟨hout, hnil⟩
      exact h ⟨((hmem target).mp hin).1, hclosed, hacyclic⟩
    simpa [DagInstallPlan.isExecutable] using hne

/-- **A plan is about the target just where, if the target can be installed, everything can, and all
that is not installed is the target or one of its dependencies.** -/
theorem plan_conforms_iff (it : HashOrder SkillId) (nodes : List InstallNode) (target : SkillId)
    (hnodup : (nodes.map (·.skillId)).Nodup) :
    PlansTarget it nodes target ↔ (Installable nodes target →
      Closed (skillDeps nodes) ∧ Acyclic (Needs nodes) ∧
        ∀ id, Uninstalled nodes id → ReflTransGen (Needs nodes) target id) := by
  by_cases hinstallable : Installable nodes target
  · rw [forall_prop_of_true hinstallable]
    have htarget : target ∈ ids (skillDeps nodes) := (hinstallable target .refl).1
    constructor
    · rintro ⟨p, hplan, hexecutable, hinstalls⟩
      obtain ⟨-, hmem, -⟩ := hinstalls hinstallable
      have hresolved : Closed (skillDeps nodes) ∧ Acyclic (Needs nodes) := by
        by_contra hnot
        obtain ⟨other, hother, hfails⟩ :=
          @plan_of_unresolved _ target it fun h => hnot ⟨h.2.1, h.2.2⟩
        obtain rfl := Option.some.inj (hplan.symm.trans hother)
        rw [hexecutable.mpr hinstallable] at hfails
        cases hfails
      refine ⟨hresolved.1, hresolved.2, fun id hid => ?_⟩
      obtain ⟨other, hother, -, -, hall, -⟩ :=
        plan_of_resolved it hnodup htarget hresolved.1 hresolved.2
      obtain rfl := Option.some.inj (hplan.symm.trans hother)
      exact ((hmem id).mp ((hall id).mpr hid)).1
    · rintro ⟨hclosed, hacyclic, honly⟩
      obtain ⟨p, hplan, hexecutable, hfresh, hall, hfirst⟩ :=
        plan_of_resolved it hnodup htarget hclosed hacyclic
      refine ⟨p, hplan, iff_of_true hexecutable hinstallable, fun _ =>
        ⟨hfresh, fun id => ?_, hfirst⟩⟩
      rw [hall]
      exact (and_iff_right_of_imp (honly id)).symm
  · refine iff_of_true ?_ fun h => absurd h hinstallable
    obtain ⟨p, hplan, hfails⟩ := @plan_of_unresolved _ target it fun h =>
      hinstallable (installable_of_resolved h.1 h.2.1 h.2.2)
    refine ⟨p, hplan, iff_of_false (Bool.eq_false_iff.mp hfails) hinstallable, fun h => ?_⟩
    exact absurd h hinstallable

/-- An application with its library. -/
def appWithLib : List InstallNode := [⟨"app", ["lib"], false⟩, ⟨"lib", [], true⟩]

theorem plan_conforms_iff_appWithLib :
    PlansTarget ⟨fun ids => ids, fun _ => .refl _⟩ appWithLib "app" ↔
      (Installable appWithLib "app" →
        Closed (skillDeps appWithLib) ∧ Acyclic (Needs appWithLib) ∧
          ∀ id, Uninstalled appWithLib id → ReflTransGen (Needs appWithLib) "app" id) :=
  plan_conforms_iff ⟨fun ids => ids, fun _ => .refl _⟩ appWithLib "app" (by decide)

/-- Two skills that have nothing to do with each other. -/
def strangers : List InstallNode := [⟨"a", [], false⟩, ⟨"b", [], false⟩]

/-- **A plan for one skill installs another.** -/
theorem plan_installs_stranger :
    ¬ PlansTarget ⟨fun ids => ids, fun _ => .refl _⟩ strangers "a" := by
  have hneeds : ∀ id dep, ¬ Needs strangers id dep := by
    rintro id dep ⟨deps, hskill, hdep⟩
    have hnone : deps = [] := by
      simp only [skillDeps, strangers, List.map_cons, List.map_nil, List.mem_cons, Prod.mk.injEq,
        List.not_mem_nil, or_false] at hskill
      rcases hskill with ⟨-, rfl⟩ | ⟨-, rfl⟩ <;> rfl
    rw [hnone] at hdep
    exact List.not_mem_nil hdep
  have hinstallable : Installable strangers "a" := by
    intro dep hway
    rcases hway.cases_head with rfl | ⟨x, hfirst, -⟩
    · refine ⟨by decide, fun hcycle => ?_⟩
      obtain ⟨x, hfirst, -⟩ := TransGen.head'_iff.mp hcycle
      exact hneeds _ _ hfirst
    · exact absurd hfirst (hneeds _ _)
  rintro ⟨p, hplan, -, hinstalls⟩
  have hvalue : plan ⟨fun ids => ids, fun _ => .refl _⟩ "a" strangers =
      some ⟨["b", "a"], [], []⟩ := by decide +kernel
  obtain rfl := Option.some.inj (hplan.symm.trans hvalue)
  obtain ⟨hway, -⟩ := ((hinstalls hinstallable).2.1 "b").mp List.mem_cons_self
  rcases hway.cases_head with heq | ⟨x, hfirst, -⟩
  · exact absurd heq (by decide)
  · exact hneeds _ _ hfirst

end DagInstaller

end ClawDesk.Skills
