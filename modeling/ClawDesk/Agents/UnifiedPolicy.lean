import Mathlib.Data.Finset.Insert
import Mathlib.Data.Multiset.Lattice
import Mathlib.Data.List.Induction
import Mathlib.Data.List.Perm.Basic

/-!
# The unified policy

A layer of a policy allows a tool, denies it or wants an approval for it, and a stack of layers
answers with the meet, so that no layer can weaken another.  What a stack answers does not depend
on the order of its layers, and one more layer only restricts it.

The loop asks each layer for its denials, its approvals and its list of allowed tools, and goes on
with the next layer at the first hit.  So a tool that needs an approval is not looked up in the
list of allowed tools: it escapes a layer that leaves it out there.  The stack answers with the
meet of its layers as long as no tool escapes, or some layer denies the tool all the same
(`resolveTool_eq_meet_iff`).  The layers of the built-in scenarios let nothing escape
(`scenario_resolves`).
-/

namespace ClawDesk.Agents.UnifiedPolicy

/-! ### Permissions -/

/-- A policy boundary: the execution context. -/
inductive PolicyBoundary where
  | local
  | browser
  | remoteAgent
  | pipeline
  | scheduled
  deriving DecidableEq

/-- A capability permission. -/
inductive Permission where
  | allow
  | deny
  | requireApproval
  deriving DecidableEq

namespace Permission

/-- More restrictive wins. -/
def meet : Permission → Permission → Permission
  | deny, _ => deny
  | _, deny => deny
  | requireApproval, _ => requireApproval
  | _, requireApproval => requireApproval
  | _, _ => allow

/-- How permissive a permission is. -/
def rank : Permission → ℕ
  | deny => 0
  | requireApproval => 1
  | allow => 2

theorem rank_injective : Function.Injective rank := by
  intro a b h
  cases a <;> cases b <;> first | rfl | simp [rank] at h

/-- The more restrictive permission is the lesser one. -/
instance : LinearOrder Permission := LinearOrder.lift' rank rank_injective

instance : OrderTop Permission where
  top := allow
  le_top a := by cases a <;> decide

instance : OrderBot Permission where
  bot := deny
  bot_le a := by cases a <;> decide

theorem meet_eq_inf (a b : Permission) : a.meet b = a ⊓ b := by
  cases a <;> cases b <;> decide

end Permission

/-! ### Layers and stacks -/

/-- A policy layer: one level in the policy stack. -/
structure UnifiedPolicyLayer where
  name : String
  boundary : PolicyBoundary
  allowedTools : Finset String
  deniedTools : Finset String
  /-- Tools that require human approval. -/
  approvalRequired : Finset String
  maxConcurrent : ℕ
  timeoutSecs : ℕ
  /-- Whether this layer allows sub-agent spawning. -/
  allowSpawn : Bool
  maxSpawnDepth : ℕ

def UnifiedPolicyLayer.default : UnifiedPolicyLayer where
  name := "default"
  boundary := .local
  allowedTools := ∅
  deniedTools := ∅
  approvalRequired := ∅
  maxConcurrent := 8
  timeoutSecs := 30
  allowSpawn := true
  maxSpawnDepth := 3

/-- A composed policy stack. -/
structure UnifiedPolicyStack where
  layers : List UnifiedPolicyLayer

namespace UnifiedPolicyStack

def new : UnifiedPolicyStack := ⟨[]⟩

def push (stack : UnifiedPolicyStack) (layer : UnifiedPolicyLayer) : UnifiedPolicyStack :=
  ⟨stack.layers ++ [layer]⟩

/-- One layer's turn. -/
def resolveLayer (toolName : String) (result : Permission) (layer : UnifiedPolicyLayer) :
    Permission :=
  if toolName ∈ layer.deniedTools then result.meet .deny
  else if toolName ∈ layer.approvalRequired then result.meet .requireApproval
  else if layer.allowedTools ≠ ∅ ∧ toolName ∉ layer.allowedTools then result.meet .deny
  else result

/-- Resolve a tool permission across all layers. -/
def resolveTool (stack : UnifiedPolicyStack) (toolName : String) : Permission :=
  stack.layers.foldl (resolveLayer toolName) .allow

/-- The effective maximum concurrency. -/
def effectiveMaxConcurrent (stack : UnifiedPolicyStack) : ℕ :=
  (stack.layers.map (·.maxConcurrent)).min?.getD 8

def effectiveTimeoutSecs (stack : UnifiedPolicyStack) : ℕ :=
  (stack.layers.map (·.timeoutSecs)).min?.getD 30

/-- Whether spawning is allowed. -/
def canSpawn (stack : UnifiedPolicyStack) : Bool := stack.layers.all (·.allowSpawn)

def effectiveMaxSpawnDepth (stack : UnifiedPolicyStack) : ℕ :=
  (stack.layers.map (·.maxSpawnDepth)).min?.getD 3

end UnifiedPolicyStack

/-! ### What a layer says of a tool -/

namespace UnifiedPolicyLayer

/-- The layer lists the tools it allows, and not this one. -/
def LeavesOut (layer : UnifiedPolicyLayer) (tool : String) : Prop :=
  layer.allowedTools ≠ ∅ ∧ tool ∉ layer.allowedTools

instance (layer : UnifiedPolicyLayer) (tool : String) : Decidable (layer.LeavesOut tool) :=
  inferInstanceAs (Decidable (_ ∧ _))

/-- The verdict of a layer: a tool that it leaves out is denied, whatever needs an approval. -/
def verdict (tool : String) (layer : UnifiedPolicyLayer) : Permission :=
  if tool ∈ layer.deniedTools ∨ layer.LeavesOut tool then .deny
  else if tool ∈ layer.approvalRequired then .requireApproval
  else .allow

/-- What the loop takes a layer to say. -/
def answer (tool : String) (layer : UnifiedPolicyLayer) : Permission :=
  if tool ∈ layer.deniedTools then .deny
  else if tool ∈ layer.approvalRequired then .requireApproval
  else if layer.LeavesOut tool then .deny
  else .allow

/-- A tool left out, but wanting an approval. -/
def Escapes (layer : UnifiedPolicyLayer) (tool : String) : Prop :=
  tool ∉ layer.deniedTools ∧ tool ∈ layer.approvalRequired ∧ layer.LeavesOut tool

/-- A tool denied, or left out and wanting no approval. -/
def Denies (layer : UnifiedPolicyLayer) (tool : String) : Prop :=
  tool ∈ layer.deniedTools ∨ tool ∉ layer.approvalRequired ∧ layer.LeavesOut tool

variable {layer : UnifiedPolicyLayer} {tool : String}

theorem answer_eq_deny_iff : layer.answer tool = .deny ↔ layer.Denies tool := by
  unfold answer Denies
  split_ifs <;> simp_all

theorem verdict_le_answer : layer.verdict tool ≤ layer.answer tool := by
  unfold verdict answer
  split_ifs <;> first | exact bot_le | simp_all

/-- Only a tool that escapes has another verdict. -/
theorem verdict_eq_answer_iff : layer.verdict tool = layer.answer tool ↔ ¬ layer.Escapes tool := by
  unfold verdict answer Escapes
  split_ifs <;> simp_all

theorem verdict_of_escapes (h : layer.Escapes tool) : layer.verdict tool = .deny :=
  if_pos (.inr h.2.2)

end UnifiedPolicyLayer

/-! ### What a stack answers -/

namespace UnifiedPolicyStack

open UnifiedPolicyLayer

variable {stack : UnifiedPolicyStack} {layer : UnifiedPolicyLayer} {tool : String}

theorem resolveLayer_eq {result : Permission} :
    resolveLayer tool result layer = result ⊓ layer.answer tool := by
  have htop : result ⊓ Permission.allow = result := inf_top_eq result
  unfold resolveLayer answer
  simp only [Permission.meet_eq_inf]
  split_ifs <;> first | rfl | exact htop.symm | contradiction

theorem foldl_resolveLayer {layers : List UnifiedPolicyLayer} {result : Permission} :
    layers.foldl (resolveLayer tool) result =
      result ⊓ (Multiset.map (answer tool) layers).inf := by
  induction layers generalizing result with
  | nil => exact (inf_top_eq result).symm
  | cons layer layers ih =>
      rw [List.foldl_cons, ih, resolveLayer_eq, inf_assoc, ← Multiset.cons_coe, Multiset.map_cons,
        Multiset.inf_cons]

/-- The loop computes the meet of the answers. -/
theorem resolveTool_eq_inf :
    stack.resolveTool tool = (Multiset.map (answer tool) stack.layers).inf := by
  rw [resolveTool, foldl_resolveLayer]
  exact top_inf_eq _

/-- The meet of the verdicts. -/
def meetOfVerdicts (stack : UnifiedPolicyStack) (tool : String) : Permission :=
  (Multiset.map (verdict tool) stack.layers).inf

/-- A meet of permissions is a denial only if one of them is. -/
theorem inf_eq_deny_iff {perms : Multiset Permission} :
    perms.inf = .deny ↔ Permission.deny ∈ perms := by
  induction perms using Multiset.induction with
  | empty => simp [show (⊤ : Permission) ≠ .deny from nofun]
  | cons a perms ih =>
      have hbot : a ⊓ perms.inf = .deny ↔ a = .deny ∨ perms.inf = .deny := min_eq_bot
      rw [Multiset.inf_cons, hbot, ih, Multiset.mem_cons, eq_comm]

theorem meetOfVerdicts_le : stack.meetOfVerdicts tool ≤ stack.resolveTool tool := by
  rw [resolveTool_eq_inf, Multiset.le_inf]
  intro perm hperm
  obtain ⟨layer, hlayer, rfl⟩ := Multiset.mem_map.mp hperm
  exact (Multiset.inf_le (Multiset.mem_map_of_mem _ hlayer)).trans verdict_le_answer

/-- **The stack answers with the meet of the verdicts exactly if some layer denies the tool, or it
escapes none.** -/
theorem resolveTool_eq_meet_iff : stack.resolveTool tool = stack.meetOfVerdicts tool ↔
    (∃ layer ∈ stack.layers, layer.Denies tool) ∨ ∀ layer ∈ stack.layers, ¬ layer.Escapes tool := by
  have hdenied : stack.resolveTool tool = .deny ↔ ∃ layer ∈ stack.layers, layer.Denies tool := by
    rw [resolveTool_eq_inf, inf_eq_deny_iff]
    simp [answer_eq_deny_iff]
  constructor
  · intro heq
    by_contra hnone
    obtain ⟨hno, hescapes⟩ := not_or.mp hnone
    push Not at hescapes
    obtain ⟨layer, hlayer, hescape⟩ := hescapes
    -- The verdict of a layer that is escaped is a denial, so some layer denies the tool.
    have hmeet : stack.meetOfVerdicts tool = .deny := by
      rw [meetOfVerdicts, inf_eq_deny_iff, ← verdict_of_escapes hescape]
      exact Multiset.mem_map_of_mem _ hlayer
    exact hno (hdenied.mp (heq.trans hmeet))
  · rintro (hdenies | hnone)
    · rw [hdenied.mpr hdenies]
      exact (bot_unique ((meetOfVerdicts_le).trans (hdenied.mpr hdenies).le)).symm
    · rw [resolveTool_eq_inf, meetOfVerdicts]
      exact congrArg _ (Multiset.map_congr rfl fun layer hlayer =>
        (verdict_eq_answer_iff.mpr (hnone layer hlayer)).symm)

/-! ### One more layer -/

/-- Only the layers count, not their order. -/
theorem resolveTool_perm {stack' : UnifiedPolicyStack} (h : stack'.layers.Perm stack.layers) :
    stack'.resolveTool tool = stack.resolveTool tool := by
  rw [resolveTool_eq_inf, resolveTool_eq_inf, Multiset.coe_eq_coe.mpr h]

theorem resolveTool_push :
    (stack.push layer).resolveTool tool = stack.resolveTool tool ⊓ layer.answer tool := by
  rw [resolveTool, push, List.foldl_append, List.foldl_cons, List.foldl_nil, resolveLayer_eq,
    resolveTool]

/-- A minimum does not grow with one more value. -/
theorem min?_append_le {ns : List ℕ} (h : ns ≠ []) (n d : ℕ) :
    (ns ++ [n]).min?.getD d ≤ ns.min?.getD d := by
  obtain ⟨a, ha⟩ := Option.isSome_iff_exists.mp (List.isSome_min?_of_ne_nil h)
  obtain ⟨b, hb⟩ := Option.isSome_iff_exists.mp
    (List.isSome_min?_of_ne_nil (List.append_ne_nil_of_left_ne_nil h [n]))
  rw [ha, hb]
  exact (List.min?_eq_some_iff.mp hb).2 a
    (List.mem_append_left _ (List.min?_eq_some_iff.mp ha).1)

/-- The stack answers with the meet of the verdicts on the tool, whatever the order of the layers,
and one more layer does not make it less restrictive. -/
structure Resolves (stack : UnifiedPolicyStack) (tool : String) : Prop where
  meet : stack.resolveTool tool = stack.meetOfVerdicts tool
  order : ∀ stack' : UnifiedPolicyStack, stack'.layers.Perm stack.layers →
    stack'.resolveTool tool = stack.resolveTool tool
  tool : ∀ layer, stack.layers ≠ [] →
    (stack.push layer).resolveTool tool ≤ stack.resolveTool tool
  spawn : ∀ layer, stack.layers ≠ [] → (stack.push layer).canSpawn = true → stack.canSpawn = true
  concurrent : ∀ layer, stack.layers ≠ [] →
    (stack.push layer).effectiveMaxConcurrent ≤ stack.effectiveMaxConcurrent
  timeout : ∀ layer, stack.layers ≠ [] →
    (stack.push layer).effectiveTimeoutSecs ≤ stack.effectiveTimeoutSecs
  depth : ∀ layer, stack.layers ≠ [] →
    (stack.push layer).effectiveMaxSpawnDepth ≤ stack.effectiveMaxSpawnDepth

theorem Resolves.of_meet (h : stack.resolveTool tool = stack.meetOfVerdicts tool) :
    stack.Resolves tool where
  meet := h
  order _ hperm := resolveTool_perm hperm
  tool layer _ := by
    rw [resolveTool_push]
    exact inf_le_left
  spawn layer _ hspawn := by
    rw [canSpawn, push, List.all_append, Bool.and_eq_true] at hspawn
    exact hspawn.1
  concurrent layer hne := by
    rw [effectiveMaxConcurrent, push, List.map_append]
    exact min?_append_le (List.map_eq_nil_iff.not.mpr hne) _ _
  timeout layer hne := by
    rw [effectiveTimeoutSecs, push, List.map_append]
    exact min?_append_le (List.map_eq_nil_iff.not.mpr hne) _ _
  depth layer hne := by
    rw [effectiveMaxSpawnDepth, push, List.map_append]
    exact min?_append_le (List.map_eq_nil_iff.not.mpr hne) _ _

/-- **The stack resolves a tool as its layers say exactly if some layer denies the tool, or it
escapes none.** -/
theorem resolves_iff (stack : UnifiedPolicyStack) (tool : String) : stack.Resolves tool ↔
    (∃ layer ∈ stack.layers, layer.Denies tool) ∨ ∀ layer ∈ stack.layers, ¬ layer.Escapes tool :=
  ⟨fun h => resolveTool_eq_meet_iff.mp h.meet, fun h => .of_meet (resolveTool_eq_meet_iff.mpr h)⟩

/-- A layer that allows reading files only, but wants an approval for the shell. -/
theorem resolves_fails :
    resolveTool ⟨[{ UnifiedPolicyLayer.default with
      allowedTools := {"file_read"}
      approvalRequired := {"shell_exec"} }]⟩ "shell_exec" = .requireApproval ∧
    ¬ Resolves ⟨[{ UnifiedPolicyLayer.default with
      allowedTools := {"file_read"}
      approvalRequired := {"shell_exec"} }]⟩ "shell_exec" :=
  ⟨by decide, fun h => absurd h.meet (by decide)⟩

end UnifiedPolicyStack

/-! ### The scenarios -/

/-- The layer of a profile. -/
def baseLayer (profile : String) : UnifiedPolicyLayer :=
  if profile = "explorer" then
    { UnifiedPolicyLayer.default with
      name := "explorer_base"
      allowedTools := {"file_read", "file_list", "web_search", "memory_search", "memory_store",
        "agents_list", "workspace_search", "workspace_grep"}
      maxConcurrent := 4
      timeoutSecs := 15
      allowSpawn := false }
  else if profile = "planner" then
    { UnifiedPolicyLayer.default with
      name := "planner_base"
      allowedTools := {"file_read", "file_list", "web_search", "memory_search", "memory_store",
        "agents_list", "workspace_search", "workspace_grep", "spawn_subagent"}
      approvalRequired := {"spawn_subagent"}
      maxConcurrent := 6
      maxSpawnDepth := 2 }
  else
    { UnifiedPolicyLayer.default with
      name := "executor_base"
      approvalRequired := {"shell_exec", "shell", "file_write", "http", "http_fetch",
        "message_send", "sessions_send", "spawn_subagent", "dynamic_spawn", "email_send",
        "process_start"} }

/-- The layer that a boundary adds. -/
def boundaryLayer : PolicyBoundary → Option UnifiedPolicyLayer
  | .browser => some
      { UnifiedPolicyLayer.default with
        name := "browser_restriction"
        boundary := .browser
        deniedTools := {"shell_exec", "shell", "file_write", "process_start", "email_send",
          "spawn_subagent"}
        maxConcurrent := 2
        timeoutSecs := 60
        allowSpawn := false }
  | .remoteAgent => some
      { UnifiedPolicyLayer.default with
        name := "remote_agent_restriction"
        boundary := .remoteAgent
        deniedTools := {"file_write", "shell_exec", "shell", "process_start"}
        approvalRequired := {"http", "http_fetch", "message_send"}
        maxConcurrent := 4
        timeoutSecs := 120
        maxSpawnDepth := 1 }
  | _ => none

/-- Build a cross-boundary policy for a complete scenario. -/
def buildScenarioPolicy (baseProfile : String) (boundaries : List PolicyBoundary) :
    UnifiedPolicyStack :=
  boundaries.foldl
    (fun stack boundary => (boundaryLayer boundary).elim stack stack.push)
    (UnifiedPolicyStack.new.push (baseLayer baseProfile))

namespace UnifiedPolicyStack

open UnifiedPolicyLayer

theorem not_escapes_baseLayer (profile tool : String) : ¬ (baseLayer profile).Escapes tool := by
  rintro ⟨-, happroval, hleft, hout⟩
  unfold baseLayer at happroval hleft hout
  split_ifs at happroval hleft hout
  · exact absurd happroval (Finset.notMem_empty _)
  · obtain rfl := Finset.mem_singleton.mp happroval
    exact hout (by decide)
  · exact hleft rfl

theorem not_escapes_boundaryLayer {boundary : PolicyBoundary} {layer : UnifiedPolicyLayer}
    (h : boundaryLayer boundary = some layer) (tool : String) : ¬ layer.Escapes tool := by
  rintro ⟨-, -, hleft, -⟩
  cases boundary <;> cases h <;> exact hleft rfl

theorem not_escapes_scenario {profile : String} {boundaries : List PolicyBoundary} {tool : String} :
    ∀ layer ∈ (buildScenarioPolicy profile boundaries).layers, ¬ layer.Escapes tool := by
  unfold buildScenarioPolicy
  induction boundaries using List.reverseRecOn with
  | nil =>
      intro layer hlayer
      obtain rfl := List.mem_singleton.mp hlayer
      exact not_escapes_baseLayer profile tool
  | append_singleton boundaries boundary ih =>
      rw [List.foldl_append, List.foldl_cons, List.foldl_nil]
      cases hboundary : boundaryLayer boundary with
      | none => exact ih
      | some added =>
          intro layer hlayer
          rcases List.mem_append.mp hlayer with hlayer | hlayer
          · exact ih layer hlayer
          · obtain rfl := List.mem_singleton.mp hlayer
            exact not_escapes_boundaryLayer hboundary tool

/-- **In a scenario every tool is resolved as the layers say.** -/
theorem scenario_resolves (profile : String) (boundaries : List PolicyBoundary) (tool : String) :
    (buildScenarioPolicy profile boundaries).Resolves tool :=
  .of_meet (resolveTool_eq_meet_iff.mpr (.inr not_escapes_scenario))

end UnifiedPolicyStack

end ClawDesk.Agents.UnifiedPolicy
