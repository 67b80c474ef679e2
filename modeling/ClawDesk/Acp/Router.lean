import ClawDesk.Acp.Capability
import ClawDesk.Foundations.Fold
import Mathlib.Data.List.AList
import Mathlib.Data.List.Dedup
import Mathlib.Data.Prod.Lex
import Mathlib.Order.Lattice
import Mathlib.Order.OrderDual

/-!
# The agent router

Agents register with their capabilities.  For a task the router looks for the agent
that meets the required capabilities best, and among equals for the one with the
least load and the lowest latency.

Instead of scanning all agents it looks the required capabilities up in an inverted
index, which lists under a capability the agents that have it, or one that implies
it.  The score, however, compares the closures of both sides: an agent can share an
implied capability with the requirement and be listed under none of the required
ones.  So the router finds what a full scan would find just where the agents that
matter are listed (`router_agrees_iff`), as they are where the requirement names
everything it implies (`agrees_of_closed`).

Scores are exact rationals, and counters are natural numbers.
-/

namespace ClawDesk.Acp

/-! ### Agents -/

/-- The Agent Card, with what the router reads of it. -/
structure AgentCard where
  id : String
  capabilities : List CapabilityId
  /-- Maximum concurrent tasks this agent can handle. -/
  maxConcurrentTasks : Option ℕ

namespace AgentCard

/-- The closed capability set, which the card keeps in a cache. -/
def closedCapset (card : AgentCard) : CapSet := (CapSet.ofList card.capabilities).close

/-- Check if this agent has a specific capability. -/
def hasCapability (card : AgentCard) (cap : CapabilityId) : Bool := card.closedCapset.contains cap

/-- Compute capability overlap score with a set of required capabilities. -/
def capabilityScore (card : AgentCard) (required : List CapabilityId) : ℚ :=
  if required.isEmpty then 1
  else card.closedCapset.overlapScore (CapSet.ofList required).close

end AgentCard

/-- Bayesian reputation tracker using Beta-distribution parameters. -/
structure SocialMetrics where
  positive : ℚ
  negative : ℚ
  totalInteractions : ℕ

namespace SocialMetrics

/-- Uniform prior: no evidence yet. -/
def new : SocialMetrics := ⟨1, 1, 0⟩

def recordPositive (m : SocialMetrics) : SocialMetrics :=
  { m with positive := m.positive + 1, totalInteractions := m.totalInteractions + 1 }

def recordNegative (m : SocialMetrics) : SocialMetrics :=
  { m with negative := m.negative + 1, totalInteractions := m.totalInteractions + 1 }

/-- Expected reputation. -/
def reputation (m : SocialMetrics) : ℚ := m.positive / (m.positive + m.negative)

/-- Reputation boost factor for router scoring. -/
def routingBoost (m : SocialMetrics) : ℚ := 8 / 10 + 4 / 10 * m.reputation

end SocialMetrics

/-- Entry in the agent directory. -/
structure AgentEntry where
  card : AgentCard
  activeTasks : ℕ
  /-- Last known latency in milliseconds. -/
  lastLatencyMs : Option ℕ
  isHealthy : Bool
  socialMetrics : SocialMetrics

namespace AgentEntry

/-- The capability score, modulated by reputation. -/
def score (e : AgentEntry) (required : List CapabilityId) : ℚ :=
  e.card.capabilityScore required * e.socialMetrics.routingBoost

/-- The latency, `u64::MAX` where none is known. -/
def latency (e : AgentEntry) : ℕ := e.lastLatencyMs.getD 18446744073709551615

/-- The agent can take one more task. -/
def hasRoom (e : AgentEntry) : Bool :=
  match e.card.maxConcurrentTasks with
  | none => true
  | some max => decide (e.activeTasks < max)

end AgentEntry

/-! ### The directory -/

/-- Agent directory — registry of known agents and their cards, with the inverted index. -/
structure AgentDirectory where
  agents : AList fun _ : String => AgentEntry
  /-- The agents that have a capability, after closure. -/
  capIndex : CapabilityId → List String

namespace AgentDirectory

def new : AgentDirectory := ⟨∅, fun _ => []⟩

/-- Remove agent from all inverted index posting lists. -/
def removeFromIndex (d : AgentDirectory) (agentId : String) : AgentDirectory :=
  { d with capIndex := fun cap => (d.capIndex cap).filter (· ≠ agentId) }

/-- Register or update an agent card. -/
def register (d : AgentDirectory) (card : AgentCard) : AgentDirectory :=
  let d := d.removeFromIndex card.id
  { agents := d.agents.insert card.id ⟨card, 0, none, true, .new⟩
    capIndex := fun cap =>
      if card.hasCapability cap then d.capIndex cap ++ [card.id] else d.capIndex cap }

/-- Remove an agent from the directory. -/
def deregister (d : AgentDirectory) (agentId : String) : AgentDirectory :=
  let d := d.removeFromIndex agentId
  { d with agents := d.agents.erase agentId }

/-- Update the entry of an agent, if it is registered. -/
def modify (d : AgentDirectory) (agentId : String) (f : AgentEntry → AgentEntry) :
    AgentDirectory :=
  match d.agents.lookup agentId with
  | none => d
  | some e => { d with agents := d.agents.insert agentId (f e) }

/-- Record that a task was assigned to an agent. -/
def incrementTasks (d : AgentDirectory) (agentId : String) : AgentDirectory :=
  d.modify agentId fun e => { e with activeTasks := e.activeTasks + 1 }

/-- Record that a task on an agent completed. -/
def decrementTasks (d : AgentDirectory) (agentId : String) : AgentDirectory :=
  d.modify agentId fun e => { e with activeTasks := e.activeTasks - 1 }

/-- Update health status for an agent. -/
def updateHealth (d : AgentDirectory) (agentId : String) (healthy : Bool)
    (latencyMs : Option ℕ) : AgentDirectory :=
  d.modify agentId fun e => { e with isHealthy := healthy, lastLatencyMs := latencyMs }

/-- Record a user reaction for an agent. -/
def recordReaction (d : AgentDirectory) (agentId : String) (positive : Bool) : AgentDirectory :=
  d.modify agentId fun e =>
    { e with socialMetrics :=
        if positive then e.socialMetrics.recordPositive else e.socialMetrics.recordNegative }

/-- Get candidate agent IDs: the union of the posting lists of the required capabilities. -/
def candidatesFor (d : AgentDirectory) (required : List CapabilityId) : List String :=
  (required.flatMap d.capIndex).dedup

end AgentDirectory

/-- What happens to a directory. -/
inductive DirectoryOp where
  | register (card : AgentCard)
  | deregister (agentId : String)
  | incrementTasks (agentId : String)
  | decrementTasks (agentId : String)
  | updateHealth (agentId : String) (healthy : Bool) (latencyMs : Option ℕ)
  | recordReaction (agentId : String) (positive : Bool)

namespace AgentDirectory

def step (d : AgentDirectory) : DirectoryOp → AgentDirectory
  | .register card => d.register card
  | .deregister agentId => d.deregister agentId
  | .incrementTasks agentId => d.incrementTasks agentId
  | .decrementTasks agentId => d.decrementTasks agentId
  | .updateHealth agentId healthy latencyMs => d.updateHealth agentId healthy latencyMs
  | .recordReaction agentId positive => d.recordReaction agentId positive

/-- The index lists under a capability the registered agents that have it. -/
def Indexed (d : AgentDirectory) : Prop :=
  ∀ cap id, id ∈ d.capIndex cap ↔
    ∃ e, d.agents.lookup id = some e ∧ e.card.hasCapability cap = true

variable {d : AgentDirectory} {agentId : String} {card : AgentCard}

theorem indexed_new : new.Indexed := by
  intro cap id
  refine iff_of_false List.not_mem_nil ?_
  rintro ⟨e, he, -⟩
  exact absurd he.symm (Option.some_ne_none _)

theorem mem_removeFromIndex {cap : CapabilityId} {id : String} :
    id ∈ (d.removeFromIndex agentId).capIndex cap ↔ id ∈ d.capIndex cap ∧ id ≠ agentId := by
  unfold removeFromIndex
  simp

theorem Indexed.register (h : d.Indexed) : (d.register card).Indexed := by
  intro cap id
  have hmem : id ∈ (d.register card).capIndex cap ↔
      (id ∈ d.capIndex cap ∧ id ≠ card.id) ∨ (id = card.id ∧ card.hasCapability cap = true) := by
    unfold AgentDirectory.register
    dsimp only
    split_ifs with hcap
    · rw [List.mem_append, mem_removeFromIndex, List.mem_singleton]
      simp [hcap]
    · rw [mem_removeFromIndex]
      simp [hcap]
  rw [hmem, h cap id]
  show _ ↔ ∃ e, (d.agents.insert card.id ⟨card, 0, none, true, .new⟩).lookup id = some e ∧ _
  by_cases hid : id = card.id
  · subst hid
    simp [AList.lookup_insert]
  · rw [AList.lookup_insert_ne hid]
    simp [hid]

theorem Indexed.deregister (h : d.Indexed) : (d.deregister agentId).Indexed := by
  intro cap id
  show id ∈ (d.removeFromIndex agentId).capIndex cap ↔
    ∃ e, (d.agents.erase agentId).lookup id = some e ∧ _
  rw [mem_removeFromIndex, h cap id]
  by_cases hid : id = agentId
  · subst hid
    simp [AList.lookup_erase]
  · rw [AList.lookup_erase_ne hid]
    simp [hid]

/-- An update that leaves the card alone leaves the index right. -/
theorem Indexed.modify (h : d.Indexed) {f : AgentEntry → AgentEntry}
    (hf : ∀ e, (f e).card = e.card) : (d.modify agentId f).Indexed := by
  unfold AgentDirectory.modify
  cases he : d.agents.lookup agentId with
  | none => exact h
  | some e =>
      intro cap id
      show id ∈ d.capIndex cap ↔ ∃ e', (d.agents.insert agentId (f e)).lookup id = some e' ∧ _
      rw [h cap id]
      by_cases hid : id = agentId
      · subst hid
        simp [AList.lookup_insert, he, hf]
      · rw [AList.lookup_insert_ne hid]

theorem Indexed.step (h : d.Indexed) (op : DirectoryOp) : (d.step op).Indexed := by
  cases op with
  | register card => exact h.register
  | deregister agentId => exact h.deregister
  | incrementTasks agentId => exact h.modify fun _ => rfl
  | decrementTasks agentId => exact h.modify fun _ => rfl
  | updateHealth agentId healthy latencyMs => exact h.modify fun _ => rfl
  | recordReaction agentId positive => exact h.modify fun _ => rfl

/-- **The index survives every history.** -/
theorem indexed_foldl (ops : List DirectoryOp) : (ops.foldl step new).Indexed := by
  induction ops using List.reverseRecOn with
  | nil => exact indexed_new
  | append_singleton ops op ih =>
      rw [List.foldl_append]
      exact ih.step op

end AgentDirectory

/-! ### The router -/

/-- The order in which a hash set yields its elements. -/
structure HashOrder where
  order : List String → List String
  perm : ∀ l, (order l).Perm l

/-- The order in which the elements came in. -/
def HashOrder.asIs : HashOrder := ⟨fun l => l, List.Perm.refl⟩

/-- What the router compares of an agent. -/
structure Candidate where
  agentId : String
  score : ℚ
  load : ℕ
  latency : ℕ

/-- Highest score, then lowest load, then lowest latency. -/
def Candidate.cmp (a b : Candidate) : Ordering :=
  (compare b.score a.score).then ((compare a.load b.load).then (compare a.latency b.latency))

/-- Routing decision result. -/
inductive RoutingDecision where
  | route (agentId : String) (score : ℚ) (reason : String)
  | noMatch (reason : String) (requiredCapabilities : List CapabilityId)

/-- Agent router — finds the best agent for a given task. -/
structure AgentRouter where
  /-- Minimum capability score to consider an agent eligible. -/
  minScoreThreshold : ℚ

namespace AgentRouter

/-- The eligible agents among those that the index yields. -/
def candidates (order : HashOrder) (router : AgentRouter) (d : AgentDirectory)
    (required : List CapabilityId) (exclude : List String) : List Candidate :=
  ((((order.order (d.candidatesFor required)).filterMap fun id =>
    (d.agents.lookup id).map (Prod.mk id)).filter fun p =>
      p.2.isHealthy && p.1 ∉ exclude && p.2.hasRoom).map fun p =>
        ⟨p.1, p.2.score required, p.2.activeTasks, p.2.latency⟩).filter fun c =>
          router.minScoreThreshold ≤ c.score

/-- The eligible agents, sorted. -/
def ranked (order : HashOrder) (router : AgentRouter) (d : AgentDirectory)
    (required : List CapabilityId) (exclude : List String) : List Candidate :=
  (router.candidates order d required exclude).mergeSort fun a b => a.cmp b != .gt

/-- Find the best agent for a set of required capabilities.  `fixed` prints a score with so
many digits. -/
def route (fixed : ℕ → ℚ → String) (order : HashOrder) (router : AgentRouter)
    (d : AgentDirectory) (required : List CapabilityId) (exclude : List String) :
    RoutingDecision :=
  let candidates := router.candidates order d required exclude
  match router.ranked order d required exclude with
  | [] => .noMatch "no healthy agent with required capabilities found" required
  | best :: _ =>
      .route best.agentId best.score
        ("best match (score=" ++ fixed 2 best.score ++
          s!", load={best.load}, {candidates.length} candidates)")

/-- Find all agents matching a set of capabilities. -/
def findAll (order : HashOrder) (router : AgentRouter) (d : AgentDirectory)
    (required : List CapabilityId) : List (String × ℚ) :=
  ((((order.order (d.candidatesFor required)).filterMap fun id =>
    (d.agents.lookup id).map (Prod.mk id)).filter fun p => p.2.isHealthy).map fun p =>
      (p.1, p.2.card.capabilityScore required)).filter fun p => router.minScoreThreshold ≤ p.2

end AgentRouter

/-! ### The full scan -/

/-- A registered agent that may be given the task. -/
structure AgentRouter.Eligible (router : AgentRouter) (d : AgentDirectory)
    (required : List CapabilityId) (exclude : List String) (id : String) (e : AgentEntry) :
    Prop where
  registered : d.agents.lookup id = some e
  healthy : e.isHealthy = true
  notExcluded : id ∉ exclude
  room : ∀ max ∈ e.card.maxConcurrentTasks, e.activeTasks < max
  score : router.minScoreThreshold ≤ e.score required

/-- What an agent is ranked by, the best first. -/
def AgentEntry.rank (e : AgentEntry) (required : List CapabilityId) : ℚᵒᵈ ×ₗ (ℕ ×ₗ ℕ) :=
  toLex (OrderDual.toDual (e.score required), toLex (e.activeTasks, e.latency))

/-- The agent has one of the required capabilities itself, or one that implies it. -/
def AgentEntry.Listed (e : AgentEntry) (required : List CapabilityId) : Prop :=
  ∃ cap ∈ required, e.card.hasCapability cap = true

/-- What is promised of the router: it finds what a full scan finds. -/
structure AgentRouter.Agrees (fixed : ℕ → ℚ → String) (order : HashOrder) (router : AgentRouter)
    (d : AgentDirectory) (required : List CapabilityId) (exclude : List String) : Prop where
  found : (∃ id score reason,
      router.route fixed order d required exclude = .route id score reason) ↔
    ∃ id e, router.Eligible d required exclude id e
  best : ∀ id score reason, router.route fixed order d required exclude = .route id score reason →
    ∃ e, router.Eligible d required exclude id e ∧
      ∀ id' e', router.Eligible d required exclude id' e' → e.rank required ≤ e'.rank required
  all : ∀ id score, (id, score) ∈ router.findAll order d required ↔
    ∃ e, d.agents.lookup id = some e ∧ e.isHealthy = true ∧
      score = e.card.capabilityScore required ∧ router.minScoreThreshold ≤ score
  once : ((router.findAll order d required).map Prod.fst).Nodup

/-- The agents that matter are listed: one of the best eligible agents, if there are any, and
every healthy agent whose capability score is enough. -/
structure AgentRouter.Covered (router : AgentRouter) (d : AgentDirectory)
    (required : List CapabilityId) (exclude : List String) : Prop where
  best : (∃ id e, router.Eligible d required exclude id e) →
    ∃ id e, router.Eligible d required exclude id e ∧ e.Listed required ∧
      ∀ id' e', router.Eligible d required exclude id' e' → e.rank required ≤ e'.rank required
  all : ∀ id e, d.agents.lookup id = some e → e.isHealthy = true →
    router.minScoreThreshold ≤ e.card.capabilityScore required → e.Listed required

section Scan

variable {fixed : ℕ → ℚ → String} {order : HashOrder} {router : AgentRouter}
  {d : AgentDirectory} {required : List CapabilityId} {exclude : List String}

theorem mem_candidatesFor (h : d.Indexed) {id : String} {e : AgentEntry}
    (he : d.agents.lookup id = some e) :
    id ∈ order.order (d.candidatesFor required) ↔ e.Listed required := by
  rw [(order.perm _).mem_iff, AgentDirectory.candidatesFor, List.mem_dedup, List.mem_flatMap]
  refine exists_congr fun cap => and_congr_right fun _ => ?_
  rw [h cap id, he]
  simp

theorem hasRoom_iff {e : AgentEntry} :
    e.hasRoom = true ↔ ∀ max ∈ e.card.maxConcurrentTasks, e.activeTasks < max := by
  unfold AgentEntry.hasRoom
  cases e.card.maxConcurrentTasks with
  | none => simp
  | some max => simp

/-- The candidates are the eligible agents that are listed. -/
theorem mem_candidates (h : d.Indexed) {c : Candidate} :
    c ∈ router.candidates order d required exclude ↔
      ∃ e, router.Eligible d required exclude c.agentId e ∧ e.Listed required ∧
        c = ⟨c.agentId, e.score required, e.activeTasks, e.latency⟩ := by
  unfold AgentRouter.candidates
  simp only [List.mem_filter, List.mem_map, List.mem_filterMap, Option.map_eq_some_iff,
    Bool.and_eq_true, decide_eq_true_eq, hasRoom_iff]
  constructor
  · rintro ⟨⟨p, ⟨⟨id, hid, e, he, rfl⟩, ⟨hhealthy, hnot⟩, hroom⟩, rfl⟩, hscore⟩
    exact ⟨e, ⟨he, hhealthy, hnot, hroom, hscore⟩, (mem_candidatesFor h he).mp hid, rfl⟩
  · rintro ⟨e, he, hlisted, hc⟩
    refine ⟨⟨(c.agentId, e), ⟨⟨c.agentId, ?_, e, he.registered, rfl⟩, ⟨he.healthy,
      he.notExcluded⟩, he.room⟩, hc.symm⟩, ?_⟩
    · exact (mem_candidatesFor h he.registered).mpr hlisted
    · rw [hc]
      exact he.score

theorem mem_findAll (h : d.Indexed) {id : String} {score : ℚ} :
    (id, score) ∈ router.findAll order d required ↔
      ∃ e, d.agents.lookup id = some e ∧ e.isHealthy = true ∧ e.Listed required ∧
        score = e.card.capabilityScore required ∧ router.minScoreThreshold ≤ score := by
  unfold AgentRouter.findAll
  simp only [List.mem_filter, List.mem_map, List.mem_filterMap, Option.map_eq_some_iff,
    decide_eq_true_eq]
  constructor
  · rintro ⟨⟨p, ⟨⟨id', hid, e, he, rfl⟩, hhealthy⟩, heq⟩, hscore⟩
    obtain ⟨rfl, rfl⟩ := Prod.mk.inj heq
    exact ⟨e, he, hhealthy, (mem_candidatesFor h he).mp hid, rfl, hscore⟩
  · rintro ⟨e, he, hhealthy, hlisted, rfl, hscore⟩
    exact ⟨⟨(id, e), ⟨⟨id, (mem_candidatesFor h he).mpr hlisted, e, he, rfl⟩, hhealthy⟩, rfl⟩,
      hscore⟩

/-- No agent is found twice. -/
theorem nodup_findAll : ((router.findAll order d required).map Prod.fst).Nodup := by
  have hids : (order.order (d.candidatesFor required)).Nodup :=
    (order.perm _).nodup_iff.mpr (List.nodup_dedup _)
  have hentries : ((order.order (d.candidatesFor required)).filterMap fun id =>
      (d.agents.lookup id).map (Prod.mk id)).Pairwise fun p q => p.1 ≠ q.1 := by
    refine List.Pairwise.filterMap _ (fun id id' hne p hp q hq => ?_) hids
    obtain ⟨_, -, rfl⟩ := Option.map_eq_some_iff.mp hp
    obtain ⟨_, -, rfl⟩ := Option.map_eq_some_iff.mp hq
    exact hne
  apply List.pairwise_map.mpr
  apply List.Pairwise.filter
  apply List.pairwise_map.mpr
  exact hentries.filter _

/-! ### The best candidate -/

/-- The key that candidates are sorted by. -/
def Candidate.key (c : Candidate) : ℚᵒᵈ ×ₗ (ℕ ×ₗ ℕ) :=
  toLex (OrderDual.toDual c.score, toLex (c.load, c.latency))

theorem Candidate.cmp_iff {a b : Candidate} : (a.cmp b != .gt) = true ↔ a.key ≤ b.key := by
  have hle : a.key ≤ b.key ↔ b.score < a.score ∨ a.score = b.score ∧
      (a.load < b.load ∨ a.load = b.load ∧ a.latency ≤ b.latency) := by
    unfold Candidate.key
    rw [Prod.Lex.le_iff, Prod.Lex.le_iff]
    rfl
  rw [hle, bne_iff_ne]
  unfold Candidate.cmp
  rcases lt_trichotomy b.score a.score with h | h | h
  · rw [compare_lt_iff_lt.mpr h]
    simp [h, Ordering.then]
  · rw [compare_eq_iff_eq.mpr h]
    rcases lt_trichotomy a.load b.load with h' | h' | h'
    · rw [compare_lt_iff_lt.mpr h']
      simp [h, h', Ordering.then]
    · rw [compare_eq_iff_eq.mpr h']
      simp [h, h', Ordering.then, compare_gt_iff_gt]
    · rw [compare_gt_iff_gt.mpr h']
      simp [h, h'.ne', h'.not_gt, Ordering.then]
  · rw [compare_gt_iff_gt.mpr h]
    simp [h.ne, h.not_gt, Ordering.then]

theorem mem_ranked {c : Candidate} : c ∈ router.ranked order d required exclude ↔
    c ∈ router.candidates order d required exclude :=
  List.mem_mergeSort

variable (order router d required exclude) in
theorem pairwise_ranked :
    (router.ranked order d required exclude).Pairwise fun a b => a.key ≤ b.key := by
  have hsorted : (router.ranked order d required exclude).Pairwise
      fun a b => (a.cmp b != .gt) = true := by
    refine List.pairwise_mergeSort (fun a b c hab hbc => ?_) (fun a b => ?_) _
    · exact Candidate.cmp_iff.mpr ((Candidate.cmp_iff.mp hab).trans (Candidate.cmp_iff.mp hbc))
    · rw [Bool.or_eq_true, Candidate.cmp_iff, Candidate.cmp_iff]
      exact le_total _ _
  exact hsorted.imp Candidate.cmp_iff.mp

/-- The router decides for a best candidate. -/
theorem best_of_route {id : String} {score : ℚ} {reason : String}
    (h : router.route fixed order d required exclude = .route id score reason) :
    ∃ best ∈ router.candidates order d required exclude, best.agentId = id ∧
      ∀ c ∈ router.candidates order d required exclude, best.key ≤ c.key := by
  unfold AgentRouter.route at h
  dsimp only at h
  cases hranked : router.ranked order d required exclude with
  | nil =>
      rw [hranked] at h
      exact absurd h (by simp)
  | cons best rest =>
      rw [hranked] at h
      obtain ⟨rfl, -, -⟩ := RoutingDecision.route.inj h
      refine ⟨best, mem_ranked.mp (by rw [hranked]; exact List.mem_cons_self), rfl, ?_⟩
      intro c hc
      rw [← mem_ranked, hranked] at hc
      have hpairwise := pairwise_ranked order router d required exclude
      rw [hranked] at hpairwise
      rcases List.mem_cons.mp hc with rfl | hc
      · exact le_rfl
      · exact List.rel_of_pairwise_cons hpairwise hc

/-- Where there is a candidate the router finds one. -/
theorem route_of_mem {c : Candidate} (hc : c ∈ router.candidates order d required exclude) :
    ∃ id score reason, router.route fixed order d required exclude = .route id score reason := by
  rw [← mem_ranked] at hc
  unfold AgentRouter.route
  dsimp only
  cases hranked : router.ranked order d required exclude with
  | nil =>
      rw [hranked] at hc
      exact absurd hc List.not_mem_nil
  | cons best rest => exact ⟨_, _, _, rfl⟩

/-- An eligible agent that is listed is a candidate, with its rank for a key. -/
theorem candidate_of_listed (h : d.Indexed) {id : String} {e : AgentEntry}
    (he : router.Eligible d required exclude id e) (hlisted : e.Listed required) :
    ⟨id, e.score required, e.activeTasks, e.latency⟩ ∈
      router.candidates order d required exclude :=
  (mem_candidates h).mpr ⟨e, he, hlisted, rfl⟩

/-- The decision is for a listed agent that is best among those listed. -/
theorem listed_of_route (h : d.Indexed) {id : String} {score : ℚ} {reason : String}
    (hroute : router.route fixed order d required exclude = .route id score reason) :
    ∃ e, router.Eligible d required exclude id e ∧ e.Listed required ∧
      ∀ id' e', router.Eligible d required exclude id' e' → e'.Listed required →
        e.rank required ≤ e'.rank required := by
  obtain ⟨best, hbest, rfl, hleast⟩ := best_of_route hroute
  obtain ⟨e, he, hlisted, heq⟩ := (mem_candidates h).mp hbest
  refine ⟨e, he, hlisted, fun id' e' he' hlisted' => ?_⟩
  have hle := hleast _ (candidate_of_listed h he' hlisted')
  rw [heq] at hle
  exact hle

/-- The decisions are those of a full scan just where a best agent is listed. -/
theorem route_agrees_iff (h : d.Indexed) :
    (((∃ id score reason, router.route fixed order d required exclude =
            .route id score reason) ↔ ∃ id e, router.Eligible d required exclude id e) ∧
        ∀ id score reason, router.route fixed order d required exclude =
          .route id score reason →
          ∃ e, router.Eligible d required exclude id e ∧ ∀ id' e',
            router.Eligible d required exclude id' e' → e.rank required ≤ e'.rank required) ↔
      ((∃ id e, router.Eligible d required exclude id e) →
        ∃ id e, router.Eligible d required exclude id e ∧ e.Listed required ∧
          ∀ id' e', router.Eligible d required exclude id' e' →
            e.rank required ≤ e'.rank required) := by
  constructor
  · rintro ⟨hfound, hbest⟩ hsome
    obtain ⟨id, score, reason, hroute⟩ := hfound.mpr hsome
    obtain ⟨e, he, hleast⟩ := hbest id score reason hroute
    obtain ⟨e', he', hlisted, -⟩ := listed_of_route h hroute
    obtain rfl := Option.some.inj (he.registered.symm.trans he'.registered)
    exact ⟨id, e, he, hlisted, hleast⟩
  · intro hcovered
    refine ⟨⟨?_, fun hsome => ?_⟩, fun id score reason hroute => ?_⟩
    · rintro ⟨id, score, reason, hroute⟩
      obtain ⟨e, he, -⟩ := listed_of_route h hroute
      exact ⟨id, e, he⟩
    · obtain ⟨id, e, he, hlisted, -⟩ := hcovered hsome
      exact route_of_mem (candidate_of_listed h he hlisted)
    · obtain ⟨e, he, -, hleast⟩ := listed_of_route h hroute
      obtain ⟨id', e', he', hlisted', hbest'⟩ := hcovered ⟨id, e, he⟩
      refine ⟨e, he, fun id'' e'' he'' => ?_⟩
      exact (hleast id' e' he' hlisted').trans (hbest' id'' e'' he'')

theorem findAll_agrees_iff (h : d.Indexed) :
    (∀ id score, (id, score) ∈ router.findAll order d required ↔
        ∃ e, d.agents.lookup id = some e ∧ e.isHealthy = true ∧
          score = e.card.capabilityScore required ∧ router.minScoreThreshold ≤ score) ↔
      ∀ id e, d.agents.lookup id = some e → e.isHealthy = true →
        router.minScoreThreshold ≤ e.card.capabilityScore required → e.Listed required := by
  constructor
  · intro hall id e he hhealthy hscore
    obtain ⟨e', he', -, hlisted, -⟩ :=
      (mem_findAll h).mp ((hall id _).mpr ⟨e, he, hhealthy, rfl, hscore⟩)
    obtain rfl := Option.some.inj (he.symm.trans he')
    exact hlisted
  · intro hcovered id score
    rw [mem_findAll h]
    constructor
    · rintro ⟨e, he, hhealthy, -, heq, hscore⟩
      exact ⟨e, he, hhealthy, heq, hscore⟩
    · rintro ⟨e, he, hhealthy, rfl, hscore⟩
      exact ⟨e, he, hhealthy, hcovered id e he hhealthy hscore, rfl, hscore⟩

end Scan

/-- **The router finds what a full scan finds just where the agents that matter are listed.** -/
theorem router_agrees_iff (fixed : ℕ → ℚ → String) (order : HashOrder) (router : AgentRouter)
    (ops : List DirectoryOp) (required : List CapabilityId) (exclude : List String) :
    router.Agrees fixed order (ops.foldl AgentDirectory.step .new) required exclude ↔
      router.Covered (ops.foldl AgentDirectory.step .new) required exclude := by
  have hindexed := AgentDirectory.indexed_foldl ops
  constructor
  · intro h
    exact ⟨(route_agrees_iff hindexed).mp ⟨h.found, h.best⟩,
      (findAll_agrees_iff hindexed).mp h.all⟩
  · intro h
    obtain ⟨hfound, hbest⟩ := (route_agrees_iff hindexed).mpr h.best
    exact ⟨hfound, hbest, (findAll_agrees_iff hindexed).mpr h.all, nodup_findAll⟩

/-! ### Requirements that name what they imply -/

/-- An agent with a score above nothing is listed, if the requirement names everything it
implies. -/
theorem listed_of_score {required : List CapabilityId} (hne : required ≠ [])
    (hclosed : ∀ cap ∈ required, ∀ p ∈ cap.parent, p ∈ required) {e : AgentEntry}
    (hscore : e.card.capabilityScore required ≠ 0) : e.Listed required := by
  have himplied : ∀ a c, CapabilityId.Implies a c → a ∈ required → c ∈ required := by
    intro a c hac ha
    induction hac with
    | refl => exact ha
    | tail _ hp ih => exact hclosed _ ih _ hp
  obtain ⟨cap, hcap⟩ := List.exists_mem_of_ne_nil required hne
  rw [AgentCard.capabilityScore, if_neg (by simpa using hne)] at hscore
  have hrequired : (CapSet.ofList required).close.contains cap = true :=
    CapSet.contains_close.mpr ⟨cap, CapSet.contains_ofList.mpr hcap, .refl⟩
  obtain ⟨c, hoffered, hc⟩ := CapSet.exists_common (CapSet.named_ofList _).close
    (CapSet.named_ofList _).close hrequired hscore
  obtain ⟨a, ha, hac⟩ := CapSet.contains_close.mp hc
  exact ⟨c, himplied a c hac (CapSet.contains_ofList.mp ha), hoffered⟩

/-- A requirement that names what it implies is covered, whatever the threshold above
nothing. -/
theorem covered_of_closed {router : AgentRouter} {d : AgentDirectory} (h : d.Indexed)
    {required : List CapabilityId} {exclude : List String} (hpos : 0 < router.minScoreThreshold)
    (hne : required ≠ []) (hclosed : ∀ cap ∈ required, ∀ p ∈ cap.parent, p ∈ required) :
    router.Covered d required exclude := by
  have hlisted : ∀ id e, router.Eligible d required exclude id e → e.Listed required := by
    intro id e he
    refine listed_of_score hne hclosed fun hzero => ?_
    have hscore := he.score
    rw [AgentEntry.score, hzero, zero_mul] at hscore
    exact absurd hpos hscore.not_gt
  refine ⟨?_, fun id e _ _ hscore => ?_⟩
  · rintro ⟨id, e, he⟩
    have hcandidate : ⟨id, e.score required, e.activeTasks, e.latency⟩ ∈
        router.candidates .asIs d required exclude := candidate_of_listed h he (hlisted id e he)
    obtain ⟨id', score, reason, hroute⟩ : ∃ id score reason,
        router.route (fun _ _ => "") .asIs d required exclude = .route id score reason :=
      route_of_mem hcandidate
    obtain ⟨e', he', hlisted', hleast⟩ := listed_of_route h hroute
    exact ⟨id', e', he', hlisted', fun id'' e'' he'' => hleast id'' e'' he'' (hlisted _ _ he'')⟩
  · refine listed_of_score hne hclosed fun hzero => ?_
    rw [hzero] at hscore
    exact absurd hpos hscore.not_gt

/-- **Such a requirement is routed as a full scan would route it**, after whatever has been
registered, unregistered and reported. -/
theorem agrees_of_closed (fixed : ℕ → ℚ → String) (order : HashOrder) {router : AgentRouter}
    (ops : List DirectoryOp) {required : List CapabilityId} (exclude : List String)
    (hpos : 0 < router.minScoreThreshold) (hne : required ≠ [])
    (hclosed : ∀ cap ∈ required, ∀ p ∈ cap.parent, p ∈ required) :
    router.Agrees fixed order (ops.foldl AgentDirectory.step .new) required exclude := by
  have hindexed := AgentDirectory.indexed_foldl ops
  have hcovered : router.Covered (ops.foldl AgentDirectory.step .new) required exclude :=
    covered_of_closed hindexed hpos hne hclosed
  obtain ⟨hfound, hbest⟩ := (route_agrees_iff hindexed).mpr hcovered.best
  exact ⟨hfound, hbest, (findAll_agrees_iff hindexed).mpr hcovered.all, nodup_findAll⟩

/-! ### An agent that goes unseen -/

namespace Unseen

/-- An agent for audio. -/
def audioAgent : AgentCard := ⟨"audio-agent", [.audioProcessing], some 10⟩

def ops : List DirectoryOp := [.register audioAgent]

def router : AgentRouter := ⟨1 / 2⟩

/-- The agent shares two of the three capabilities that speech understanding implies. -/
theorem capabilityScore_audioAgent :
    audioAgent.capabilityScore [.voiceUnderstanding] = 2 / 3 := by
  decide +kernel

theorem eligible_audioAgent : router.Eligible (ops.foldl AgentDirectory.step .new)
    [.voiceUnderstanding] [] "audio-agent" ⟨audioAgent, 0, none, true, .new⟩ := by
  refine ⟨AList.lookup_insert _, rfl, List.not_mem_nil, ?_, ?_⟩
  · rintro max hmax
    obtain rfl := Option.some.inj hmax
    decide
  · rw [AgentEntry.score, capabilityScore_audioAgent]
    decide +kernel

/-- It is listed under audio and media processing, and the router finds nobody. -/
theorem audioAgent_not_agrees :
    ¬ router.Agrees (fun _ _ => "") .asIs (ops.foldl AgentDirectory.step .new)
      [.voiceUnderstanding] [] := by
  intro h
  obtain ⟨id, score, reason, hroute⟩ := h.found.mpr ⟨_, _, eligible_audioAgent⟩
  obtain ⟨e, he, ⟨cap, hcap, hhas⟩, -⟩ :=
    listed_of_route (AgentDirectory.indexed_foldl ops) hroute
  obtain rfl := List.mem_singleton.mp hcap
  have hindexed := (AgentDirectory.indexed_foldl ops .voiceUnderstanding id).mpr
    ⟨e, he.registered, hhas⟩
  have hnobody : (ops.foldl AgentDirectory.step .new).capIndex .voiceUnderstanding = [] := by
    decide +kernel
  rw [hnobody] at hindexed
  exact List.not_mem_nil hindexed

/-- One that names what it implies is found. -/
theorem agrees_of_closed_audio : router.Agrees (fun _ _ => "") .asIs
    (ops.foldl AgentDirectory.step .new) [.audioProcessing, .mediaProcessing] [] :=
  agrees_of_closed _ _ ops [] (by decide +kernel) (by simp) (by decide)

end Unseen

end ClawDesk.Acp
