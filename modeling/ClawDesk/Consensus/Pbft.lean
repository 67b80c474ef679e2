import Mathlib.Algebra.Order.Ring.Unbundled.Rat
import Mathlib.Data.List.Nodup
import Mathlib.Logic.Function.Basic

/-!
# PBFT rounds

The consensus engine for multi-agent decisions: a leader proposes, agents vote,
and `evaluate` counts.  A round is decided when at least `2f + 1` agents agree
and more than half of the weight does; the weights are the agents' accuracies,
which are updated from the outcome.

Confidences, accuracies and the smoothing factor are exact rationals.  The votes
of a round are kept in the order in which they arrive; nothing that is computed
from them depends on the order.
-/

namespace ClawDesk.Consensus

/-- PBFT protocol phase. -/
inductive PbftPhase where
  | prePrepare
  | prepare
  | commit
  | decided
  | failed
  deriving DecidableEq

/-- A message of the protocol. -/
structure PbftMessage where
  round : ℕ
  phase : PbftPhase
  sender : String
  decision : String
  confidence : ℚ
  agrees : Bool
  deriving DecidableEq

inductive ConsensusError where
  | insufficientAgents (have_ need : ℕ)
  | timeout (phase : PbftPhase)
  | noQuorum (votes quorum : ℕ)
  | duplicateVote (agentId : String)
  | invalidTransition (source target : PbftPhase)
  deriving DecidableEq

structure PbftConfig where
  /-- Total number of agents (n). -/
  numAgents : ℕ
  /-- Maximum Byzantine faults tolerable (f). -/
  maxFaults : ℕ
  accuracyEwmaAlpha : ℚ
  /-- Minimum confidence for a vote to count. -/
  minConfidence : ℚ
  deriving DecidableEq

namespace PbftConfig

/-- Create from desired fault tolerance. -/
def fromFaultTolerance (f : ℕ) : PbftConfig where
  numAgents := 3 * f + 1
  maxFaults := f
  accuracyEwmaAlpha := 1 / 5
  minConfidence := 3 / 10

/-- Required votes for quorum. -/
def quorum (config : PbftConfig) : ℕ := 2 * config.maxFaults + 1

/-- Validate that the configuration is consistent. -/
def validate (config : PbftConfig) : Except ConsensusError Unit :=
  if config.numAgents < 3 * config.maxFaults + 1 then
    .error (.insufficientAgents config.numAgents (3 * config.maxFaults + 1))
  else .ok ()

end PbftConfig

/-- Per-agent vote detail. -/
structure AgentVoteDetail where
  agentId : String
  agrees : Bool
  confidence : ℚ
  accuracyWeight : ℚ
  effectiveVote : ℚ
  deriving DecidableEq

/-- Result of a consensus round. -/
structure ConsensusResult where
  decision : Option String
  reached : Bool
  agreeVotes : ℕ
  disagreeVotes : ℕ
  weightedAgreement : ℚ
  agentVotes : List AgentVoteDetail
  round : ℕ
  deriving DecidableEq

/-- Per-agent accuracy tracker. -/
structure AgentAccuracy where
  accuracy : ℚ
  /-- Total rounds participated. -/
  rounds : ℕ
  alpha : ℚ
  deriving DecidableEq

namespace AgentAccuracy

def new (alpha : ℚ) : AgentAccuracy where
  accuracy := 1 / 2
  rounds := 0
  alpha := alpha

/-- Update the accuracy; the first observation is blended with the prior. -/
def update (acc : AgentAccuracy) (agreedWithConsensus : Bool) : AgentAccuracy :=
  let sample : ℚ := if agreedWithConsensus then 1 else 0
  { acc with
    accuracy :=
      if acc.rounds = 0 then 1 / 2 * (1 / 2) + 1 / 2 * sample
      else acc.alpha * sample + (1 - acc.alpha) * acc.accuracy
    rounds := acc.rounds + 1 }

/-- Effective weight for voting: new agents are damped. -/
def effectiveWeight (acc : AgentAccuracy) (minRounds : ℕ) : ℚ :=
  if acc.rounds < minRounds then
    acc.accuracy * (3 / 10 + 7 / 10 * ((acc.rounds : ℚ) / minRounds))
  else acc.accuracy

@[simp] theorem update_rounds (acc : AgentAccuracy) (agreed : Bool) :
    (acc.update agreed).rounds = acc.rounds + 1 := rfl

end AgentAccuracy

/-- Consensus state for a single round.  Commit messages are never collected. -/
structure PbftState where
  phase : PbftPhase
  round : ℕ
  proposal : Option String
  leader : Option String
  prepares : List (String × PbftMessage)
  view : ℕ
  consecutiveFailures : ℕ
  deriving DecidableEq

/-- The consensus engine. -/
structure PbftConsensus where
  config : PbftConfig
  agentAccuracy : String → Option AgentAccuracy
  state : PbftState
  history : List ConsensusResult

/-- What one pass over the votes accumulates. -/
structure Tally where
  agentVotes : List AgentVoteDetail
  weightedAgree : ℚ
  weightedTotal : ℚ
  agreeCount : ℕ
  disagreeCount : ℕ

namespace PbftConsensus

/-- The engine before its first round. -/
def initial (config : PbftConfig) : PbftConsensus where
  config := config
  agentAccuracy := fun _ => none
  state :=
    { phase := .prePrepare
      round := 0
      proposal := none
      leader := none
      prepares := []
      view := 0
      consecutiveFailures := 0 }
  history := []

def new (config : PbftConfig) : Except ConsensusError PbftConsensus :=
  config.validate.map fun _ => initial config

/-- Start a new consensus round with a proposal; returns its number. -/
def propose (engine : PbftConsensus) (leader decision : String) : ℕ × PbftConsensus :=
  (engine.state.round + 1,
    { engine with
      state :=
        { engine.state with
          round := engine.state.round + 1
          phase := .prepare
          proposal := some decision
          leader := some leader
          prepares := [] } })

/-- Trigger a view change; returns the new leader. -/
def viewChange (engine : PbftConsensus) (agentIds : List String) :
    Option String × PbftConsensus :=
  let newLeader := agentIds[(engine.state.view + 1) % agentIds.length]?
  (newLeader,
    { engine with
      state :=
        { engine.state with
          view := engine.state.view + 1
          consecutiveFailures := engine.state.consecutiveFailures + 1
          phase := .prePrepare
          proposal := none
          prepares := []
          leader := newLeader.or engine.state.leader } })

/-- The vote of an agent in the current round; the confidence is clamped. -/
def vote (engine : PbftConsensus) (agentId : String) (agrees : Bool) (confidence : ℚ) :
    PbftMessage where
  round := engine.state.round
  phase := .prepare
  sender := agentId
  decision := engine.state.proposal.getD ""
  confidence := max 0 (min confidence 1)
  agrees := agrees

/-- Submit a PREPARE vote for the current round. -/
def prepare (engine : PbftConsensus) (agentId : String) (agrees : Bool) (confidence : ℚ) :
    Except ConsensusError PbftConsensus :=
  if engine.state.phase ≠ .prepare then
    .error (.invalidTransition engine.state.phase .prepare)
  else if engine.state.prepares.any (·.1 = agentId) then .error (.duplicateVote agentId)
  else
    .ok { engine with
      state :=
        { engine.state with
          prepares :=
            engine.state.prepares ++ [(agentId, engine.vote agentId agrees confidence)] } }

/-- The weight of an agent's vote. -/
def weight (engine : PbftConsensus) (agentId : String) : ℚ :=
  ((engine.agentAccuracy agentId).map (·.effectiveWeight 3)).getD (1 / 2)

/-- The detail recorded for a vote. -/
def detail (engine : PbftConsensus) (entry : String × PbftMessage) : AgentVoteDetail where
  agentId := entry.1
  agrees := entry.2.agrees
  confidence := entry.2.confidence
  accuracyWeight := engine.weight entry.1
  effectiveVote := entry.2.confidence * engine.weight entry.1

/-- Votes of low confidence are skipped. -/
def counts (engine : PbftConsensus) (entry : String × PbftMessage) : Bool :=
  !decide (entry.2.confidence < engine.config.minConfidence)

/-- One round of the counting loop. -/
def count (engine : PbftConsensus) (tally : Tally) (entry : String × PbftMessage) : Tally :=
  if engine.counts entry then
    let effective := (engine.detail entry).effectiveVote
    { agentVotes := tally.agentVotes ++ [engine.detail entry]
      weightedAgree := if entry.2.agrees then tally.weightedAgree + effective
        else tally.weightedAgree
      weightedTotal := tally.weightedTotal + effective
      agreeCount := if entry.2.agrees then tally.agreeCount + 1 else tally.agreeCount
      disagreeCount := if entry.2.agrees then tally.disagreeCount else tally.disagreeCount + 1 }
  else tally

/-- The counting loop. -/
def tally (engine : PbftConsensus) : Tally :=
  engine.state.prepares.foldl engine.count
    { agentVotes := []
      weightedAgree := 0
      weightedTotal := 0
      agreeCount := 0
      disagreeCount := 0 }

/-- The result `evaluate` returns. -/
def result (engine : PbftConsensus) : ConsensusResult :=
  let t := engine.tally
  let weightedAgreement := if 0 < t.weightedTotal then t.weightedAgree / t.weightedTotal else 0
  let reached := decide (engine.config.quorum ≤ t.agreeCount) && decide (1 / 2 < weightedAgreement)
  { decision := if reached then engine.state.proposal else none
    reached := reached
    agreeVotes := t.agreeCount
    disagreeVotes := t.disagreeCount
    weightedAgreement := weightedAgreement
    agentVotes := t.agentVotes
    round := engine.state.round }

/-- Update the record of the agent of a counted vote: it did well if it agreed. -/
def credit (alpha : ℚ) (accuracies : String → Option AgentAccuracy) (detail : AgentVoteDetail) :
    String → Option AgentAccuracy :=
  Function.update accuracies detail.agentId
    (some (((accuracies detail.agentId).getD (AgentAccuracy.new alpha)).update detail.agrees))

/-- Evaluate the current round and produce a consensus result.  The phase is not
looked at. -/
def evaluate (engine : PbftConsensus) : ConsensusResult × PbftConsensus :=
  let result := engine.result
  (result,
    { engine with
      agentAccuracy :=
        if result.reached then
          result.agentVotes.foldl (credit engine.config.accuracyEwmaAlpha) engine.agentAccuracy
        else engine.agentAccuracy
      state := { engine.state with phase := if result.reached then .decided else .failed }
      history := engine.history ++ [result] })

/-! ### Calls -/

/-- A call on the engine. -/
inductive Call where
  | propose (leader decision : String)
  | prepare (agentId : String) (agrees : Bool) (confidence : ℚ)
  | evaluate
  | viewChange (agentIds : List String)
  deriving DecidableEq

/-- The engine after a call; a call that fails changes nothing. -/
def step (engine : PbftConsensus) : Call → PbftConsensus
  | .propose leader decision => (engine.propose leader decision).2
  | .prepare agentId agrees confidence =>
      match engine.prepare agentId agrees confidence with
      | .ok engine' => engine'
      | .error _ => engine
  | .evaluate => engine.evaluate.2
  | .viewChange agentIds => (engine.viewChange agentIds).2

/-- The engine after a sequence of calls. -/
def run (engine : PbftConsensus) (calls : List Call) : PbftConsensus := calls.foldl step engine

variable {engine : PbftConsensus}

@[simp] theorem run_nil : engine.run [] = engine := rfl

@[simp] theorem run_cons (call : Call) (calls : List Call) :
    engine.run (call :: calls) = (engine.step call).run calls := rfl

@[simp] theorem step_evaluate : engine.step .evaluate = engine.evaluate.2 := rfl

theorem new_eq_ok {config : PbftConfig} (h : new config = .ok engine) :
    config.validate = .ok () ∧ engine = initial config := by
  rw [new] at h
  cases hvalid : config.validate with
  | error e =>
      rw [hvalid] at h
      cases h
  | ok u =>
      rw [hvalid] at h
      cases h
      exact ⟨rfl, rfl⟩

/-- **What a vote can do.** -/
theorem step_prepare (agentId : String) (agrees : Bool) (confidence : ℚ) :
    engine.step (.prepare agentId agrees confidence) = engine ∨
      engine.state.phase = .prepare ∧ agentId ∉ engine.state.prepares.map Prod.fst ∧
        engine.step (.prepare agentId agrees confidence) =
          { engine with
            state :=
              { engine.state with
                prepares := engine.state.prepares ++
                  [(agentId, engine.vote agentId agrees confidence)] } } := by
  simp only [step, prepare]
  split_ifs with hphase hdup
  · exact .inl rfl
  · exact .inl rfl
  · refine .inr ⟨not_not.mp hphase, fun hmem => hdup ?_, rfl⟩
    obtain ⟨entry, hentry, rfl⟩ := List.mem_map.mp hmem
    exact List.any_eq_true.mpr ⟨entry, hentry, by simp⟩

/-! ### What the loop counts -/

/-- The votes that count. -/
def counted (engine : PbftConsensus) : List (String × PbftMessage) :=
  engine.state.prepares.filter engine.counts

/-- **The counting loop, for the votes seen so far.** -/
theorem foldl_count (entries : List (String × PbftMessage)) (tally : Tally) :
    (entries.foldl engine.count tally).agentVotes =
        tally.agentVotes ++ (entries.filter engine.counts).map engine.detail ∧
      (entries.foldl engine.count tally).agreeCount =
        tally.agreeCount + ((entries.filter engine.counts).filter (·.2.agrees)).length := by
  induction entries generalizing tally with
  | nil => simp
  | cons entry entries ih =>
      rw [List.foldl_cons, (ih _).1, (ih _).2, List.filter_cons]
      unfold count
      cases hcounts : engine.counts entry with
      | false => simp
      | true =>
          cases hagrees : entry.2.agrees with
          | false => simp [hagrees]
          | true =>
              simp only [if_true, List.filter_cons, hagrees, List.length_cons, List.map_cons,
                List.append_assoc, List.singleton_append]
              exact ⟨trivial, by omega⟩

theorem result_agentVotes : engine.result.agentVotes = engine.counted.map engine.detail := by
  show engine.tally.agentVotes = _
  rw [tally, (foldl_count _ _).1]
  rfl

theorem result_agreeVotes :
    engine.result.agreeVotes = (engine.counted.filter (·.2.agrees)).length := by
  show engine.tally.agreeCount = _
  rw [tally, (foldl_count _ _).2]
  simp [counted]

/-- A decided round has a quorum of agreeing votes. -/
theorem quorum_le_of_reached (h : engine.result.reached = true) :
    engine.config.quorum ≤ engine.result.agreeVotes := by
  have hboth : (decide (engine.config.quorum ≤ engine.tally.agreeCount) && _) = true := h
  exact of_decide_eq_true (Bool.and_eq_true_iff.mp hboth).1

theorem result_of_prepares_eq_nil (h : engine.state.prepares = []) :
    engine.result.reached = false := by
  by_contra hreached
  have hquorum := quorum_le_of_reached (Bool.not_eq_false _ ▸ hreached)
  rw [result_agreeVotes, counted, h] at hquorum
  simp [PbftConfig.quorum] at hquorum

/-- An evaluation that decides nothing changes no weight. -/
theorem evaluate_of_not_reached (h : engine.result.reached = false) :
    engine.evaluate.2 =
      { engine with
        state := { engine.state with phase := .failed }
        history := engine.history ++ [engine.result] } := by
  simp [evaluate, h]

end PbftConsensus

end ClawDesk.Consensus
